import Avant.Utility.Url

/-!
# The components of a URL

What `url::from_string` stores as scheme, authority, path, query and fragment (`storedParts`), and
what the generic syntax of RFC 3986 assigns (`genericParts`): an authority only where `//` directly
follows the colon of the scheme, the query behind the first question mark before the fragment, the
fragment behind the first number sign.

The two differ in three ways. The parser takes a `//` anywhere behind the colon for the start of an
authority. A URL without one is all path, also with a query, and its fragment is dropped. A second
number sign ends the fragment.

* `storedParts_eq_genericParts_iff`: the components agree exactly where none of this plays a part.
-/

namespace Avant.Utility

open Avant.Lib

/-- The components of a URL. -/
structure Parts where
  scheme : Bytes
  authority : Bytes
  path : Bytes
  query : Bytes
  fragment : Bytes
  deriving DecidableEq

def Url.parts (u : Url) : Parts := ⟨u.scheme, u.authority, u.path, u.query, u.fragment⟩

/-- The components that `from_string` has stored when it begins to take the authority apart, which
can throw. -/
def storedParts (s : Bytes) : Except String Parts :=
  match schemePart s with
  | .error e => .error e
  | .ok (scheme, rest) =>
    let (authority, path, query, fragment) := rest.components
    .ok ⟨scheme, authority, path, query, fragment⟩

/-- These are the components of the URL, if `from_string` returns. -/
theorem fromString_parts {s : Bytes} {u : Url} (hs : s ≠ []) (h : fromString s = .ok u) :
    storedParts s = .ok u.parts := by
  obtain ⟨rest, hscheme, hparts⟩ := fromString_eq_ok hs h
  rw [storedParts, hscheme]
  dsimp only
  rw [hparts]
  rfl

/-! ## The generic syntax -/

/-- A letter, digit, plus, minus or dot. -/
def isSchemeChar (c : UInt8) : Bool :=
  isAlpha c || (48 ≤ c && c ≤ 57) || c = 43 || c = 45 || c = 46

/-- A scheme starts with a letter. -/
def IsScheme (scheme : Bytes) : Prop :=
  (∃ c, scheme.head? = some c ∧ isAlpha c = true) ∧ ∀ c ∈ scheme, isSchemeChar c = true

/-- The text behind the colon of the scheme; a text that starts with a slash has no scheme. -/
def schemeRest (s : Bytes) : Bytes := if s.head? = some 47 then s else behind 58 s

/-- `//` directly follows the colon of the scheme. -/
def HasAuthority (s : Bytes) : Prop := s.head? ≠ some 47 ∧ ascii "//" <+: schemeRest s

instance (s : Bytes) : Decidable (HasAuthority s) := inferInstanceAs (Decidable (_ ∧ _))

/-- Query and fragment cut off. -/
def hierText (t : Bytes) : Bytes := before 63 (before 35 t)

def queryText (t : Bytes) : Bytes := behind 63 (before 35 t)

def fragmentText (t : Bytes) : Bytes := behind 35 t

/-- The components that the generic syntax assigns. -/
def genericParts (s : Bytes) : Parts where
  scheme := if s.head? = some 47 then [] else (before 58 s).map toLower
  authority := if HasAuthority s then before 47 ((hierText (schemeRest s)).drop 2) else []
  path := if HasAuthority s then ((hierText (schemeRest s)).drop 2).dropWhile (· ≠ 47)
    else hierText (schemeRest s)
  query := queryText (schemeRest s)
  fragment := fragmentText (schemeRest s)

/-! ## What the helpers find -/

theorem existsForward_singleton (c : UInt8) (t : Bytes) :
    existsForward [c] t = decide (c ∈ t) := by
  unfold existsForward
  cases h : find [c] t with
  | none => simp [find_singleton_eq_none.mp h]
  | some i =>
    have hmem : c ∈ t := by
      by_contra hnot
      rw [find_singleton_eq_none.mpr hnot] at h
      cases h
    simp [hmem]

theorem drop_moveBefore {c : UInt8} {t : Bytes} (h : c ∈ t) :
    (moveBefore [c] t).drop 1 = behind c t := by
  unfold moveBefore
  split
  · next hfind => exact absurd h (find_singleton_eq_none.mp hfind)
  · next i hfind => rw [(take_of_find hfind).2, behind]

/-- The query and fragment that are stored, of a text behind the authority. -/
def storedTail (t : Bytes) : Bytes × Bytes :=
  if hasQuery t then
    let rest := (moveBefore (ascii "?") t).drop 1
    if existsForward (ascii "#") rest then
      (captureUpTo (ascii "#") rest, captureUpTo (ascii "#") ((moveBefore (ascii "#") rest).drop 1))
    else (captureUpTo (ascii "#") rest, [])
  else if existsForward (ascii "#") t then
    ([], captureUpTo (ascii "#") ((moveBefore (ascii "#") t).drop 1))
  else ([], [])

theorem storedTail_eq (t : Bytes) : storedTail t = (queryText t, before 35 (fragmentText t)) := by
  have hmark : ascii "?" = [63] := by decide
  have hhash : ascii "#" = [35] := by decide
  unfold storedTail queryText fragmentText
  rw [hasQuery_eq, hmark, hhash]
  simp only [captureUpTo_singleton, existsForward_singleton, decide_eq_true_eq]
  split
  · next hq =>
    have hmem : (63 : UInt8) ∈ t := List.takeWhile_subset _ hq
    obtain ⟨hquery, hfragment⟩ := before_behind hq
    rw [drop_moveBefore hmem, hquery]
    split
    · next h => rw [drop_moveBefore h, hfragment]
    · next h => rw [← hfragment, behind_eq_nil h]; rfl
  · next hq =>
    rw [behind_eq_nil hq]
    split
    · next h => rw [drop_moveBefore h]
    · next h => rw [behind_eq_nil h]; rfl

/-! ## What is stored of a hierarchical URL -/

/-- The end of an authority. -/
def isAuthorityEnd (c : UInt8) : Bool := c = 47 ∨ c = 63 ∨ c = 35

/-- The first end of an authority. -/
theorem takeWhile_of_authorityEnd {target : Bytes} {i : Nat}
    (h : target.findIdx? (fun c => decide (c = 47 ∨ c = 63 ∨ c = 35)) = some i) :
    target.take i = target.takeWhile (fun c => !isAuthorityEnd c) := by
  obtain ⟨-, rfl⟩ := List.findIdx?_eq_some_iff_findIdx_eq.mp h
  rw [List.takeWhile_eq_take_findIdx_not]
  simp only [isAuthorityEnd, Bool.not_not]

theorem hierPart_authority (target : Bytes) :
    (hierPart target).1 = target.takeWhile (fun c => !isAuthorityEnd c) := by
  unfold hierPart
  cases hend : target.findIdx? fun c => decide (c = 47 ∨ c = 63 ∨ c = 35) with
  | none =>
    have hself : target.takeWhile (fun c => !isAuthorityEnd c) = target := by
      rw [List.takeWhile_eq_self_iff]
      intro c hc
      have := List.findIdx?_eq_none_iff.mp hend c hc
      simpa [isAuthorityEnd] using this
    rw [hself]
    simp only [apply_ite Prod.fst, ite_self]
  | some i =>
    rw [← takeWhile_of_authorityEnd hend]
    simp only [apply_ite Prod.fst, ite_self]

/-- Query and fragment are looked for behind a part of the authority, or all of it. -/
theorem hierPart_tail (target : Bytes) : ∃ u t, target = u ++ t ∧
    (∀ c ∈ u, isAuthorityEnd c = false) ∧ (hierPart target).2.2 = storedTail t := by
  unfold hierPart storedTail
  cases hend : target.findIdx? fun c => decide (c = 47 ∨ c = 63 ∨ c = 35) with
  | none =>
    refine ⟨[], target, rfl, nofun, ?_⟩
    simp only [apply_ite Prod.snd]
  | some i =>
    by_cases hslash : target[i]? = some 47
    · refine ⟨target.take i, target.drop i, (List.take_append_drop i target).symm, ?_, ?_⟩
      · intro c hc
        rw [takeWhile_of_authorityEnd hend] at hc
        simpa using List.mem_takeWhile_imp hc
      · simp only [hslash, decide_true, if_true, apply_ite Prod.snd]
    · refine ⟨[], target, rfl, nofun, ?_⟩
      simp only [hslash, decide_false, Bool.false_eq_true, if_false, apply_ite Prod.snd]

theorem hierText_eq (t : Bytes) : hierText t = t.takeWhile fun c => c ≠ 63 ∧ c ≠ 35 := by
  rw [hierText, before, before, List.takeWhile_takeWhile]
  simp

section Skip

variable {u : Bytes} (hu : ∀ c ∈ u, isAuthorityEnd c = false ∨ c = 47) (t : Bytes)

include hu

theorem hash_notMem : (35 : UInt8) ∉ u := fun h => by simpa [isAuthorityEnd] using hu 35 h

theorem mark_notMem : (63 : UInt8) ∉ u := fun h => by simpa [isAuthorityEnd] using hu 63 h

theorem hierText_append : hierText (u ++ t) = u ++ hierText t := by
  rw [hierText, before_append_of_notMem (hash_notMem hu), before_append_of_notMem (mark_notMem hu),
    hierText]

theorem queryText_append : queryText (u ++ t) = queryText t := by
  rw [queryText, before_append_of_notMem (hash_notMem hu), behind_append_of_notMem (mark_notMem hu),
    queryText]

theorem fragmentText_append : fragmentText (u ++ t) = fragmentText t :=
  behind_append_of_notMem (hash_notMem hu)

end Skip

theorem hierPathText_eq (target : Bytes) :
    hierPathText target = (hierText target).dropWhile (· ≠ 47) := by
  have htarget := List.takeWhile_append_dropWhile (p := fun c => !isAuthorityEnd c) (l := target)
  have hu : ∀ c ∈ target.takeWhile (fun c => !isAuthorityEnd c), isAuthorityEnd c = false :=
    fun c hc => by simpa using List.mem_takeWhile_imp hc
  have hend := List.head?_dropWhile_not (fun c => !isAuthorityEnd c) target
  have htext : hierPathText target =
      if (target.dropWhile fun c => !isAuthorityEnd c).head? = some 47 then
        hierText (target.dropWhile fun c => !isAuthorityEnd c) else [] := by
    simp only [hierPathText, hierText_eq, isAuthorityEnd, decide_not]
  rw [htext]
  generalize target.takeWhile (fun c => !isAuthorityEnd c) = u at htarget hu
  generalize target.dropWhile (fun c => !isAuthorityEnd c) = t at htarget hend
  subst htarget
  have hslash : ∀ c ∈ u, decide (c ≠ 47) = true := by
    intro c hc
    have hne := hu c hc
    simp only [isAuthorityEnd, decide_eq_false_iff_not, not_or] at hne
    exact decide_eq_true hne.1
  rw [hierText_append (fun c hc => .inl (hu c hc)), List.dropWhile_append_of_pos hslash]
  cases t with
  | nil => rfl
  | cons c t =>
    simp only [List.head?_cons, Option.some.injEq] at hend ⊢
    split
    · next h =>
      subst h
      rw [hierText_eq, List.takeWhile_cons_of_pos (by decide),
        List.dropWhile_cons_of_neg (by decide)]
    · next h =>
      -- a question mark or a number sign ends the authority
      have hc : ¬ (c ≠ 63 ∧ c ≠ 35) := by
        simp only [isAuthorityEnd, Bool.not_eq_false', decide_eq_true_eq] at hend
        tauto
      rw [hierText_eq, List.takeWhile_cons_of_neg (by simpa using hc), List.dropWhile_nil]

/-- **What is stored of a hierarchical URL**: what the generic syntax says, but for the fragment. -/
theorem hierPart_eq (target : Bytes) : hierPart target =
    (before 47 (hierText target), (hierText target).dropWhile (· ≠ 47), queryText target,
      before 35 (fragmentText target)) := by
  have hauthority : (hierPart target).1 = before 47 (hierText target) := by
    rw [hierPart_authority, hierText_eq, before, List.takeWhile_takeWhile]
    congr 1
    funext c
    simp only [isAuthorityEnd]
    grind
  have hpath := (hierPart_path target).trans (hierPathText_eq target)
  have htail : (hierPart target).2.2 = (queryText target, before 35 (fragmentText target)) := by
    obtain ⟨u, t, rfl, hu, htail⟩ := hierPart_tail target
    have hu' : ∀ c ∈ u, isAuthorityEnd c = false ∨ c = 47 := fun c hc => .inl (hu c hc)
    rw [htail, storedTail_eq, queryText_append hu', fragmentText_append hu']
  exact Prod.ext hauthority (Prod.ext hpath htail)

/-- The lengths of the components but the scheme. -/
def Parts.size (p : Parts) : Nat :=
  p.authority.length + p.path.length + p.query.length + p.fragment.length

theorem length_texts (t : Bytes) :
    (hierText t).length + (queryText t).length + (fragmentText t).length ≤ t.length ∧
      t.length ≤ (hierText t).length + (queryText t).length + (fragmentText t).length + 2 := by
  have hquery := length_before_add_behind 63 (before 35 t)
  have hfragment := length_before_add_behind 35 t
  unfold hierText queryText fragmentText
  omega

/-! ## Where the two agree -/

/-- The text starts with a slash, or `//` follows the colon of its scheme. -/
def Hierarchical (s : Bytes) : Prop := s.head? = some 47 ∨ HasAuthority s

instance (s : Bytes) : Decidable (Hierarchical s) := inferInstanceAs (Decidable (_ ∨ _))

/-- There is no second number sign; and a URL that is not hierarchical has no `//`, query or
fragment. -/
def Plain (s : Bytes) : Prop :=
  if Hierarchical s then 35 ∉ fragmentText (schemeRest s)
  else ¬ ascii "//" <:+: schemeRest s ∧ 63 ∉ before 35 (schemeRest s) ∧
    fragmentText (schemeRest s) = []

instance (s : Bytes) : Decidable (Plain s) := by
  unfold Plain
  infer_instance

/-- The text of a URL. -/
def IsReference (s : Bytes) : Prop :=
  s.head? = some 47 ∨ ∃ scheme rest, IsScheme scheme ∧ s = scheme ++ 58 :: rest

theorem IsScheme.colon_notMem {scheme : Bytes} (h : IsScheme scheme) : (58 : UInt8) ∉ scheme :=
  fun hmem => by simpa [isSchemeChar, isAlpha] using h.2 58 hmem

theorem IsScheme.head?_append {scheme t : Bytes} (h : IsScheme scheme) :
    (scheme ++ t).head? ≠ some 47 := by
  obtain ⟨⟨c, hc, halpha⟩, -⟩ := h
  rw [List.head?_append, hc]
  rintro ⟨⟩
  simp [isAlpha] at halpha

/-- A text that starts with a slash. -/
theorem storedParts_slash {s : Bytes} (h : s.head? = some 47) :
    storedParts s =
      .ok { genericParts s with fragment := before 35 (genericParts s).fragment } := by
  have hrest : schemeRest s = s := if_pos h
  have hno : ¬ HasAuthority s := fun hauth => hauth.1 h
  have hscheme : schemePart s = .ok ([], .hierarchical s) := if_pos h
  obtain ⟨t, rfl⟩ : ∃ t, s = 47 :: t := by
    cases s with
    | nil => cases h
    | cons c t => exact ⟨t, by rw [Option.some.inj h]⟩
  have htext : hierText (47 :: t) = 47 :: hierText t :=
    hierText_append (u := [47]) (by simp) t
  rw [storedParts, hscheme]
  simp only [Rest.components, hierPart_eq, genericParts, if_pos h, if_neg hno, hrest, htext]
  rfl

variable {scheme rest : Bytes}

variable (h : IsScheme scheme)

include h

theorem schemePart_scheme : schemePart (scheme ++ 58 :: rest) =
    if existsForward (ascii "//") rest then
      .ok (scheme.map toLower, .hierarchical ((moveBefore (ascii "//") rest).drop 2))
    else .ok (scheme.map toLower, .opaqueUri rest) := by
  have hfind : find (ascii ":") (scheme ++ 58 :: rest) = some scheme.length :=
    find_singleton_append h.colon_notMem
  have hdrop : (scheme ++ 58 :: rest).drop (scheme.length + (ascii ":").length) = rest := by
    rw [← List.drop_drop, List.drop_left]
    rfl
  rw [schemePart, if_neg h.head?_append]
  simp only [captureOrThrow, hfind, hdrop, List.take_left]
  rfl

/-- A `//` anywhere behind the colon starts an authority. -/
theorem storedParts_found {i : Nat} (hi : find (ascii "//") rest = some i) :
    storedParts (scheme ++ 58 :: rest) = .ok
      { scheme := scheme.map toLower
        authority := before 47 (hierText (rest.drop (i + 2)))
        path := (hierText (rest.drop (i + 2))).dropWhile (· ≠ 47)
        query := queryText (rest.drop (i + 2))
        fragment := before 35 (fragmentText (rest.drop (i + 2))) } := by
  rw [storedParts, schemePart_scheme h]
  simp only [existsForward, moveBefore, hi, Option.isSome_some, if_true, List.drop_drop,
    Rest.components, hierPart_eq]

/-- Without one everything is path. -/
theorem storedParts_opaqueUri (hi : find (ascii "//") rest = none) :
    storedParts (scheme ++ 58 :: rest) =
      .ok ⟨scheme.map toLower, [], before 35 rest, [], []⟩ := by
  rw [storedParts, schemePart_scheme h]
  simp only [existsForward, hi, Option.isSome_none, Bool.false_eq_true, if_false, Rest.components]
  rw [← captureUpTo_singleton]
  rfl

theorem schemeRest_scheme : schemeRest (scheme ++ 58 :: rest) = rest := by
  rw [schemeRest, if_neg h.head?_append, behind_append h.colon_notMem]

/-- With `//` right behind the colon. -/
theorem storedParts_authority (hpre : ascii "//" <+: rest) :
    storedParts (scheme ++ 58 :: rest) = .ok
      { genericParts (scheme ++ 58 :: rest) with
        fragment := before 35 (genericParts (scheme ++ 58 :: rest)).fragment } := by
  have hauth : HasAuthority (scheme ++ 58 :: rest) :=
    ⟨h.head?_append, by rwa [schemeRest_scheme h]⟩
  obtain ⟨t, rfl⟩ := hpre
  have hslashes : ∀ c ∈ ascii "//", isAuthorityEnd c = false ∨ c = 47 :=
    fun c hc => .inr (List.eq_of_mem_replicate (n := 2) hc)
  rw [storedParts_found h (find_eq_zero.mpr ⟨t, rfl⟩)]
  simp only [genericParts, if_pos hauth, schemeRest_scheme h, if_neg h.head?_append,
    before_append h.colon_notMem, hierText_append hslashes, queryText_append hslashes,
    fragmentText_append hslashes]
  rfl

/-- A later `//`: what stands between it and the colon is in none of the components. -/
theorem storedParts_ne_of_later {i : Nat} (hi : find (ascii "//") rest = some i)
    (hpre : ¬ ascii "//" <+: rest) :
    storedParts (scheme ++ 58 :: rest) ≠ .ok (genericParts (scheme ++ 58 :: rest)) := by
  have hno : ¬ HasAuthority (scheme ++ 58 :: rest) := by
    rintro ⟨-, hauth⟩
    rw [schemeRest_scheme h] at hauth
    exact hpre hauth
  have hpos : i ≠ 0 := by
    rintro rfl
    exact hpre (find_eq_zero.mp hi)
  have hlen := length_le_of_find hi
  have hslashes : (ascii "//").length = 2 := rfl
  have hstored := (length_texts (rest.drop (i + 2))).1
  have hgeneric := (length_texts rest).2
  have hcut := (length_before_add_behind 35 (fragmentText (rest.drop (i + 2)))).1
  have hpath := congrArg List.length (List.takeWhile_append_dropWhile (p := (· ≠ (47 : UInt8)))
    (l := hierText (rest.drop (i + 2))))
  rw [storedParts_found h hi]
  intro heq
  have hsize := congrArg Parts.size (Except.ok.inj heq)
  simp only [Parts.size, genericParts, if_neg hno, schemeRest_scheme h, List.length_nil, before]
    at hsize hcut
  rw [List.length_append] at hpath
  rw [List.length_drop] at hstored
  omega

/-- No `//`: the query stays in the path and the fragment is dropped. -/
theorem storedParts_opaqueUri_iff (hi : find (ascii "//") rest = none) :
    storedParts (scheme ++ 58 :: rest) = .ok (genericParts (scheme ++ 58 :: rest)) ↔
      63 ∉ before 35 rest ∧ fragmentText rest = [] := by
  have hno : ¬ HasAuthority (scheme ++ 58 :: rest) := by
    rintro ⟨-, hauth⟩
    rw [schemeRest_scheme h] at hauth
    exact find_eq_none.mp hi hauth.isInfix
  rw [storedParts_opaqueUri h hi, Except.ok.injEq, Parts.mk.injEq]
  simp only [genericParts, if_neg hno, schemeRest_scheme h, if_neg h.head?_append,
    before_append h.colon_notMem, true_and]
  constructor
  · rintro ⟨hpath, -, hfragment⟩
    exact ⟨before_eq_self_iff.mp hpath.symm, hfragment.symm⟩
  · rintro ⟨hmark, hfragment⟩
    exact ⟨(before_eq_self hmark).symm, (behind_eq_nil hmark).symm, hfragment.symm⟩

omit h

theorem withFragment_eq_iff (p : Parts) :
    ({ p with fragment := before 35 p.fragment } : Parts) = p ↔ 35 ∉ p.fragment := by
  rw [← before_eq_self_iff]
  exact ⟨congrArg Parts.fragment, fun h => by rw [h]⟩

/-- **The components agree with the generic syntax** exactly for plain texts. -/
theorem storedParts_eq_genericParts_iff {s : Bytes} (h : IsReference s) :
    ∃ p, storedParts s = .ok p ∧ (∀ u, fromString s = .ok u → u.parts = p) ∧
      (p = genericParts s ↔ Plain s) := by
  have hne : s ≠ [] := by
    rintro rfl
    obtain hslash | ⟨scheme, rest, -, hnil⟩ := h
    · cases hslash
    · simp at hnil
  suffices hstored : ∃ p, storedParts s = .ok p ∧ (p = genericParts s ↔ Plain s) by
    obtain ⟨p, hp, hiff⟩ := hstored
    refine ⟨p, hp, fun u hu => ?_, hiff⟩
    rw [fromString_parts hne hu] at hp
    exact Except.ok.inj hp
  obtain hslash | ⟨scheme, rest, hscheme, rfl⟩ := h
  · refine ⟨_, storedParts_slash hslash, ?_⟩
    rw [withFragment_eq_iff, Plain, if_pos (.inl hslash), genericParts]
  · have hrest : schemeRest (scheme ++ 58 :: rest) = rest := schemeRest_scheme hscheme
    by_cases hpre : ascii "//" <+: rest
    · have hauth : Hierarchical (scheme ++ 58 :: rest) :=
        .inr ⟨hscheme.head?_append, by rwa [hrest]⟩
      refine ⟨_, storedParts_authority hscheme hpre, ?_⟩
      rw [withFragment_eq_iff, Plain, if_pos hauth, genericParts]
    · have hno : ¬ Hierarchical (scheme ++ 58 :: rest) := by
        rintro (hslash | ⟨-, hauth⟩)
        · exact hscheme.head?_append hslash
        · exact hpre (hrest ▸ hauth)
      rw [Plain, if_neg hno, hrest, ← find_eq_none]
      cases hi : find (ascii "//") rest with
      | some i =>
        have hfalse := storedParts_ne_of_later hscheme hi hpre
        rw [storedParts_found hscheme hi] at hfalse ⊢
        exact ⟨_, rfl, fun heq => absurd (congrArg Except.ok heq) hfalse, nofun⟩
      | none =>
        have hiff := storedParts_opaqueUri_iff hscheme hi
        rw [storedParts_opaqueUri hscheme hi] at hiff ⊢
        refine ⟨_, rfl, ?_⟩
        rw [Except.ok.injEq] at hiff
        rw [hiff]
        simp

/-- `http://h/p?q#f` -/
theorem storedParts_http :
    IsReference (ascii "http://h/p?q#f") ∧ Plain (ascii "http://h/p?q#f") ∧
      ∃ p, storedParts (ascii "http://h/p?q#f") = .ok p ∧
        (∀ u, fromString (ascii "http://h/p?q#f") = .ok u → u.parts = p) ∧
        (p = genericParts (ascii "http://h/p?q#f") ↔ Plain (ascii "http://h/p?q#f")) := by
  have href : IsReference (ascii "http://h/p?q#f") :=
    .inr ⟨ascii "http", ascii "//h/p?q#f", ⟨⟨104, rfl, rfl⟩, List.all_eq_true.mp rfl⟩, rfl⟩
  exact ⟨href, by decide, storedParts_eq_genericParts_iff href⟩

/-- Of `/p#a#b` only `a` is stored as the fragment. -/
theorem not_storedParts_eq_genericParts :
    IsReference (ascii "/p#a#b") ∧
      (fromString (ascii "/p#a#b")).map Url.parts = .ok ⟨[], [], ascii "/p", [], ascii "a"⟩ ∧
      genericParts (ascii "/p#a#b") = ⟨[], [], ascii "/p", [], ascii "a#b"⟩ :=
  ⟨.inl rfl, by decide, by decide⟩

end Avant.Utility
