import Avant.Xml.Document

/-!
# Writing and parsing XML

What the parser makes of the text that `to_string` writes. `decode_escape`: decoding undoes the
escaping of any byte string, also of one that looks like a reference, since every `&` is escaped.
The parts of an element are then read one by one from the text behind the cursor, and
`element_takes` goes over the tree. White space is not escaped, and the parser skips it in front of
a text: what is read is the tree `stripped` of it.

* `parse_tree`: a tree of at most 128 levels whose names and keys the parser accepts is written
  and parsed as itself.
-/

namespace Avant.Xml

open Avant.Lib Avant.Lib.Cursor Element

/-! ## Escaping -/

/-- What is written for a byte: the byte or an entity, which stands for it. -/
theorem escapeChar_cases (quote : Bool) (c : UInt8) :
    (escapeChar quote c = [c] ∧ c ≠ 0x26 ∧ c ≠ 0x3C ∧ (quote = true → c ≠ 0x22)) ∨
      (escapeChar quote c, [c]) ∈ entities := by
  unfold escapeChar
  split
  · next h => subst h; exact .inr (by decide)
  · next hamp =>
    split
    · next h => subst h; exact .inr (by decide)
    · next hlt =>
      split
      · next h => subst h; exact .inr (by decide)
      · split
        · next h =>
          obtain ⟨-, rfl⟩ := h
          exact .inr (by decide)
        · next hquot => exact .inl ⟨rfl, hamp, hlt, fun hq hc => hquot ⟨hq, hc⟩⟩

/-- An entity is decoded, whatever stands behind it. -/
theorem decodeLoop_entity {e : Bytes × Bytes} (he : e ∈ entities) (rest : Bytes) :
    decodeLoop 0 (e.1 ++ rest) = e.2 ++ decodeLoop 0 rest := by
  simp only [entities, List.mem_cons, List.not_mem_nil, or_false] at he
  rcases he with rfl | rfl | rfl | rfl | rfl <;> rfl

/-- **Decoding undoes escaping.** -/
theorem decode_escape (quote : Bool) (s : Bytes) : decodeEntities (escape quote s) = s := by
  unfold decodeEntities
  induction s with
  | nil => rfl
  | cons c s ih =>
    rw [escape, List.flatMap_cons]
    change decodeLoop 0 (_ ++ escape quote s) = _
    rcases escapeChar_cases quote c with ⟨hc, hamp, -, -⟩ | he
    · rw [hc, List.singleton_append, decodeLoop, if_neg hamp, ih]
    · rw [decodeLoop_entity he, ih, List.singleton_append]

/-- No byte of an entity ends a text or a value. -/
theorem not_mem_entities : ∀ e ∈ entities, 0x3C ∉ e.1 ∧ 0x22 ∉ e.1 := by decide

theorem lt_not_mem_escape (quote : Bool) (s : Bytes) : 0x3C ∉ escape quote s := by
  intro hmem
  obtain ⟨c, -, hc⟩ := List.mem_flatMap.mp hmem
  rcases escapeChar_cases quote c with ⟨heq, -, hlt, -⟩ | he
  · rw [heq, List.mem_singleton] at hc
    exact hlt hc.symm
  · exact (not_mem_entities _ he).1 hc

theorem quote_not_mem_escape (s : Bytes) : 0x22 ∉ escape true s := by
  intro hmem
  obtain ⟨c, -, hc⟩ := List.mem_flatMap.mp hmem
  rcases escapeChar_cases true c with ⟨heq, -, -, hquot⟩ | he
  · rw [heq, List.mem_singleton] at hc
    exact hquot rfl hc.symm
  · exact (not_mem_entities _ he).2 hc

/-- A text that does not start with white space does not when it is escaped. -/
theorem head_escape {quote : Bool} {s : Bytes}
    (h : ∀ c, s.head? = some c → isWhite c = false) :
    ∀ c, (escape quote s).head? = some c → isWhite c = false := by
  have hentity : ∀ e ∈ entities, e.1.head?.any isWhite = false := by decide
  cases s with
  | nil => simp [escape]
  | cons d s =>
    intro c hc
    rw [escape, List.flatMap_cons] at hc
    rcases escapeChar_cases quote d with ⟨heq, -⟩ | he
    · rw [heq] at hc
      exact h c hc
    · have hne : escapeChar quote d ≠ [] := by
        intro hnil
        rw [hnil] at he
        exact absurd he (by simp [entities, ascii])
      have hwhite := hentity _ he
      rw [List.head?_append_of_ne_nil _ hne] at hc
      rwa [hc, Option.any_some] at hwhite

/-- Bytes of a kind that leaves out those with an entity are written as they are. -/
theorem escape_eq_self {p : UInt8 → Bool} (hp : [0x26, 0x3C, 0x3E, 0x22].any p = false) {bs : Bytes}
    (hbs : ∀ c ∈ bs, p c = true) (quote : Bool) : escape quote bs = bs := by
  have hchar : ∀ c ∈ bs, escapeChar quote c = [c] := by
    intro c hc
    have hne : ∀ d ∈ [0x26, 0x3C, 0x3E, 0x22], c ≠ d := by
      rintro d hd rfl
      exact List.any_eq_false.mp hp c hd (hbs c hc)
    simp only [List.forall_mem_cons] at hne
    simp [escapeChar, hne.1, hne.2.1, hne.2.2.1, hne.2.2.2.1]
  rw [escape, List.flatMap_congr hchar, List.flatMap_singleton']

theorem escape_white {ws : Bytes} (hws : ∀ c ∈ ws, isWhite c = true) (quote : Bool) :
    escape quote ws = ws :=
  escape_eq_self rfl hws quote

theorem takeWhile_white (text : Bytes) : ∀ c ∈ text.takeWhile isWhite, isWhite c = true :=
  fun _ hc => List.all_eq_true.mp List.all_takeWhile _ hc

theorem dropWhile_white (text : Bytes) :
    ∀ c, (text.dropWhile isWhite).head? = some c → isWhite c = false := by
  intro c hc
  have hnot := List.head?_dropWhile_not isWhite text
  rwa [hc] at hnot

/-- A text is written as the white space in front of it and the rest. -/
theorem escape_text (text : Bytes) :
    escape false text = text.takeWhile isWhite ++ escape false (text.dropWhile isWhite) := by
  conv_lhs => rw [← List.takeWhile_append_dropWhile (p := isWhite) (l := text)]
  rw [escape, List.flatMap_append]
  exact congrArg (· ++ _) (escape_white (takeWhile_white text) false)

/-! ## Names -/

variable {c : UInt8} {name : Bytes}

theorem isNameStart_char (h : isNameStart c = true) : isNameChar c = true := by
  simp only [isNameStart, isNameChar, isAlnum, Bool.or_eq_true, decide_eq_true_eq] at h ⊢
  tauto

/-- The bytes that the parser looks for between names are not those of names. -/
theorem ne_of_isNameChar {d : UInt8} (hc : isNameChar c = true) (hd : isNameChar d = false) :
    c ≠ d := by
  rintro rfl
  exact absurd (hc.symm.trans hd) (by decide)

theorem isWhite_of_isNameChar (hc : isNameChar c = true) : isWhite c = false := by
  simp only [isWhite, Bool.or_eq_false_iff, decide_eq_false_iff_not]
  exact ⟨⟨⟨ne_of_isNameChar hc rfl, ne_of_isNameChar hc rfl⟩, ne_of_isNameChar hc rfl⟩,
    ne_of_isNameChar hc rfl⟩

theorem IsName.chars (h : IsName name) : ∀ c ∈ name, isNameChar c = true := by
  obtain ⟨c, cs, rfl, hc, hcs⟩ := h
  exact List.forall_mem_cons.mpr ⟨isNameStart_char hc, hcs⟩

/-- A name is not escaped. -/
theorem IsName.escape (h : IsName name) : Element.escape true name = name :=
  escape_eq_self rfl h.chars true

/-! ## The parts of a document -/

variable {s t : Bytes} {i : Nat}

variable {turns : Nat} {text : Bytes} {seen : List Bytes} {closed : Bool} {attrs : Attrs}
  {e : Element} {es : List Element}

theorem skipLoop_takes {ws : Bytes} (h : s.drop i = ws ++ t) (hw : ∀ c ∈ ws, isWhite c = true)
    (ht : ∀ c, t.head? = some c → isWhite c = false) (hturns : ws.length < turns) :
    (skipLoop turns).Takes s i () (i + ws.length) := by
  induction ws generalizing i turns with
  | nil =>
    obtain ⟨turns, rfl⟩ := Nat.exists_eq_add_one.mpr hturns
    exact (Takes.nextIs_false h ht).bind .pure
  | cons c ws ih =>
    obtain ⟨turns, rfl⟩ := Nat.exists_eq_add_one.mpr (Nat.zero_lt_of_lt hturns)
    obtain ⟨hc, hws⟩ := List.forall_mem_cons.mp hw
    refine (Takes.nextIs_head h hc).bind (Takes.idx.bind ((Takes.moveTo (i + 1)).bind ?_))
    have hrest := ih (drop_succ h) hws (Nat.lt_of_succ_lt_succ hturns)
    rwa [Nat.add_assoc, Nat.add_comm 1] at hrest

theorem skipWhiteSpaces_takes (ws : Bytes) (h : s.drop i = ws ++ t)
    (hw : ∀ c ∈ ws, isWhite c = true) (ht : ∀ c, t.head? = some c → isWhite c = false) :
    skipWhiteSpaces.Takes s i () (i + ws.length) := by
  refine Takes.size.bind (skipLoop_takes h hw ht ?_)
  have hlen := congrArg List.length h
  rw [List.length_drop, List.length_append] at hlen
  omega

theorem head_eq_false {q : UInt8 → Bool} (hc : q c = false) (d : UInt8)
    (hd : (c :: t).head? = some d) : q d = false := by
  cases hd
  exact hc

/-- Nothing is skipped. -/
theorem skip_stays (h : s.drop i = c :: t) (hc : isWhite c = false) :
    skipWhiteSpaces.Takes s i () i :=
  skipWhiteSpaces_takes [] h (List.forall_mem_nil _) (head_eq_false hc)

theorem nameLoop_takes {cs : Bytes} (res : Bytes) (h : s.drop i = cs ++ t)
    (hcs : ∀ c ∈ cs, isNameChar c = true) (ht : ∀ c, t.head? = some c → isNameChar c = false)
    (hturns : cs.length < turns) : (nameLoop turns res).Takes s i (res ++ cs) (i + cs.length) := by
  induction cs generalizing i turns res with
  | nil =>
    obtain ⟨turns, rfl⟩ := Nat.exists_eq_add_one.mpr hturns
    rw [List.append_nil]
    exact (Takes.nextIs_false h ht).bind .pure
  | cons c cs ih =>
    obtain ⟨turns, rfl⟩ := Nat.exists_eq_add_one.mpr (Nat.zero_lt_of_lt hturns)
    obtain ⟨hc, hcs'⟩ := List.forall_mem_cons.mp hcs
    refine (Takes.nextIs_head h hc).bind (Takes.idx.bind ((Takes.byteAt h).bind ?_))
    refine (Takes.moveTo (i + 1)).bind ?_
    have hrest := ih (res ++ [c]) (drop_succ h) hcs' (Nat.lt_of_succ_lt_succ hturns)
    rwa [List.append_assoc, List.singleton_append, Nat.add_assoc, Nat.add_comm 1] at hrest

/-- A name is read up to a byte that does not belong to names. -/
theorem parseElementName_takes (hname : IsName name) (h : s.drop i = name ++ t)
    (ht : ∀ c, t.head? = some c → isNameChar c = false) :
    parseElementName.Takes s i name (i + name.length) := by
  obtain ⟨c, cs, rfl, hc, hcs⟩ := hname
  have hlen := congrArg List.length h
  rw [List.length_drop, List.length_append, List.length_cons] at hlen
  refine Takes.idx.bind ((Takes.byteAt h).bind ((Takes.moveTo (i + 1)).bind (Takes.size.bind ?_)))
  have hturns : cs.length < s.length + 1 := by omega
  have hrest := nameLoop_takes [c] (drop_succ h) hcs ht hturns
  rwa [Nat.add_assoc, Nat.add_comm 1] at hrest

/-- A text is read from behind the white space up to the next tag. -/
theorem parseElementText_takes (owner ws : Bytes) (h : s.drop i = ws ++ (text ++ 0x3C :: t))
    (hws : ∀ c ∈ ws, isWhite c = true) (hlt : 0x3C ∉ text)
    (hw : ∀ c, text.head? = some c → isWhite c = false) :
    (parseElementText owner).Takes s i text (i + ws.length + text.length) := by
  have hhead : ∀ c, (text ++ 0x3C :: t).head? = some c → isWhite c = false := by
    cases text with
    | nil => exact head_eq_false rfl
    | cons d text => exact hw
  have hle : i + ws.length ≤ s.length := by
    have hlen := congrArg List.length h
    simp only [List.length_drop, List.length_append, List.length_cons] at hlen
    omega
  have htext := drop_add h
  refine (skipWhiteSpaces_takes ws h hws hhead).bind (Takes.idx.bind ?_)
  refine (Takes.findFrom htext hlt).bind ?_
  refine Takes.bind (a := text) (j := i + ws.length) ?_ ((Takes.moveTo _).bind .pure)
  rw [Nat.add_sub_cancel_left]
  exact Takes.substr htext hle

/-- A value in quotation marks. -/
theorem parseElementAttrVal_takes {val : Bytes} (h : s.drop i = 0x22 :: (val ++ 0x22 :: t))
    (hq : 0x22 ∉ val) : parseElementAttrVal.Takes s i val (i + val.length + 2) := by
  have hnext := drop_succ h
  have hlt := lt_of_drop h
  refine (skip_stays h rfl).bind ((Takes.nextIs_head h rfl).bind ?_)
  refine (Takes.throwIf _).bind (Takes.idx.bind ((Takes.byteAt h).bind ?_))
  refine (Takes.findFrom hnext hq).bind ?_
  refine Takes.bind (a := val) (j := i) ?_ ((Takes.moveTo _).bind ?_)
  · have hsub : i + 1 + val.length - i - 1 = val.length := by omega
    rw [hsub]
    exact Takes.substr hnext hlt
  · have hend : i + 1 + val.length + 1 = i + val.length + 2 := by omega
    rw [hend]
    exact .pure

/-! ## Attributes -/

/-- A key with its value. -/
theorem parseAttr_takes (name : Bytes) {key val : Bytes} (hkey : IsName key) (hseen : key ∉ seen)
    (h : s.drop i = key ++ 0x3D :: 0x22 :: (escape true val ++ 0x22 :: t)) :
    (parseAttr name seen).Takes s i (key, val) (i + key.length + (escape true val).length + 3) := by
  have hequals := drop_add h
  have hquote := drop_succ hequals
  obtain ⟨c, cs, hk, hc, -⟩ := id hkey
  have hstart : s.drop i = c :: (cs ++ 0x3D :: 0x22 :: (escape true val ++ 0x22 :: t)) := by
    rw [h, hk]
    rfl
  have hread : parseElementAttrKey.Takes s i key (i + key.length) := by
    have hwhite := isWhite_of_isNameChar (isNameStart_char hc)
    refine (skip_stays hstart hwhite).bind ((Takes.nextIs_head hstart hc).bind ?_)
    exact parseElementName_takes hkey h (head_eq_false rfl)
  have hval := parseElementAttrVal_takes hquote (quote_not_mem_escape val)
  refine hread.bind ?_
  rw [show key.isEmpty = false by rw [hk]; rfl]
  refine (Takes.throwIf _).bind ((skip_stays hequals rfl).bind ?_)
  refine (Takes.nextIs_head hequals rfl).bind ((Takes.throwIf _).bind (Takes.idx.bind ?_))
  refine (Takes.moveTo _).bind ?_
  rw [show seen.contains key = false by simpa using hseen]
  refine (Takes.throwIf _).bind (hval.bind ?_)
  rw [decode_escape]
  have hend : i + key.length + 1 + (escape true val).length + 2 =
      i + key.length + (escape true val).length + 3 := by omega
  rw [hend]
  exact .pure

theorem Attrs.ext {a b : Attrs} (h : a.entries = b.entries) : a = b := by
  cases a
  cases b
  simp only at h
  subst h
  rfl

/-- An attribute as it is written. -/
theorem attrText_eq {e : Bytes × Bytes} (h : IsName e.1) (t : Bytes) :
    attrText e ++ t = 0x20 :: (e.1 ++ 0x3D :: 0x22 :: (escape true e.2 ++ 0x22 :: t)) := by
  rw [attrText, h.escape]
  simp only [List.append_assoc]
  rfl

theorem length_attrText {e : Bytes × Bytes} (h : IsName e.1) :
    (attrText e).length = 1 + e.1.length + (escape true e.2).length + 3 := by
  have hlen := congrArg List.length (attrText_eq h [])
  simp only [List.length_append, List.length_cons, List.length_nil] at hlen
  omega

/-- A blank in front of what is not white. -/
theorem skip_blank (h : s.drop i = 0x20 :: c :: t) (hc : isWhite c = false) :
    skipWhiteSpaces.Takes s i () (i + 1) :=
  skipWhiteSpaces_takes [0x20] h (List.all_eq_true.mp rfl) (head_eq_false hc)

/-- The end of a start tag: `close` is what stands there, and `closed` says whether the element
ends with it. -/
theorem attrLoop_close (attrs : Attrs) {close : Bytes}
    (hclose : close = [0x3E] ∧ closed = false ∨ close = [0x20, 0x2F, 0x3E] ∧ closed = true)
    (h : s.drop i = close ++ t) (turns : Nat) :
    (attrLoop name (turns + 1) seen attrs).Takes s i (attrs, closed) (i + close.length) := by
  rcases hclose with ⟨rfl, rfl⟩ | ⟨rfl, rfl⟩
  · refine (skip_stays h rfl).bind ((Takes.atEnd h).bind ((Takes.throwIf _).bind ?_))
    exact Takes.idx.bind ((Takes.byteAt h).bind ((Takes.moveTo _).bind .pure))
  · have hslash : s.drop (i + 1) = 0x2F :: 0x3E :: t := drop_succ h
    refine (skip_blank h rfl).bind ((Takes.atEnd hslash).bind ((Takes.throwIf _).bind ?_))
    refine Takes.idx.bind ((Takes.byteAt hslash).bind ?_)
    refine (Takes.nextIs_one hslash).bind ((Takes.throwIf _).bind ((Takes.moveTo _).bind ?_))
    exact .pure

/-- The attributes that are left, `m`, and the end of the start tag. -/
theorem attrLoop_takes {m : List (Bytes × Bytes)} (acc attrs : Attrs)
    (hattrs : attrs.entries = acc.entries ++ m) (hkeys : ∀ e ∈ m, IsName e.1)
    (hseen : ∀ k ∈ seen, ∃ e ∈ acc.entries, e.1 = k) {close : Bytes}
    (hclose : close = [0x3E] ∧ closed = false ∨ close = [0x20, 0x2F, 0x3E] ∧ closed = true)
    (h : s.drop i = m.flatMap attrText ++ (close ++ t)) (hturns : m.length < turns) :
    (attrLoop name turns seen acc).Takes s i (attrs, closed)
      (i + ((m.flatMap attrText).length + close.length)) := by
  induction m generalizing acc seen i turns with
  | nil =>
    obtain ⟨turns, rfl⟩ := Nat.exists_eq_add_one.mpr hturns
    obtain rfl : attrs = acc := Attrs.ext (by rw [hattrs, List.append_nil])
    rw [List.flatMap_nil, List.length_nil, Nat.zero_add]
    exact attrLoop_close attrs hclose h turns
  | cons e m ih =>
    obtain ⟨turns, rfl⟩ := Nat.exists_eq_add_one.mpr (Nat.zero_lt_of_lt hturns)
    obtain ⟨hkey, hkeys'⟩ := List.forall_mem_cons.mp hkeys
    obtain ⟨c, cs, hk, hc, -⟩ := id hkey
    have hchar := isNameStart_char hc
    -- the keys read so far are less than this one
    have hless : ∀ a ∈ acc.entries, a.1 < e.1 := by
      intro a ha
      have hsorted := attrs.sorted
      rw [hattrs] at hsorted
      exact (List.pairwise_append.mp hsorted).2.2 a ha e (.head m)
    have hfresh : e.1 ∉ seen := by
      intro hmem
      obtain ⟨a, ha, hak⟩ := hseen _ hmem
      exact List.lt_irrefl _ (hak ▸ hless a ha)
    have hstore : (acc.attrStore e.1 e.2).entries = acc.entries ++ [e] := assign_append hless
    rw [List.flatMap_cons, List.append_assoc, attrText_eq hkey] at h
    have hnext : s.drop (i + 1) =
        e.1 ++ 0x3D :: 0x22 :: (escape true e.2 ++ 0x22 :: (m.flatMap attrText ++ (close ++ t))) :=
      drop_succ h
    have hhead := hnext
    rw [hk, List.cons_append] at hhead
    have hattr := parseAttr_takes name hkey hfresh hnext
    have hlen := length_attrText hkey
    have hrest : s.drop (i + (attrText e).length) = m.flatMap attrText ++ (close ++ t) := by
      refine drop_add (u := attrText e) ?_
      rw [h, attrText_eq hkey]
    have hpos : i + 1 + e.1.length + (escape true e.2).length + 3 = i + (attrText e).length := by
      omega
    rw [hpos] at hattr
    have hseen' : ∀ k ∈ e.1 :: seen, ∃ a ∈ (acc.attrStore e.1 e.2).entries, a.1 = k := by
      intro k hk'
      rw [hstore]
      rcases List.mem_cons.mp hk' with rfl | hk'
      · exact ⟨e, by simp, rfl⟩
      · obtain ⟨a, ha, hak⟩ := hseen k hk'
        exact ⟨a, List.mem_append_left _ ha, hak⟩
    have hloop := ih (acc.attrStore e.1 e.2) (by rw [hattrs, hstore, List.append_assoc]; rfl) hkeys'
      hseen' hrest (Nat.lt_of_succ_lt_succ hturns)
    rw [hk, List.cons_append] at h
    refine (skip_blank h (isWhite_of_isNameChar hchar)).bind ((Takes.atEnd hhead).bind ?_)
    refine (Takes.throwIf _).bind (Takes.idx.bind ((Takes.byteAt hhead).bind ?_))
    rw [if_neg (ne_of_isNameChar hchar rfl), if_neg (ne_of_isNameChar hchar rfl)]
    refine hattr.bind ?_
    rwa [List.flatMap_cons, List.length_append, Nat.add_assoc, ← Nat.add_assoc i]

/-! ## Elements -/

/-- An end tag. -/
theorem parseEndTag_takes {elem : Element}
    (h : s.drop i = 0x3C :: 0x2F :: (elem.name ++ 0x3E :: t)) :
    (parseEndTag elem).Takes s i elem (i + (elem.name.length + 3)) := by
  have htag : ascii "</" ++ elem.name ++ ascii ">" = 0x3C :: 0x2F :: (elem.name ++ [0x3E]) := rfl
  have hlen : (0x3C :: 0x2F :: (elem.name ++ [0x3E])).length = elem.name.length + 3 := by simp
  have hsplit : s.drop i = 0x3C :: 0x2F :: (elem.name ++ [0x3E]) ++ t := by
    rw [h]
    simp
  have hle := lt_of_drop h
  have hroom := congrArg List.length hsplit
  rw [List.length_drop, List.length_append, hlen] at hroom
  unfold parseEndTag
  simp only [htag]
  refine Takes.idx.bind (Takes.size.bind ?_)
  rw [hlen, decide_eq_false (by omega)]
  refine (Takes.throwIf _).bind ((Takes.compareAt _ _ hle.le).bind ?_)
  rw [hsplit, ← hlen, List.take_left, decide_eq_true rfl]
  exact (Takes.throwIf _).bind ((Takes.moveTo _).bind .pure)

/-- What is written behind the attributes. -/
def closing (name text : Bytes) (children : List Element) : Bytes :=
  if children = [] ∧ text = [] then [0x20, 0x2F, 0x3E]
  else 0x3E :: (escape false text ++
    (childrenText children ++ 0x3C :: 0x2F :: (name ++ [0x3E])))

/-- An element as it is written. -/
theorem toString_mk {children : List Element} (h : IsName name) :
    (Element.mk name text attrs children).toString =
      0x3C :: (name ++ (attrs.entries.flatMap attrText ++ closing name text children)) := by
  have hne : name ≠ [] := by
    obtain ⟨c, cs, rfl, -⟩ := h
    exact List.cons_ne_nil c cs
  unfold Element.toString closing
  rw [if_neg hne, h.escape]
  split
  · simp only [List.append_assoc]
    rfl
  · simp only [List.append_assoc]
    rfl

theorem toString_start (h : Named e) :
    ∃ c u, e.toString = 0x3C :: c :: u ∧ isNameStart c = true := by
  cases h with
  | mk hname hkeys hchildren =>
    rw [toString_mk hname]
    obtain ⟨c, cs, rfl, hc, -⟩ := hname
    exact ⟨c, _, rfl, hc⟩

/-- The byte behind a `<`. -/
theorem opens_takes (p : UInt8 → Bool) (h : s.drop i = 0x3C :: c :: t) :
    (opens p).Takes s i (p c) i := by
  have hlen := congrArg List.length h
  rw [List.length_drop, List.length_cons, List.length_cons] at hlen
  have hget : (Cursor.byteAt (i + 1)).Takes s i c i := by
    have hsome : s[i + 1]? = some c := by
      rw [← List.getElem?_drop, h]
      rfl
    simp only [Takes, Cursor.byteAt, hsome, Option.getD_some]
  refine Takes.idx.bind (Takes.size.bind ?_)
  rw [if_pos (by omega)]
  exact (Takes.byteAt h).bind (hget.bind .pure)

/-- What starts with `<` and a name is not the start of something else. -/
theorem compareAt_mismatch {d : UInt8} (h : s.drop i = 0x3C :: c :: t) (hc : c ≠ d) (n : Nat)
    (pat : Bytes) : (compareAt i (n + 2) (0x3C :: d :: pat)).Takes s i false i := by
  have hcompare := Takes.compareAt (n + 2) (0x3C :: d :: pat) (lt_of_drop h).le
  rwa [h, List.take_succ_cons, List.take_succ_cons, decide_eq_false] at hcompare
  intro heq
  exact hc (List.cons.inj (List.cons.inj heq).2).1

/-- Behind a text there is the first child or the end tag. -/
theorem childrenText_start (h : ∀ e ∈ es, Named e) (u : Bytes) :
    ∃ v, childrenText es ++ 0x3C :: u = 0x3C :: v := by
  cases es with
  | nil => exact ⟨u, rfl⟩
  | cons e es =>
    obtain ⟨c, w, hstart, -⟩ := toString_start (h e (.head es))
    rw [childrenText, hstart]
    exact ⟨_, rfl⟩

/-- The children that are left, `es`, and the end tag. -/
theorem childLoop_takes {child : Cursor Element} (hnamed : ∀ e ∈ es, Named e)
    (hchild : ∀ e ∈ es, ∀ i t, s.drop i = e.toString ++ t →
      child.Takes s i (stripped e) (i + e.toString.length))
    (done : List Element) (h : s.drop i = childrenText es ++ 0x3C :: 0x2F :: (name ++ 0x3E :: t))
    (hturns : es.length < turns) :
    (childLoop child turns (.mk name text attrs done)).Takes s i
      (.mk name text attrs (done ++ strippedAll es))
      (i + ((childrenText es).length + (name.length + 3))) := by
  induction es generalizing i turns done with
  | nil =>
    obtain ⟨turns, rfl⟩ := Nat.exists_eq_add_one.mpr hturns
    have h' : s.drop i = 0x3C :: 0x2F :: (name ++ 0x3E :: t) := h
    rw [strippedAll, List.append_nil, childrenText, List.length_nil, Nat.zero_add]
    refine (skip_stays h' rfl).bind ((Takes.atEnd h').bind ((Takes.throwIf _).bind ?_))
    refine Takes.idx.bind ((Takes.byteAt h').bind ((Takes.throwIf _).bind ?_))
    exact (Takes.nextIs_one h').bind (parseEndTag_takes h')
  | cons e es ih =>
    obtain ⟨turns, rfl⟩ := Nat.exists_eq_add_one.mpr (Nat.zero_lt_of_lt hturns)
    obtain ⟨he, hes⟩ := List.forall_mem_cons.mp hnamed
    obtain ⟨hece, hces⟩ := List.forall_mem_cons.mp hchild
    obtain ⟨c, u, hstart, hc⟩ := toString_start he
    have hchar := isNameStart_char hc
    rw [childrenText, List.append_assoc] at h
    have hread := hece i _ h
    have hbehind := drop_add h
    have hloop := ih hes hces (done ++ [stripped e]) hbehind (Nat.lt_of_succ_lt_succ hturns)
    obtain ⟨v, hv⟩ := childrenText_start hes (0x2F :: (name ++ 0x3E :: t))
    rw [hv] at hbehind
    have htext : (parseElementText name).Takes s _ [] _ :=
      parseElementText_takes name [] hbehind (List.forall_mem_nil _) List.not_mem_nil (by simp)
    rw [hstart, List.cons_append, List.cons_append] at h
    refine (skip_stays h rfl).bind ((Takes.atEnd h).bind ((Takes.throwIf _).bind ?_))
    refine Takes.idx.bind ((Takes.byteAt h).bind ((Takes.throwIf _).bind ?_))
    refine (Takes.nextIs_one h).bind ?_
    rw [decide_eq_false (ne_of_isNameChar hchar rfl)]
    have hbang : c ≠ 0x21 := ne_of_isNameChar hchar rfl
    refine Takes.bind (a := false) (compareAt_mismatch h hbang 2 (ascii "--")) ?_
    refine Takes.bind (a := false) (compareAt_mismatch h hbang 7 (ascii "[CDATA[")) ?_
    refine (Takes.throwIf _).bind ((opens_takes isNameStart h).bind ?_)
    rw [hc]
    refine (Takes.throwIf _).bind ?_
    refine Takes.bind (hread.bind (htext.bind ((Takes.throwIf _).bind .pure))) ?_
    have hend : i + ((childrenText (e :: es)).length + (name.length + 3)) =
        i + e.toString.length + ((childrenText es).length + (name.length + 3)) := by
      rw [childrenText, List.length_append]
      omega
    rw [strippedAll, List.append_cons, hend]
    exact hloop

theorem levels_le_of_mem (h : e ∈ es) : levels e ≤ levelsBelow es := by
  induction es with
  | nil => cases h
  | cons a es ih =>
    rw [levelsBelow]
    rcases List.mem_cons.mp h with rfl | h
    · exact le_max_left _ _
    · exact (ih h).trans (le_max_right _ _)

theorem childrenText_eq (es : List Element) : childrenText es = es.flatMap toString := by
  induction es with
  | nil => rfl
  | cons e es ih => rw [childrenText, ih, List.flatMap_cons]

/-- Every child is written with at least one byte. -/
theorem length_le_childrenText (h : ∀ e ∈ es, Named e) : es.length ≤ (childrenText es).length := by
  rw [childrenText_eq, ← Nat.one_mul es.length]
  refine mul_length_le_flatMap fun e he => ?_
  obtain ⟨c, u, hstart, -⟩ := toString_start (h e he)
  rw [hstart, List.length_cons]
  omega

/-- The name of an element and its attributes. -/
theorem startTag_takes (hname : IsName name) (hkeys : KeysNamed attrs) (close : Bytes)
    (hclose : close = [0x3E] ∧ closed = false ∨ close = [0x20, 0x2F, 0x3E] ∧ closed = true)
    (h : s.drop i = name ++ (attrs.entries.flatMap attrText ++ (close ++ t))) :
    parseElementName.Takes s i name (i + name.length) ∧
    (attrLoop name (s.length + 1) [] .empty).Takes s (i + name.length) (attrs, closed)
      (i + name.length + ((attrs.entries.flatMap attrText).length + close.length)) := by
  have hlen := congrArg List.length h
  rw [List.length_drop, List.length_append, List.length_append] at hlen
  have hcount : 1 * attrs.entries.length ≤ (attrs.entries.flatMap attrText).length :=
    mul_length_le_flatMap fun e _ => by simp [attrText, ascii]
  constructor
  · refine parseElementName_takes hname h fun c hc => ?_
    -- a blank, or the end of the tag
    have hblank : c = 0x20 ∨ c = 0x3E := by
      cases hm : attrs.entries with
      | nil =>
        rw [hm] at hc
        rcases hclose with ⟨rfl, -⟩ | ⟨rfl, -⟩
        · exact .inr (Option.some.inj hc).symm
        · exact .inl (Option.some.inj hc).symm
      | cons e m =>
        rw [hm] at hc
        exact .inl (Option.some.inj hc).symm
    rcases hblank with rfl | rfl <;> rfl
  · refine attrLoop_takes (m := attrs.entries) .empty attrs rfl hkeys (by simp) hclose
      (drop_add h) ?_
    omega

/-- **An element is read as it was written**, without the white space in front of the texts. -/
theorem element_takes (h : Named e) {left : Nat} (hleft : e.levels ≤ left)
    (hs : s.drop i = e.toString ++ t) :
    (parseElement left).Takes s i (stripped e) (i + e.toString.length) := by
  induction h generalizing left i t with
  | @mk name text attrs children hname hkeys hchildren ih =>
    rw [levels] at hleft
    obtain ⟨left, rfl⟩ : ∃ n, left = n + 1 := Nat.exists_eq_succ_of_ne_zero (by omega)
    rw [toString_mk hname] at hs ⊢
    rw [List.cons_append, List.append_assoc, List.append_assoc] at hs
    have hopen := drop_succ hs
    unfold parseElement
    refine Takes.idx.bind ((Takes.moveTo _).bind ?_)
    by_cases hempty : children = [] ∧ text = []
    · obtain ⟨rfl, rfl⟩ := hempty
      obtain ⟨hread, hattrs⟩ := startTag_takes hname hkeys _ (.inr ⟨rfl, rfl⟩) hopen
      refine hread.bind (Takes.size.bind (hattrs.bind ?_))
      have hend : i + 1 + name.length + ((attrs.entries.flatMap attrText).length + 3) =
          i + (0x3C :: (name ++
            (attrs.entries.flatMap attrText ++ closing name [] []))).length := by
        simp [closing]
        omega
      exact hend ▸ .pure
    · rw [closing, if_neg hempty] at hopen ⊢
      simp only [List.cons_append, List.append_assoc, List.nil_append] at hopen
      obtain ⟨hread, hattrs⟩ := startTag_takes hname hkeys [0x3E] (.inl ⟨rfl, rfl⟩) hopen
      refine hread.bind (Takes.size.bind (hattrs.bind ?_))
      have hbody := drop_add (u := [0x3E]) (drop_add (drop_add hopen))
      rw [Nat.add_assoc (i + 1 + name.length)] at hbody
      generalize hp : i + 1 + name.length + ((attrs.entries.flatMap attrText).length + _) = p
        at hbody ⊢
      have hchildrenAt := drop_add hbody
      have hlen := congrArg List.length hchildrenAt
      have hcount := length_le_childrenText hchildren
      rw [List.length_drop, List.length_append] at hlen
      obtain ⟨v, hv⟩ := childrenText_start hchildren (0x2F :: (name ++ 0x3E :: t))
      rw [hv] at hbody
      change s.drop p = escape false text ++ 0x3C :: v at hbody
      rw [escape_text, List.append_assoc] at hbody
      have hread := parseElementText_takes name _ hbody (takeWhile_white text)
        (lt_not_mem_escape false _) (head_escape (dropWhile_white text))
      rw [Nat.add_assoc, ← List.length_append, ← escape_text] at hread
      refine hread.bind ?_
      rw [decode_escape]
      have hturns : children.length < s.length + 1 := by omega
      have hchild : ∀ e ∈ children, e.levels ≤ left := fun e he =>
        (levels_le_of_mem he).trans (by omega)
      have hloop : (childLoop (parseElement left) _
          (.mk name (text.dropWhile isWhite) attrs [])).Takes s _ _ _ :=
        childLoop_takes hchildren (fun e he i t hs => ih e he (hchild e he) hs) []
          hchildrenAt hturns
      have hend : p + (escape false text).length +
          ((childrenText children).length + (name.length + 3)) =
          i + (0x3C :: (name ++ (attrs.entries.flatMap attrText ++ 0x3E :: (escape false text ++
            (childrenText children ++ 0x3C :: 0x2F :: (name ++ [0x3E])))))).length := by
        simp only [List.length_append, List.length_cons, List.length_nil] at hp ⊢
        omega
      rwa [List.nil_append, hend] at hloop

/-! ## Documents -/

/-- In front of a root element nothing is skipped. -/
theorem skipBom_stays (h : s.drop 0 = 0x3C :: t) : skipBom.Takes s 0 () 0 := by
  refine Takes.size.bind ?_
  split
  · refine (Takes.byteAt h).bind (Takes.bind rfl (Takes.bind rfl ?_))
    exact .pure
  · exact .pure

theorem skipDeclaration_stays (h : s.drop i = 0x3C :: c :: t) (hc : c ≠ 0x3F) :
    skipDeclaration.Takes s i () i :=
  Takes.idx.bind (Takes.bind (compareAt_mismatch h hc 3 (ascii "xml")) .pure)

theorem prologLoop_stays (h : s.drop i = 0x3C :: c :: t) (hbang : c ≠ 0x21) (hquestion : c ≠ 0x3F)
    (turns : Nat) : (prologLoop (turns + 1)).Takes s i () i := by
  refine Takes.idx.bind (Takes.bind (compareAt_mismatch h hbang 2 (ascii "--")) ?_)
  refine (opens_takes _ h).bind ?_
  rw [decide_eq_false hquestion]
  exact .pure

theorem epilogLoop_end (h : s.length ≤ i) (turns : Nat) :
    (epilogLoop (turns + 1)).Takes s i () i := by
  refine (skipWhiteSpaces_takes [] (List.drop_eq_nil_of_le h) (by simp) (by simp)).bind ?_
  exact (Takes.atEnd_of_le h).bind .pure

/-- **A tree is written and parsed** without the white space in front of its texts. -/
theorem parse_written {e : Element} (h : Named e) (hlevels : e.levels ≤ 128) :
    parse e.toString = .ok (stripped e) := by
  obtain ⟨c, u, hstart, hc⟩ := toString_start h
  have hchar := isNameStart_char hc
  have hs : e.toString.drop 0 = 0x3C :: c :: u := by rw [List.drop_zero, hstart]
  have hroot : (parseElement maxDepth).Takes e.toString 0 (stripped e) e.toString.length := by
    have hdrop : e.toString.drop 0 = e.toString ++ [] := by simp
    have hread : (parseElement maxDepth).Takes _ _ _ _ := element_takes h hlevels hdrop
    rwa [Nat.zero_add] at hread
  have hparse : parseDocument.Takes e.toString 0 (stripped e) e.toString.length := by
    refine (skipBom_stays hs).bind ((skip_stays hs rfl).bind ?_)
    refine (Takes.atEnd hs).bind ((Takes.throwIf _).bind ?_)
    have hquestion : c ≠ 0x3F := ne_of_isNameChar hchar rfl
    refine (skipDeclaration_stays hs hquestion).bind (Takes.size.bind ?_)
    refine (prologLoop_stays hs (ne_of_isNameChar hchar rfl) hquestion _).bind ?_
    refine (Takes.atEnd hs).bind ((Takes.throwIf _).bind ((opens_takes isNameStart hs).bind ?_))
    rw [hc]
    refine (Takes.throwIf _).bind (hroot.bind ((epilogLoop_end (le_refl _) _).bind .pure))
  rw [parse, hparse]
  rfl

/-! ## Trees without white space in front of their texts -/

theorem dropWhile_eq_self :
    text.dropWhile isWhite = text ↔ ∀ c, text.head? = some c → isWhite c = false := by
  constructor
  · intro h c hc
    exact dropWhile_white text c (h.symm ▸ hc)
  · intro h
    cases text with
    | nil => rfl
    | cons c text => rw [List.dropWhile_cons_of_neg (by simp [h c rfl])]

theorem strippedAll_eq_map (es : List Element) : strippedAll es = es.map stripped := by
  induction es with
  | nil => rfl
  | cons e es ih => rw [strippedAll, ih, List.map_cons]

theorem Trimmed.stripped (h : Trimmed e) : e.stripped = e := by
  induction h with
  | mk htext hchildren ih =>
    rw [Element.stripped, dropWhile_eq_self.mpr htext, strippedAll_eq_map, List.map_congr_left ih,
      List.map_id']

theorem Accepted.named (h : Accepted e) : Named e := by
  induction h with
  | mk hname hkeys htext hchildren ih => exact .mk hname hkeys ih

theorem Accepted.trimmed (h : Accepted e) : Trimmed e := by
  induction h with
  | mk hname hkeys htext hchildren ih => exact .mk htext ih

/-- **A tree is written and parsed as itself**, if it has at most 128 levels, the parser accepts its
names and keys, and no text starts with white space. -/
theorem parse_tree {e : Element} (h : Accepted e) (hlevels : e.levels ≤ 128) :
    parse e.toString = .ok e := by
  rw [parse_written h.named hlevels, h.trimmed.stripped]

/-- An attribute value with every byte that is escaped, a text that looks like a reference, and a
child. -/
def sample : Element :=
  .mk (ascii "a") (ascii "&lt;") ⟨[(ascii "k", ascii "<&>\"'")], List.pairwise_singleton _ _⟩
    [.mk (ascii "b-1") [] .empty []]

theorem parse_tree_sample :
    Accepted sample ∧ sample.levels ≤ 128 ∧ parse sample.toString = .ok sample := by
  have hname : IsName (ascii "a") := ⟨0x61, [], rfl, rfl, by simp⟩
  have haccepted : Accepted sample := by
    refine .mk hname ?_ (fun c hc => ?_) ?_
    · intro e he
      obtain rfl := List.mem_singleton.mp he
      exact ⟨0x6B, [], rfl, rfl, by simp⟩
    · cases hc
      rfl
    · intro e he
      obtain rfl := List.mem_singleton.mp he
      have hchild : IsName (ascii "b-1") :=
        ⟨0x62, ascii "-1", rfl, rfl, List.all_eq_true.mp rfl⟩
      exact .mk hchild (by simp [Attrs.empty]) (by simp) (by simp)
  have hlevels : sample.levels ≤ 128 := by decide
  exact ⟨haccepted, hlevels, parse_tree haccepted hlevels⟩

end Avant.Xml
