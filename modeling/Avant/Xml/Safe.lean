import Avant.Lib.Forward
import Avant.Xml.Document

/-!
# The XML parser ends

What each part of the parser does on any input: it goes forward inside the text, returns or throws,
and what it returns is well formed (`Lib/Forward.lean`). Every turn of a loop takes at least one
byte, so a loop with more turns than bytes are left does not use them up.

* `parse_ends`: on every byte string the parser returns a tree of at most 128 levels or throws; its
  cursor does not go back and does not leave the text, and nothing is read or compared from behind
  the end on.
-/

namespace Avant.Xml

open Avant.Lib Avant.Lib.Cursor Element

variable {s : Bytes} {i : Nat}

/-! ## Names, texts and values -/

variable {turns : Nat}

theorem skipLoop_safe (hi : i ≤ s.length) (hturns : s.length - i < turns) :
    Safe (skipLoop turns) s i fun _ _ => True := by
  induction turns generalizing i with
  | zero => omega
  | succ turns ih =>
    refine .nextIs hi (.pure hi trivial) fun hlt _ => .idx (.moveTo (Nat.le_succ i) ?_)
    exact ih hlt (by omega)

theorem skipWhiteSpaces_safe (hi : i ≤ s.length) : Safe skipWhiteSpaces s i fun _ _ => True :=
  .size (skipLoop_safe hi (by omega))

theorem nameLoop_safe (res : Bytes) (hi : i ≤ s.length) (hturns : s.length - i < turns) :
    Safe (nameLoop turns res) s i fun name _ =>
      ∃ cs, name = res ++ cs ∧ ∀ c ∈ cs, isNameChar c = true := by
  induction turns generalizing i res with
  | zero => omega
  | succ turns ih =>
    refine .nextIs hi (.pure hi ⟨[], by simp⟩) fun hlt hc => ?_
    refine .idx (.byteAt hlt (.moveTo (Nat.le_succ i) ?_))
    refine (ih _ hlt (by omega)).mono ?_
    rintro name j - - ⟨cs, rfl, hcs⟩
    exact ⟨_ :: cs, by simp, List.forall_mem_cons.mpr ⟨hc, hcs⟩⟩

/-- A name, behind the first byte that the caller has looked at. -/
theorem parseElementName_safe (hi : i < s.length) (hstart : isNameStart (s[i]?.getD 0) = true) :
    Safe parseElementName s i fun name j => IsName name ∧ i < j := by
  refine .idx (.byteAt hi (.moveTo (Nat.le_succ i) (.size ?_)))
  refine (nameLoop_safe _ hi (by omega)).mono ?_
  rintro name j hij - ⟨cs, rfl, hcs⟩
  exact ⟨⟨_, cs, rfl, hstart, hcs⟩, hij⟩

theorem parseElementText_safe (owner : Bytes) (hi : i ≤ s.length) :
    Safe (parseElementText owner) s i fun _ _ => True := by
  refine (skipWhiteSpaces_safe hi).bind fun _ j _ hj _ => .idx (.findFrom hj (.throw _ hj) ?_)
  intro q hq hlen
  exact .substr hj (.moveTo hq (.pure (by omega) trivial))

theorem parseElementAttrKey_safe (hi : i ≤ s.length) :
    Safe parseElementAttrKey s i fun key j => key = [] ∨ IsName key ∧ i < j := by
  refine (skipWhiteSpaces_safe hi).bind fun _ j hij hj _ => ?_
  refine .nextIs hj (.pure hj (.inl rfl)) fun hlt hstart => ?_
  exact (parseElementName_safe hlt hstart).mono fun key k _ _ h => .inr ⟨h.1, by omega⟩

theorem parseElementAttrVal_safe (hi : i ≤ s.length) :
    Safe parseElementAttrVal s i fun _ _ => True := by
  refine (skipWhiteSpaces_safe hi).bind fun _ j _ hj _ => ?_
  refine .nextIs hj (.throwIf hj nofun) fun hlt _ => .throwIf hj fun _ => .idx (.byteAt hlt ?_)
  refine .findFrom hlt (.throw _ hj) fun q hq hlen => ?_
  exact .substr hlt (.moveTo (by omega) (.pure hlen trivial))

/-! ## Attributes -/

theorem parseAttr_safe (name : Bytes) (seen : List Bytes) (hi : i ≤ s.length) :
    Safe (parseAttr name seen) s i fun attr j => IsName attr.1 ∧ i < j := by
  refine (parseElementAttrKey_safe hi).bind fun key j hij hj hkey => ?_
  refine .throwIf hj fun hne => ?_
  obtain ⟨hkey, hlt⟩ : IsName key ∧ i < j := hkey.resolve_left (by simpa using hne)
  refine (skipWhiteSpaces_safe hj).bind fun _ k hjk hk _ => ?_
  refine .nextIs hk (.throwIf hk nofun) fun hklt _ => .throwIf hk fun _ => .idx ?_
  refine .moveTo (Nat.le_succ k) (.throwIf hklt fun _ => ?_)
  refine (parseElementAttrVal_safe hklt).bind fun val l hkl hl _ => ?_
  exact .pure hl ⟨hkey, by omega⟩

theorem KeysNamed.empty : KeysNamed .empty := fun _ he => nomatch he

theorem KeysNamed.attrStore {attrs : Attrs} (h : KeysNamed attrs) {key : Bytes} (hkey : IsName key)
    (val : Bytes) : KeysNamed (attrs.attrStore key val) := by
  intro e he
  exact (forall_mem_assign (Q := fun _ => True) (fun a ha => ⟨h a ha, trivial⟩) hkey trivial e he).1

theorem attrLoop_safe (name : Bytes) (seen : List Bytes) {attrs : Attrs} (hattrs : KeysNamed attrs)
    (hi : i ≤ s.length) (hturns : s.length - i < turns) :
    Safe (attrLoop name turns seen attrs) s i fun r _ => KeysNamed r.1 := by
  induction turns generalizing i seen attrs with
  | zero => omega
  | succ turns ih =>
    refine (skipWhiteSpaces_safe hi).bind fun _ j hij hj _ => ?_
    refine .atEnd (fun _ => .throwIf hj nofun) fun hlt => .throwIf hj fun _ => .idx (.byteAt hlt ?_)
    split
    · exact .moveTo (Nat.le_succ j) (.pure hlt hattrs)
    · split
      · refine .nextIs hj (.throwIf hj nofun) fun hlt' _ => .throwIf hj fun _ => ?_
        exact .moveTo (by omega) (.pure hlt' hattrs)
      · refine (parseAttr_safe name seen hj).bind ?_
        rintro ⟨key, val⟩ k hjk hk ⟨hkey, hlt'⟩
        exact ih _ (hattrs.attrStore hkey val) hk (by omega)

/-! ## Elements -/

theorem levelsBelow_concat (es : List Element) (e : Element) :
    levelsBelow (es ++ [e]) = max (levelsBelow es) (levels e) := by
  induction es with
  | nil => simp [levelsBelow]
  | cons a es ih => rw [List.cons_append, levelsBelow, levelsBelow, ih, max_assoc]

theorem Named.append {elem e : Element} (h : Named elem) (he : Named e) :
    Named (elem.append e) := by
  cases h with
  | mk hname hkeys hchildren =>
    exact .mk hname hkeys
      (List.forall_mem_append.mpr ⟨hchildren, List.forall_mem_singleton.mpr he⟩)

theorem levels_append (elem e : Element) :
    (elem.append e).levels = max elem.levels (e.levels + 1) := by
  obtain ⟨name, text, attrs, children⟩ := elem
  rw [Element.append, levels, levels, levelsBelow_concat, Nat.add_max_add_right]

/-- A pattern that was compared is there. -/
theorem length_le_of_take {n : Nat} {pat : Bytes} (h : (s.drop i).take n = pat)
    (hn : 0 < pat.length) : i + pat.length ≤ s.length := by
  have hlen := congrArg List.length h
  rw [List.length_take, List.length_drop] at hlen
  omega

theorem parseEndTag_safe (elem : Element) (hi : i ≤ s.length) :
    Safe (parseEndTag elem) s i fun e _ => e = elem := by
  refine .idx (.size (.throwIf hi fun hlen => .compareAt hi (.throwIf hi fun hsame => ?_)))
  have hroom : i + (ascii "</" ++ elem.name ++ ascii ">").length ≤ s.length := by
    have hlt := of_decide_eq_false hlen
    omega
  exact .moveTo (Nat.le_add_right _ _) (.pure hroom rfl)

theorem skipComment_safe (hi : i + 4 ≤ s.length) : Safe skipComment s i fun _ j => i < j := by
  have hle : i ≤ s.length := by omega
  refine .bind (P := fun ok j => ok = true → i < j) ?_ ?_
  · refine .idx (.findFrom hi (.pure hle nofun) fun q hq hlen => ?_)
    exact .moveTo (by omega) (.pure hlen fun _ => by omega)
  · intro ok j hij hj hok
    exact .throwIf_last hj fun h => hok (by simpa using h)

/-- A child, and the white space behind it. -/
theorem parseChild_safe {child : Cursor Element} {R : Element → Prop}
    (hchild : Safe child s i fun e j => i < j ∧ R e) (elem : Element) :
    Safe (parseChild child elem) s i fun e' j => i < j ∧ ∃ e, R e ∧ e' = elem.append e := by
  refine hchild.bind fun e j hij hj hR => ?_
  refine (parseElementText_safe _ hj).bind fun tail k hjk hk _ => .throwIf hk fun _ => ?_
  exact .pure hk ⟨by omega, e, hR.2, rfl⟩

/-- The bytes behind which an element starts. -/
structure StartsAt (s : Bytes) (i : Nat) : Prop where
  lt : i + 1 < s.length
  name : isNameStart (s[i + 1]?.getD 0) = true

/-- What was seen of a tag. -/
theorem opens_safe {β : Type} {f : Bool → Cursor β} {q : UInt8 → Bool} {Q : β → Nat → Prop}
    (hi : i ≤ s.length) (hfalse : Safe (f false) s i Q)
    (htrue : i + 1 < s.length → q (s[i + 1]?.getD 0) = true → Safe (f true) s i Q) :
    Safe (opens q >>= f) s i Q := by
  refine .bind (P := fun b j => j = i ∧
    (b = true → i + 1 < s.length ∧ q (s[i + 1]?.getD 0) = true)) (.idx (.size ?_)) ?_
  · split
    · next hlt =>
      refine .byteAt (by omega) ?_
      split
      · exact .byteAt hlt (.pure hi ⟨rfl, fun hq => ⟨hlt, hq⟩⟩)
      · exact .pure hi ⟨rfl, nofun⟩
    · exact .pure hi ⟨rfl, nofun⟩
  · rintro b j - - ⟨rfl, hb⟩
    cases b with
    | false => exact hfalse
    | true => exact htrue (hb rfl).1 (hb rfl).2

/-- Trees of at most `left` levels. -/
def Fitting (left : Nat) (e : Element) : Prop := Named e ∧ e.levels ≤ left

theorem childLoop_safe {child : Cursor Element} {left : Nat}
    (hchild : ∀ i, StartsAt s i → Safe child s i fun e j => i < j ∧ Fitting left e) {elem : Element}
    (helem : Fitting (left + 1) elem) (hi : i ≤ s.length) (hturns : s.length - i < turns) :
    Safe (childLoop child turns elem) s i fun e _ => Fitting (left + 1) e := by
  induction turns generalizing i elem with
  | zero => omega
  | succ turns ih =>
    refine (skipWhiteSpaces_safe hi).bind fun _ j hij hj _ => ?_
    refine .atEnd (fun _ => .throwIf hj nofun) fun hlt => .throwIf hj fun _ => ?_
    refine .idx (.byteAt hlt (.throwIf hj fun _ => ?_))
    refine .nextIs hj ?_ fun _ _ => (parseEndTag_safe elem hj).mono ?_
    · refine .compareAt hj ?_
      split
      · next hcomment =>
        have hroom := length_le_of_take (of_decide_eq_true hcomment) (by decide)
        refine (skipComment_safe hroom).bind fun _ k _ hk hlt' => ?_
        exact ih helem hk (by omega)
      · refine .compareAt hj (.throwIf hj fun _ => ?_)
        refine opens_safe hj (.throwIf hj nofun) fun hlt' hname => .throwIf hj fun _ => ?_
        refine (parseChild_safe (hchild j ⟨hlt', hname⟩) elem).bind ?_
        rintro _ k hjk hk ⟨hlt'', e, he, rfl⟩
        refine ih ⟨helem.1.append he.1, ?_⟩ hk (by omega)
        rw [levels_append]
        exact max_le helem.2 (Nat.succ_le_succ he.2)
    · rintro _ k - - rfl
      exact helem

/-- **An element**: it is well formed and has at most the levels that were left. -/
theorem parseElement_safe {left : Nat} (hstart : StartsAt s i) :
    Safe (parseElement left) s i fun e j => i < j ∧ Fitting left e := by
  induction left generalizing i with
  | zero => exact .throw _ (by have := hstart.lt; omega)
  | succ left ih =>
    have hlt := hstart.lt
    refine .idx (.moveTo (Nat.le_succ i) ?_)
    refine (parseElementName_safe hlt hstart.name).bind fun name j hij hj hname => .size ?_
    refine (attrLoop_safe name [] .empty hj (by omega)).bind ?_
    rintro ⟨attrs, closed⟩ k hjk hk hattrs
    have hempty : ∀ text, Fitting (left + 1) (.mk name text attrs []) := fun text =>
      ⟨.mk hname.1 hattrs nofun, by simp [levels, levelsBelow]⟩
    dsimp only
    split
    · exact .pure hk ⟨by omega, hempty []⟩
    · refine (parseElementText_safe name hk).bind fun text l hkl hl _ => ?_
      refine (childLoop_safe (fun i h => ih h) (hempty _) hl (by omega)).mono ?_
      exact fun e m hlm _ he => ⟨by omega, he⟩

/-! ## Documents -/

theorem skipBom_safe : Safe skipBom s 0 fun _ _ => True := by
  refine .size ?_
  split
  · next hlen =>
    refine .byteAt (by omega) (.byteAt (by omega) (.byteAt (by omega) ?_))
    split
    · exact ⟨3, .move (Nat.zero_le 3) (.done hlen), rfl, trivial⟩
    · exact .pure (Nat.zero_le _) trivial
  · exact .pure (Nat.zero_le _) trivial

/-- A declaration or an instruction. -/
theorem parseDeclaration_safe (hi : i ≤ s.length) :
    Safe parseDeclaration s i fun ok j => ok = true → i < j := by
  refine .idx (.findFrom hi (.pure hi nofun) fun q hq hlen => ?_)
  have hlen' : q + 2 ≤ s.length := hlen
  exact .moveTo (by omega) (.pure hlen' fun _ => by omega)

theorem skipInstruction_safe (hi : i ≤ s.length) :
    Safe skipInstruction s i fun _ j => i < j := by
  refine (parseDeclaration_safe hi).bind fun ok j _ hj hok => .throwIf_last hj fun h => ?_
  exact hok (by simpa using h)

theorem skipDeclaration_safe (hi : i ≤ s.length) : Safe skipDeclaration s i fun _ _ => True := by
  refine .idx (.compareAt hi ?_)
  split
  · refine .nextIs hi ?_ fun _ _ => .pure hi trivial
    refine (parseDeclaration_safe hi).bind fun ok j _ hj _ => .throwIf hj fun _ => ?_
    exact skipWhiteSpaces_safe hj
  · exact .pure hi trivial

theorem prologLoop_safe (hi : i ≤ s.length) (hturns : s.length - i < turns) :
    Safe (prologLoop turns) s i fun _ _ => True := by
  induction turns generalizing i with
  | zero => omega
  | succ turns ih =>
    -- behind a comment or an instruction
    have hrest : ∀ j, i < j → j ≤ s.length → Safe (do
        skipWhiteSpaces
        let ended ← atEnd
        throwIf ended "xml document has no root element"
        prologLoop turns) s j fun _ _ => True := by
      intro j hij hj
      refine (skipWhiteSpaces_safe hj).bind fun _ k hjk hk _ => ?_
      exact .atEnd (fun _ => .throwIf hk nofun) fun _ => .throwIf hk fun _ => ih hk (by omega)
    refine .idx (.compareAt hi ?_)
    split
    · next hcomment =>
      have hroom := length_le_of_take (of_decide_eq_true hcomment) (by decide)
      exact (skipComment_safe hroom).bind fun _ j _ hj hij => hrest j hij hj
    · refine opens_safe hi (.pure hi trivial) fun _ _ => ?_
      exact (skipInstruction_safe hi).bind fun _ j _ hj hij => hrest j hij hj

theorem epilogLoop_safe (hi : i ≤ s.length) (hturns : s.length - i < turns) :
    Safe (epilogLoop turns) s i fun _ _ => True := by
  induction turns generalizing i with
  | zero => omega
  | succ turns ih =>
    refine (skipWhiteSpaces_safe hi).bind fun _ j hij hj _ => ?_
    refine .atEnd (fun _ => .pure hj trivial) fun _ => .idx (.compareAt hj ?_)
    split
    · next hcomment =>
      have hroom := length_le_of_take (of_decide_eq_true hcomment) (by decide)
      exact (skipComment_safe hroom).bind fun _ k _ hk hjk => ih hk (by omega)
    · refine opens_safe hj (.throwIf hj nofun) fun _ _ => .throwIf hj fun _ => ?_
      exact (skipInstruction_safe hj).bind fun _ k _ hk hjk => ih hk (by omega)

/-- **A document.** -/
theorem parseDocument_safe (s : Bytes) :
    Safe parseDocument s 0 fun e _ => Fitting maxDepth e := by
  refine skipBom_safe.bind fun _ i _ hi _ => (skipWhiteSpaces_safe hi).bind fun _ j _ hj _ => ?_
  refine .atEnd (fun _ => .throwIf hj nofun) fun _ => .throwIf hj fun _ => ?_
  refine (skipDeclaration_safe hj).bind fun _ k _ hk _ => .size ?_
  refine (prologLoop_safe hk (by omega)).bind fun _ l _ hl _ => ?_
  refine .atEnd (fun _ => .throwIf hl nofun) fun _ => .throwIf hl fun _ => ?_
  refine opens_safe hl (.throwIf hl nofun) fun hlt hname => .throwIf hl fun _ => ?_
  refine (parseElement_safe ⟨hlt, hname⟩).bind fun root m _ hm hroot => ?_
  exact (epilogLoop_safe hm (by omega)).bind fun _ n _ hn _ => .pure hn hroot.2

/-- **The parser ends** on every byte string: it returns a tree of at most 128 levels or throws, and
its cursor goes forward inside the text. -/
theorem parse_ends (str : Bytes) :
    ((∃ e, parse str = .ok e ∧ e.levels ≤ 128) ∨ ∃ message, parse str = .error (.threw message)) ∧
      ∃ j, Forward str.length 0 (parseDocument str 0).log j := by
  obtain ⟨hlog, ⟨e, j, hresult, he⟩ | ⟨message, hresult⟩⟩ := (parseDocument_safe str).ok_or_threw
  · refine ⟨.inl ⟨e, ?_, he.2⟩, hlog⟩
    rw [parse, hresult]
    rfl
  · refine ⟨.inr ⟨message, ?_⟩, hlog⟩
    rw [parse, hresult]
    rfl

end Avant.Xml
