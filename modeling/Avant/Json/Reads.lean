import Avant.Json.Tokens

/-!
# The texts the parser accepts

`Reads D n t v` says that `t` is the text of one value of the grammar, with at most `n` arrays and
objects open at once, and that `v` is the value it stands for: a number becomes an integer or a
double, and of two members of an object with one name the later one counts.

Each function of the parser is related to it twice. `parse_turns` goes from the parser to
the grammar, by induction on the turns, and shows that the turns suffice: every turn but the one
from a loop to an element takes a byte. `Reads.readAs` goes from the grammar to the parser, by
induction on the derivation.

* `parse_eq_ok_iff`: `parse` returns `v` exactly for the texts that stand for `v`.
* `parse_accepts_iff`: `parse` returns exactly for the texts of RFC 8259 within its limits, and
  throws for all others.
-/

namespace Avant.Json

open Avant.Lib Avant.Lib.Decimal Avant.Lib.Rfc8259

variable {δ : Type} (D : Doubles δ)

/-- `t` is the text of `v`, with at most `n` arrays and objects open at once. -/
inductive Reads : Nat → Bytes → Json δ → Prop
  | nullLit {n : Nat} : Reads n (ascii "null") .null
  | trueLit {n : Nat} : Reads n (ascii "true") (.bool true)
  | falseLit {n : Nat} : Reads n (ascii "false") (.bool false)
  | number {n : Nat} {x : Number} {v : Json δ} : numberValue D x = some v → Reads n x.bytes v
  | string {n : Nat} {cs : List StrChar} {out : Bytes} :
      Decodes cs out → Reads n (quoted cs) (.string out)
  | emptyArray {n : Nat} {w : Bytes} : Ws w → Reads (n + 1) (0x5B :: (w ++ [0x5D])) (.array [])
  | array {n : Nat} {xs : List (Elem × Json δ)} :
      xs ≠ [] → (∀ x ∈ xs, x.1.Spaced) → (∀ x ∈ xs, Reads n x.1.text x.2) →
      Reads (n + 1) (0x5B :: (commaSeparated (xs.map fun x => x.1.bytes) ++ [0x5D]))
        (.array (xs.map Prod.snd))
  | emptyObject {n : Nat} {w : Bytes} : Ws w → Reads (n + 1) (0x7B :: (w ++ [0x7D])) (.object [])
  | object {n : Nat} {ms : List (Member × Bytes × Json δ)} :
      ms ≠ [] → (∀ m ∈ ms, m.1.Spaced ∧ Decodes m.1.name m.2.1) →
      (∀ m ∈ ms, Reads n m.1.value.text m.2.2) →
      Reads (n + 1) (0x7B :: (commaSeparated (ms.map fun m => m.1.bytes) ++ [0x7D]))
        (.object (ms.foldl (fun obj m => assign m.2.1 m.2.2 obj) []))

/-- A text stands for `v`: the text of the value, with white space around it. -/
def ReadsText (s : Bytes) (v : Json δ) : Prop :=
  ∃ w t w', Ws w ∧ Reads D kMaxDepth t v ∧ Ws w' ∧ s = w ++ (t ++ w')

variable {D}

variable {n : Nat} {t : Bytes} {v : Json δ}

/-- The first byte of a value: no white space, and no byte that closes an array. -/
theorem Reads.head (h : Reads D n t v) : ∃ c s, t = c :: s ∧ isWs c = false ∧ c ≠ 0x5D := by
  cases h with
  | nullLit | trueLit | falseLit | string | emptyArray | array | emptyObject | object =>
    exact ⟨_, _, rfl, by decide, by decide⟩
  | @number _ x _ =>
    obtain ⟨c, s, hs, rfl | hc⟩ := x.head
    · exact ⟨_, s, hs, by decide, by decide⟩
    · have hd := isDigit_toNat hc
      refine ⟨c, s, hs, ?_, ?_⟩
      · simp only [isWs, Bool.or_eq_false_iff, decide_eq_false_iff_not]
        refine ⟨⟨⟨?_, ?_⟩, ?_⟩, ?_⟩ <;> rintro rfl <;> simp at hd
      · rintro rfl
        simp at hd

/-! ## From the parser to the grammar -/

section Sound

variable (D)

/-- What `parse(depth)` returns is the value of a text at the position, behind white space. -/
def ValueRead (depth : Nat) (s : Bytes) (r : Json δ × Bytes) : Prop :=
  ∃ w t, Ws w ∧ Reads D (kMaxDepth - depth) t r.1 ∧ s = w ++ (t ++ r.2)

/-- What the loop over the elements returns extends `arr` by the values of elements at the
position. White space in front of the position can be counted to the first of them. -/
def ElementsRead (depth : Nat) (arr : List (Json δ)) (s : Bytes) (r : Json δ × Bytes) : Prop :=
  ∀ w, Ws w → ∃ xs : List (Elem × Json δ), xs ≠ [] ∧ (∀ x ∈ xs, x.1.Spaced) ∧
    (∀ x ∈ xs, Reads D (kMaxDepth - (depth + 1)) x.1.text x.2) ∧
    w ++ s = commaSeparated (xs.map fun x => x.1.bytes) ++ 0x5D :: r.2 ∧
    r.1 = .array (arr ++ xs.map Prod.snd)

/-- The same for the members of an object. -/
def MembersRead (depth : Nat) (obj : List (Bytes × Json δ)) (s : Bytes) (r : Json δ × Bytes) :
    Prop :=
  ∀ w, Ws w → ∃ ms : List (Member × Bytes × Json δ), ms ≠ [] ∧
    (∀ m ∈ ms, m.1.Spaced ∧ Decodes m.1.name m.2.1) ∧
    (∀ m ∈ ms, Reads D (kMaxDepth - (depth + 1)) m.1.value.text m.2.2) ∧
    w ++ s = commaSeparated (ms.map fun m => m.1.bytes) ++ 0x7D :: r.2 ∧
    r.1 = .object (ms.foldl (fun obj m => assign m.2.1 m.2.2 obj) obj)

variable {D}

theorem ws_append {w w' : Bytes} (h : Ws w) (h' : Ws w') : Ws (w ++ w') := by
  intro b hb
  exact (List.mem_append.mp hb).elim (h b) (h' b)

theorem parseNull_yields (s : Bytes) :
    Yields (parseNull s : Except Stop (Json δ × Bytes)) fun r =>
      r.1 = .null ∧ s = ascii "null" ++ r.2 := by
  rw [parseNull]
  refine .ite (fun h => .ok ⟨rfl, ?_⟩) (fun _ => .threw _)
  rw [← h, List.take_append_drop]

theorem parseBool_yields (s : Bytes) :
    Yields (parseBool s : Except Stop (Json δ × Bytes)) fun r =>
      (r.1 = .bool true ∧ s = ascii "true" ++ r.2) ∨
        (r.1 = .bool false ∧ s = ascii "false" ++ r.2) := by
  rw [parseBool]
  refine .ite (fun h => .ok (.inl ⟨rfl, ?_⟩)) (fun _ => .ite (fun h => .ok (.inr ⟨rfl, ?_⟩))
    (fun _ => .threw _))
  all_goals rw [← h, List.take_append_drop]

/-- One value, given what the two loops do with one turn less. -/
theorem parseValue_step {turns : Nat}
    (harr : ∀ depth arr s, 2 * s.length + 2 ≤ turns →
      Yields (arrayLoop D turns depth arr s) (ElementsRead D depth arr s))
    (hobj : ∀ depth obj ch s, 2 * s.length + 2 ≤ turns →
      Yields (objectLoop D turns depth obj ch s) (MembersRead D depth obj (ch :: s)))
    (depth : Nat) (s : Bytes) (hs : 2 * s.length + 1 ≤ turns + 1) :
    Yields (parseValue D (turns + 1) depth s) (ValueRead D depth s) := by
  rw [parseValue]
  refine (getNextToken_yields s).bind ?_
  rintro ⟨ch, t⟩ ⟨w, hw, rfl⟩
  simp only [List.length_append, List.length_cons] at hs
  refine .ite ?_ (fun _ => .ite ?_ (fun _ => .ite ?_ (fun _ => .ite ?_ (fun _ => .ite ?_
    (fun _ => .ite ?_ (fun _ => .threw _))))))
  · intro _
    refine (parseNull_yields _).mono ?_
    rintro ⟨v, rest⟩ ⟨rfl, h⟩
    exact ⟨w, _, hw, .nullLit, by rw [h]⟩
  · intro _
    refine (parseBool_yields _).mono ?_
    rintro ⟨v, rest⟩ (⟨rfl, h⟩ | ⟨rfl, h⟩)
    · exact ⟨w, _, hw, .trueLit, by rw [h]⟩
    · exact ⟨w, _, hw, .falseLit, by rw [h]⟩
  · intro _
    refine (parseNumber_yields D _).mono ?_
    rintro ⟨v, rest⟩ ⟨x, hx, h⟩
    exact ⟨w, _, hw, .number hx, by rw [h]⟩
  · rintro rfl
    refine (parseString_yields t).bind ?_
    rintro ⟨out, rest⟩ ⟨cs, hdec, h⟩
    exact .ok ⟨w, _, hw, .string hdec, by simp [h, quoted]⟩
  · rintro rfl
    refine .ite (fun _ => .threw _) ?_
    intro hdepth
    have hn : kMaxDepth - depth = kMaxDepth - (depth + 1) + 1 := by omega
    refine (getNextToken_yields t).bind ?_
    rintro ⟨ch, t'⟩ ⟨w', hw', rfl⟩
    simp only [List.length_append, List.length_cons] at hs
    refine .ite ?_ ?_
    · rintro rfl
      exact .ok ⟨w, _, hw, by rw [hn]; exact .emptyArray hw', by simp⟩
    · intro _
      refine (harr depth [] _ (by simp only [List.length_cons]; omega)).mono ?_
      rintro ⟨v, rest⟩ hr
      obtain ⟨xs, hne, hsp, hrd, htext, rfl⟩ := hr w' hw'
      have hread := Reads.array hne hsp hrd
      rw [← hn] at hread
      exact ⟨w, _, hw, hread, by simp [htext]⟩
  · rintro rfl
    refine .ite (fun _ => .threw _) ?_
    intro hdepth
    have hn : kMaxDepth - depth = kMaxDepth - (depth + 1) + 1 := by omega
    refine (getNextToken_yields t).bind ?_
    rintro ⟨ch, t'⟩ ⟨w', hw', rfl⟩
    simp only [List.length_append, List.length_cons] at hs
    refine .ite ?_ ?_
    · rintro rfl
      exact .ok ⟨w, _, hw, by rw [hn]; exact .emptyObject hw', by simp⟩
    · intro _
      refine (hobj depth [] ch t' (by omega)).mono ?_
      rintro ⟨v, rest⟩ hr
      obtain ⟨ms, hne, hsp, hrd, htext, rfl⟩ := hr w' hw'
      have hread := Reads.object hne hsp hrd
      rw [← hn] at hread
      exact ⟨w, _, hw, hread, by simp [htext]⟩

/-- One turn of the loop over the elements. -/
theorem arrayLoop_step {turns : Nat}
    (hval : ∀ depth s, 2 * s.length + 1 ≤ turns →
      Yields (parseValue D turns depth s) (ValueRead D depth s))
    (harr : ∀ depth arr s, 2 * s.length + 2 ≤ turns →
      Yields (arrayLoop D turns depth arr s) (ElementsRead D depth arr s))
    (depth : Nat) (arr : List (Json δ)) (s : Bytes) (hs : 2 * s.length + 2 ≤ turns + 1) :
    Yields (arrayLoop D (turns + 1) depth arr s) (ElementsRead D depth arr s) := by
  rw [arrayLoop]
  refine (hval (depth + 1) s (by omega)).bind ?_
  rintro ⟨v, s1⟩ ⟨w1, t, hw1, hread, rfl⟩
  refine (getNextToken_yields s1).bind ?_
  rintro ⟨ch, s2⟩ ⟨w2, hw2, rfl⟩
  refine .ite ?_ (fun _ => .ite (fun _ => .threw _) ?_)
  · rintro rfl
    refine .ok ?_
    intro w hw
    refine ⟨[(⟨w ++ w1, t, w2⟩, v)], by simp, ?_, ?_, ?_, rfl⟩
    · simpa using ⟨ws_append hw hw1, hw2⟩
    · simpa using hread
    · simp [commaSeparated, Elem.bytes]
  · intro hcomma
    obtain rfl : ch = 0x2C := not_not.mp hcomma
    refine (getNextToken_yields s2).bind ?_
    rintro ⟨ch, s3⟩ ⟨w3, hw3, rfl⟩
    simp only [List.length_append, List.length_cons] at hs
    refine (harr depth (arr ++ [v]) (ch :: s3) (by simp only [List.length_cons]; omega)).mono ?_
    rintro ⟨r, rest⟩ hr w hw
    obtain ⟨xs, hne, hsp, hrd, htext, rfl⟩ := hr w3 hw3
    refine ⟨(⟨w ++ w1, t, w2⟩, v) :: xs, by simp, ?_, ?_, ?_, by simp⟩
    · exact List.forall_mem_cons.mpr ⟨⟨ws_append hw hw1, hw2⟩, hsp⟩
    · exact List.forall_mem_cons.mpr ⟨hread, hrd⟩
    · cases xs with
      | nil => exact absurd rfl hne
      | cons y ys => simp [commaSeparated, Elem.bytes, htext]

/-- One turn of the loop over the members. -/
theorem objectLoop_step {turns : Nat}
    (hval : ∀ depth s, 2 * s.length + 1 ≤ turns →
      Yields (parseValue D turns depth s) (ValueRead D depth s))
    (hobj : ∀ depth obj ch s, 2 * s.length + 2 ≤ turns →
      Yields (objectLoop D turns depth obj ch s) (MembersRead D depth obj (ch :: s)))
    (depth : Nat) (obj : List (Bytes × Json δ)) (ch : UInt8) (s : Bytes)
    (hs : 2 * s.length + 2 ≤ turns + 1) :
    Yields (objectLoop D (turns + 1) depth obj ch s) (MembersRead D depth obj (ch :: s)) := by
  rw [objectLoop]
  refine .ite (fun _ => .threw _) ?_
  intro hquote
  obtain rfl : ch = 0x22 := not_not.mp hquote
  refine (parseString_yields s).bind ?_
  rintro ⟨key, s1⟩ ⟨cs, hdec, rfl⟩
  refine (getNextToken_yields s1).bind ?_
  rintro ⟨ch, s2⟩ ⟨w1, hw1, rfl⟩
  refine .ite (fun _ => .threw _) ?_
  intro hcolon
  obtain rfl : ch = 0x3A := not_not.mp hcolon
  simp only [List.length_append, List.length_cons] at hs
  refine (hval (depth + 1) s2 (by omega)).bind ?_
  rintro ⟨v, s3⟩ ⟨w2, t, hw2, hread, rfl⟩
  refine (getNextToken_yields s3).bind ?_
  rintro ⟨ch, s4⟩ ⟨w3, hw3, rfl⟩
  refine .ite ?_ (fun _ => .ite (fun _ => .threw _) ?_)
  · rintro rfl
    refine .ok ?_
    intro w hw
    refine ⟨[(⟨w, cs, w1, ⟨w2, t, w3⟩⟩, key, v)], by simp, ?_, ?_, ?_, rfl⟩
    · simpa using ⟨⟨hw, hw1, hw2, hw3⟩, hdec⟩
    · simpa using hread
    · simp [commaSeparated, Member.bytes, Elem.bytes, quoted]
  · intro hcomma
    obtain rfl : ch = 0x2C := not_not.mp hcomma
    refine (getNextToken_yields s4).bind ?_
    rintro ⟨ch, s5⟩ ⟨w4, hw4, rfl⟩
    simp only [List.length_append, List.length_cons] at hs
    refine (hobj depth (assign key v obj) ch s5 (by omega)).mono ?_
    rintro ⟨r, rest⟩ hr w hw
    obtain ⟨ms, hne, hsp, hrd, htext, rfl⟩ := hr w4 hw4
    refine ⟨(⟨w, cs, w1, ⟨w2, t, w3⟩⟩, key, v) :: ms, by simp, ?_, ?_, ?_, rfl⟩
    · exact List.forall_mem_cons.mpr ⟨⟨⟨hw, hw1, hw2, hw3⟩, hdec⟩, hsp⟩
    · exact List.forall_mem_cons.mpr ⟨hread, hrd⟩
    · cases ms with
      | nil => exact absurd rfl hne
      | cons y ys => simp [commaSeparated, Member.bytes, Elem.bytes, quoted, htext]

/-- With a turn for every byte twice over, the parser ends, and what it returns is in the
grammar. -/
theorem parse_turns (turns : Nat) :
    (∀ depth s, 2 * s.length + 1 ≤ turns →
      Yields (parseValue D turns depth s) (ValueRead D depth s)) ∧
    (∀ depth arr s, 2 * s.length + 2 ≤ turns →
      Yields (arrayLoop D turns depth arr s) (ElementsRead D depth arr s)) ∧
    (∀ depth obj ch s, 2 * s.length + 2 ≤ turns →
      Yields (objectLoop D turns depth obj ch s) (MembersRead D depth obj (ch :: s))) := by
  induction turns with
  | zero =>
    refine ⟨?_, ?_, ?_⟩ <;> intros <;> omega
  | succ turns ih =>
    obtain ⟨hval, harr, hobj⟩ := ih
    exact ⟨parseValue_step harr hobj, arrayLoop_step hval harr, objectLoop_step hval hobj⟩

end Sound

/-! ## From the grammar to the parser -/

section Complete

variable (D)

/-- Wherever the text `t` stands, the parser reads it to its end and returns `v`, if the depth
leaves `n` levels and what follows cannot be taken for a part of it. -/
def ReadAs (n : Nat) (t : Bytes) (v : Json δ) : Prop :=
  ∀ turns depth w rest, 2 * t.length + 1 ≤ turns → n + depth ≤ kMaxDepth → Ws w →
    NumberEnd rest → parseValue D turns depth (w ++ (t ++ rest)) = .ok (v, rest)

variable {D}

theorem numberEnd_nil : NumberEnd [] := by
  intro c hc
  cases hc

variable {c : UInt8} {s w : Bytes} {depth n : Nat} {v : Json δ}

theorem numberEnd_cons (h : isWs c = true ∨ c = 0x2C ∨ c = 0x5D ∨ c = 0x7D) :
    NumberEnd (c :: s) := by
  rintro b hb
  obtain rfl : c = b := by simpa using hb
  simp only [isWs, Bool.or_eq_true, decide_eq_true_eq] at h
  rcases h with (((rfl | rfl) | rfl) | rfl) | rfl | rfl | rfl <;> decide

/-- Behind a value stands white space or the byte that ends it. -/
theorem numberEnd_append (hw : Ws w) (hs : NumberEnd s) : NumberEnd (w ++ s) := by
  cases w with
  | nil => exact hs
  | cons b w => exact numberEnd_cons (.inl (hw b (by simp)))

/-- The loop over the elements reads an element and those behind it. -/
theorem arrayLoop_elems (hdepth : n + (depth + 1) ≤ kMaxDepth) (x : Elem × Json δ)
    (xs : List (Elem × Json δ)) (hsp : ∀ y ∈ x :: xs, y.1.Spaced)
    (hread : ∀ y ∈ x :: xs, Reads D n y.1.text y.2) (has : ∀ y ∈ x :: xs, ReadAs D n y.1.text y.2)
    (turns : Nat) (arr : List (Json δ)) (rest : Bytes)
    (hturns : 2 * (commaSeparated ((x :: xs).map fun y => y.1.bytes)).length + 2 ≤ turns) :
    arrayLoop D turns depth arr (x.1.text ++ (x.1.after ++
      ((xs.map fun y => y.1.bytes).flatMap (fun y => 0x2C :: y) ++ 0x5D :: rest))) =
      .ok (.array (arr ++ x.2 :: xs.map Prod.snd), rest) := by
  induction xs generalizing x turns arr with
  | nil =>
    have hafter := (hsp x (by simp)).2
    cases turns with
    | zero => omega
    | succ turns =>
      simp only [commaSeparated, List.map_cons, List.map_nil, List.flatMap_nil, Elem.bytes,
        List.append_nil, List.length_append] at hturns
      have hval := has x (by simp) turns (depth + 1) [] (x.1.after ++ 0x5D :: rest) (by omega)
        hdepth ws_nil (numberEnd_append hafter (numberEnd_cons (by simp)))
      rw [List.nil_append] at hval
      simp only [List.map_nil, List.flatMap_nil, List.nil_append, arrayLoop, hval, ok_bind,
        getNextToken_append hafter (by decide : isWs 0x5D = false), if_true]
  | cons y ys ih =>
    have hafter := (hsp x (by simp)).2
    have hbefore := (hsp y (by simp)).1
    obtain ⟨c, t, ht, hc, -⟩ := (hread y (by simp)).head
    cases turns with
    | zero => omega
    | succ turns =>
      simp only [commaSeparated, List.map_cons, List.flatMap_cons, Elem.bytes, List.length_append,
        List.length_cons] at hturns
      have hval := fun s => has x (by simp) turns (depth + 1) [] (x.1.after ++ 0x2C :: s)
        (by omega) hdepth ws_nil (numberEnd_append hafter (numberEnd_cons (by simp)))
      have hnext := ih y (fun z hz => hsp z (List.mem_cons_of_mem _ hz))
        (fun z hz => hread z (List.mem_cons_of_mem _ hz))
        (fun z hz => has z (List.mem_cons_of_mem _ hz)) turns (arr ++ [x.2]) (by
          simp only [commaSeparated, List.map_cons, Elem.bytes, List.length_append]
          omega)
      simp only [List.nil_append] at hval
      simp only [ht, List.cons_append] at hnext
      simp only [List.map_cons, List.flatMap_cons, List.cons_append, List.append_assoc, arrayLoop,
        hval, ok_bind, getNextToken_append hafter (by decide : isWs 0x2C = false), y.1.bytes_append,
        ht, getNextToken_append hbefore hc, hnext]
      simp

/-- The loop over the members reads a member and those behind it. -/
theorem objectLoop_members (hdepth : n + (depth + 1) ≤ kMaxDepth) (m : Member × Bytes × Json δ)
    (ms : List (Member × Bytes × Json δ)) (hsp : ∀ y ∈ m :: ms, y.1.Spaced ∧ Decodes y.1.name y.2.1)
    (has : ∀ y ∈ m :: ms, ReadAs D n y.1.value.text y.2.2) (turns : Nat)
    (obj : List (Bytes × Json δ)) (rest : Bytes)
    (hturns : 2 * (commaSeparated ((m :: ms).map fun y => y.1.bytes)).length + 2 ≤ turns) :
    objectLoop D turns depth obj 0x22 (strBytes m.1.name ++ 0x22 :: (m.1.afterName ++ 0x3A ::
      (m.1.value.before ++ (m.1.value.text ++ (m.1.value.after ++
      ((ms.map fun y => y.1.bytes).flatMap (fun y => 0x2C :: y) ++ 0x7D :: rest)))))) =
      .ok (.object ((m :: ms).foldl (fun obj y => assign y.2.1 y.2.2 obj) obj), rest) := by
  induction ms generalizing m turns obj with
  | nil =>
    obtain ⟨⟨-, hname, hbefore, hafter⟩, hdec⟩ := hsp m (by simp)
    cases turns with
    | zero => omega
    | succ turns =>
      simp only [commaSeparated, List.map_cons, List.map_nil, List.flatMap_nil, Member.bytes,
        Elem.bytes, List.append_nil, List.length_append, List.length_cons] at hturns
      have hval := has m (by simp) turns (depth + 1) m.1.value.before
        (m.1.value.after ++ 0x7D :: rest) (by omega)
        hdepth hbefore (numberEnd_append hafter (numberEnd_cons (by simp)))
      simp only [List.map_nil, List.flatMap_nil, List.nil_append, objectLoop, ne_eq,
        not_true_eq_false, if_false, parseString_strBytes hdec, ok_bind,
        getNextToken_append hname (by decide : isWs 0x3A = false), hval,
        getNextToken_append hafter (by decide : isWs 0x7D = false), if_true, List.foldl_cons,
        List.foldl_nil]
  | cons y ys ih =>
    obtain ⟨⟨-, hname, hbefore, hafter⟩, hdec⟩ := hsp m (by simp)
    have hfront := (hsp y (by simp)).1.1
    cases turns with
    | zero => omega
    | succ turns =>
      simp only [commaSeparated, List.map_cons, List.flatMap_cons, Member.bytes, Elem.bytes,
        List.length_append, List.length_cons] at hturns
      have hval := fun s => has m (by simp) turns (depth + 1) m.1.value.before
        (m.1.value.after ++ 0x2C :: s) (by omega) hdepth hbefore
        (numberEnd_append hafter (numberEnd_cons (by simp)))
      have hnext := ih y (fun z hz => hsp z (List.mem_cons_of_mem _ hz))
        (fun z hz => has z (List.mem_cons_of_mem _ hz)) turns (assign m.2.1 m.2.2 obj) (by
          simp only [commaSeparated, List.map_cons, Member.bytes, Elem.bytes, List.length_append,
            List.length_cons]
          omega)
      simp only [List.map_cons, List.flatMap_cons, List.cons_append, List.append_assoc, objectLoop,
        ne_eq, not_true_eq_false, if_false, parseString_strBytes hdec, ok_bind,
        getNextToken_append hname (by decide : isWs 0x3A = false), hval,
        getNextToken_append hafter (by decide : isWs 0x2C = false), y.1.bytes_append,
        getNextToken_append hfront (by decide : isWs 0x22 = false), hnext]
      simp

theorem getNextToken_cons (hc : isWs c = false) (s : Bytes) : getNextToken (c :: s) = .ok (c, s) :=
  getNextToken_append ws_nil hc

/-- White space in front of a value changes nothing. -/
theorem readAs_of_head (hc : isWs c = false)
    (h : ∀ turns depth rest, 2 * (s.length + 1) ≤ turns → n + depth ≤ kMaxDepth →
      NumberEnd rest → parseValue D (turns + 1) depth (c :: (s ++ rest)) = .ok (v, rest)) :
    ReadAs D n (c :: s) v := by
  intro turns depth w rest ht hdepth hw hrest
  cases turns with
  | zero => omega
  | succ turns =>
    have hfront := h turns depth rest (by simp only [List.length_cons] at ht; omega) hdepth hrest
    rw [parseValue, getNextToken_cons hc] at hfront
    rw [parseValue, List.cons_append, getNextToken_append hw hc]
    exact hfront

/-- A number starts with a byte that `parse` takes for the start of a number. -/
theorem number_head (x : Number) : ∃ c s, x.bytes = c :: s ∧ isWs c = false ∧ c ≠ 0x6E ∧
    ¬ (c = 0x74 ∨ c = 0x66) ∧ (c = 0x2D ∨ (0x30 ≤ c ∧ c ≤ 0x39)) := by
  obtain ⟨c, s, hs, hc⟩ := x.head
  refine ⟨c, s, hs, ?_⟩
  rcases hc with rfl | hc
  · decide
  · have hd := isDigit_toNat hc
    refine ⟨?_, ?_, ?_, .inr (by simpa [Decimal.isDigit] using hc)⟩
    · simp only [isWs, Bool.or_eq_false_iff, decide_eq_false_iff_not]
      refine ⟨⟨⟨?_, ?_⟩, ?_⟩, ?_⟩ <;> rintro rfl <;> simp at hd
    · rintro rfl
      simp at hd
    · rintro (rfl | rfl) <;> simp at hd

theorem readAs_number {x : Number} (hx : numberValue D x = some v) : ReadAs D n x.bytes v := by
  obtain ⟨c, s, hs, hws, hn, htf, hrange⟩ := number_head x
  rw [hs]
  refine readAs_of_head hws ?_
  intro turns depth rest _ _ hrest
  have hnumber : parseNumber D (x.bytes ++ rest) = .ok (v, rest) := by
    rw [parseNumber_eq D (scanNumber_bytes x hrest), hx]
  rw [hs] at hnumber
  rw [parseValue, getNextToken_cons hws, ok_bind]
  simp only [if_neg hn, if_neg htf, if_pos hrange]
  exact hnumber

theorem parseValue_quote (turns depth : Nat) (s : Bytes) :
    parseValue D (turns + 1) depth (0x22 :: s) =
      parseString s >>= fun r => .ok (.string r.1, r.2) := by
  rw [parseValue, getNextToken_cons (by decide)]
  rfl

theorem parseValue_bracket {turns : Nat} (hdepth : depth + 1 ≤ kMaxDepth) (s : Bytes) :
    parseValue D (turns + 1) depth (0x5B :: s) =
      getNextToken s >>= fun r =>
        if r.1 = 0x5D then .ok (.array [], r.2) else arrayLoop D turns depth [] (r.1 :: r.2) := by
  rw [parseValue, getNextToken_cons (by decide)]
  exact if_neg (Nat.not_lt.mpr hdepth)

theorem parseValue_brace {turns : Nat} (hdepth : depth + 1 ≤ kMaxDepth) (s : Bytes) :
    parseValue D (turns + 1) depth (0x7B :: s) =
      getNextToken s >>= fun r =>
        if r.1 = 0x7D then .ok (.object [], r.2) else objectLoop D turns depth [] r.1 r.2 := by
  rw [parseValue, getNextToken_cons (by decide)]
  exact if_neg (Nat.not_lt.mpr hdepth)

theorem readAs_string {cs : List StrChar} {out : Bytes} (h : Decodes cs out) :
    ReadAs D n (quoted cs) (.string out) := by
  refine readAs_of_head (by decide) ?_
  intro turns depth rest _ _ _
  rw [parseValue_quote, List.append_assoc, List.singleton_append, parseString_strBytes h, ok_bind]

theorem readAs_emptyArray (hw : Ws w) : ReadAs D (n + 1) (0x5B :: (w ++ [0x5D])) (.array []) := by
  refine readAs_of_head (by decide) ?_
  intro turns depth rest _ hdepth _
  rw [parseValue_bracket (by omega), List.append_assoc, List.singleton_append,
    getNextToken_append hw (by decide), ok_bind, if_pos rfl]

theorem readAs_emptyObject (hw : Ws w) : ReadAs D (n + 1) (0x7B :: (w ++ [0x7D])) (.object []) := by
  refine readAs_of_head (by decide) ?_
  intro turns depth rest _ hdepth _
  rw [parseValue_brace (by omega), List.append_assoc, List.singleton_append,
    getNextToken_append hw (by decide), ok_bind, if_pos rfl]

theorem readAs_array {x : Elem × Json δ} {xs : List (Elem × Json δ)}
    (hsp : ∀ y ∈ x :: xs, y.1.Spaced) (hread : ∀ y ∈ x :: xs, Reads D n y.1.text y.2)
    (has : ∀ y ∈ x :: xs, ReadAs D n y.1.text y.2) :
    ReadAs D (n + 1) (0x5B :: (commaSeparated ((x :: xs).map fun y => y.1.bytes) ++ [0x5D]))
      (.array ((x :: xs).map Prod.snd)) := by
  refine readAs_of_head (by decide) ?_
  intro turns depth rest ht hdepth _
  obtain ⟨c, t, htext, hc, hclose⟩ := (hread x (by simp)).head
  have hloop := arrayLoop_elems (by omega : n + (depth + 1) ≤ kMaxDepth) x xs hsp hread has turns []
    rest (by simp only [List.length_append, List.length_singleton] at ht; omega)
  rw [htext, List.cons_append] at hloop
  rw [parseValue_bracket (by omega), List.append_assoc, List.singleton_append, List.map_cons,
    commaSeparated, List.append_assoc, x.1.bytes_append, htext, List.cons_append,
    getNextToken_append (hsp x (by simp)).1 hc, ok_bind, if_neg hclose, hloop]
  rfl

theorem readAs_object {m : Member × Bytes × Json δ} {ms : List (Member × Bytes × Json δ)}
    (hsp : ∀ y ∈ m :: ms, y.1.Spaced ∧ Decodes y.1.name y.2.1)
    (has : ∀ y ∈ m :: ms, ReadAs D n y.1.value.text y.2.2) :
    ReadAs D (n + 1) (0x7B :: (commaSeparated ((m :: ms).map fun y => y.1.bytes) ++ [0x7D]))
      (.object ((m :: ms).foldl (fun obj y => assign y.2.1 y.2.2 obj) [])) := by
  refine readAs_of_head (by decide) ?_
  intro turns depth rest ht hdepth _
  have hloop := objectLoop_members (by omega : n + (depth + 1) ≤ kMaxDepth) m ms hsp has turns []
    rest (by simp only [List.length_append, List.length_singleton] at ht; omega)
  rw [parseValue_brace (by omega), List.append_assoc, List.singleton_append, List.map_cons,
    commaSeparated, List.append_assoc, m.1.bytes_append,
    getNextToken_append (hsp m (by simp)).1.1 (by decide), ok_bind,
    if_neg (by decide : ¬ (0x22 : UInt8) = 0x7D), hloop]

/-- The parser reads every value of the grammar. -/
theorem Reads.readAs {t : Bytes} (h : Reads D n t v) : ReadAs D n t v := by
  induction h with
  | nullLit | trueLit | falseLit => exact readAs_of_head (by decide) fun _ _ _ _ _ _ => rfl
  | number hx => exact readAs_number hx
  | string hdec => exact readAs_string hdec
  | emptyArray hw => exact readAs_emptyArray hw
  | @array n xs hne hsp hread ih =>
    cases xs with
    | nil => exact absurd rfl hne
    | cons x xs => exact readAs_array hsp hread ih
  | emptyObject hw => exact readAs_emptyObject hw
  | @object n ms hne hsp _ ih =>
    cases ms with
    | nil => exact absurd rfl hne
    | cons m ms => exact readAs_object hsp ih

end Complete

/-! ## Whole texts -/

/-- Every call of `parse` ends, and what it returns is the value of the text. -/
theorem parse_yields (s : Bytes) : Yields (parse D s) (ReadsText D s) := by
  rw [parse]
  refine ((parse_turns _).1 0 s (Nat.le_refl _)).bind ?_
  rintro ⟨v, rest⟩ ⟨w, t, hw, hread, rfl⟩
  refine .ite (fun _ => .threw _) ?_
  intro hrest
  obtain ⟨w', hw', hsplit⟩ := skipWhiteSpaces_split rest
  rw [not_not.mp hrest, List.append_nil] at hsplit
  exact .ok ⟨w, t, w', hw, hread, hw', by rw [hsplit]⟩

theorem parse_of_readsText {s : Bytes} (h : ReadsText D s v) : parse D s = .ok v := by
  obtain ⟨w, t, w', hw, hread, hw', rfl⟩ := h
  have hend : NumberEnd w' := by
    have := numberEnd_append hw' numberEnd_nil
    rwa [List.append_nil] at this
  have hskip : skipWhiteSpaces w' = [] := by
    have := skipWhiteSpaces_append (s := []) hw'
    rwa [List.append_nil] at this
  have hval := hread.readAs (2 * (w ++ (t ++ w')).length + 1) 0 w w'
    (by simp only [List.length_append]; omega) (Nat.le_refl _) hw hend
  rw [parse, hval, ok_bind]
  exact if_neg (not_not.mpr hskip)

/-- `parse` returns `v` exactly for the texts that stand for `v`. -/
theorem parse_eq_ok_iff (s : Bytes) (v : Json δ) : parse D s = .ok v ↔ ReadsText D s v := by
  constructor
  · intro h
    have hyields := parse_yields (D := D) s
    rw [h] at hyields
    exact hyields
  · exact parse_of_readsText

/-! ## RFC 8259 -/

variable (D)

/-- The numbers the parser can represent: integers of 64 bits, and finite doubles. -/
def Fits (x : Number) : Prop :=
  if x.isInteger then IsInt64 x.value else D.isfinite (D.strtod x.bytes) = true

variable {D}

theorem numberValue_of_fits {x : Number} (h : Fits D x) : ∃ v, numberValue D x = some v := by
  rw [numberValue]
  rw [Fits] at h
  by_cases hx : x.isInteger = true
  · rw [if_pos hx] at h
    exact ⟨_, (if_pos hx).trans (if_pos h)⟩
  · rw [if_neg hx] at h
    exact ⟨_, (if_neg hx).trans (if_pos h)⟩

theorem fits_of_numberValue {x : Number} (h : numberValue D x = some v) : Fits D x := by
  rw [numberValue] at h
  rw [Fits]
  split at h
  · next hx =>
    rw [if_pos hx]
    by_contra hv
    rw [if_neg hv] at h
    cases h
  · next hx =>
    rw [if_neg hx]
    by_contra hv
    rw [if_neg hv] at h
    cases h

/-- What the parser reads is in the grammar. -/
theorem Reads.value (h : Reads D n t v) : Value (Fits D) Paired n t := by
  induction h with
  | nullLit => exact .nullLit
  | trueLit => exact .trueLit
  | falseLit => exact .falseLit
  | number hx => exact .number (fits_of_numberValue hx)
  | string hdec => exact .string ((decodes_iff_paired _).mp ⟨_, hdec⟩)
  | emptyArray hw => exact .emptyArray hw
  | @array n xs hne hsp _ ih =>
    have hval : Value (Fits D) Paired (n + 1)
        (0x5B :: (commaSeparated ((xs.map Prod.fst).map Elem.bytes) ++ [0x5D])) := by
      refine .array (by simpa using hne) ?_ ?_
      all_goals
        intro e he
        obtain ⟨x, hx, rfl⟩ := List.mem_map.mp he
      · exact hsp x hx
      · exact ih x hx
    rwa [List.map_map] at hval
  | emptyObject hw => exact .emptyObject hw
  | @object n ms hne hsp _ ih =>
    have hval : Value (Fits D) Paired (n + 1)
        (0x7B :: (commaSeparated ((ms.map Prod.fst).map Member.bytes) ++ [0x7D])) := by
      refine .object (by simpa using hne) ?_ ?_
      all_goals
        intro e he
        obtain ⟨m, hm, rfl⟩ := List.mem_map.mp he
      · exact ⟨(hsp m hm).1, (decodes_iff_paired _).mp ⟨_, (hsp m hm).2⟩⟩
      · exact ih m hm
    rwa [List.map_map] at hval

/-- If every element is related to something, there is a list of pairs. -/
theorem exists_pairs {α β : Type} {R : α → β → Prop} {xs : List α} (h : ∀ x ∈ xs, ∃ y, R x y) :
    ∃ ps : List (α × β), ps.map Prod.fst = xs ∧ ∀ p ∈ ps, R p.1 p.2 := by
  choose f hf using h
  refine ⟨xs.attach.map fun x => (x.1, f x.1 x.2), by simp, ?_⟩
  rintro p hp
  obtain ⟨x, -, rfl⟩ := List.mem_map.mp hp
  exact hf x.1 x.2

/-- What is in the grammar has a value. -/
theorem reads_of_value (h : Value (Fits D) Paired n t) : ∃ v, Reads D n t v := by
  induction h with
  | nullLit => exact ⟨_, .nullLit⟩
  | trueLit => exact ⟨_, .trueLit⟩
  | falseLit => exact ⟨_, .falseLit⟩
  | number hx =>
    obtain ⟨v, hv⟩ := numberValue_of_fits hx
    exact ⟨v, .number hv⟩
  | string hcs =>
    obtain ⟨out, hout⟩ := (decodes_iff_paired _).mpr hcs
    exact ⟨_, .string hout⟩
  | emptyArray hw => exact ⟨_, .emptyArray hw⟩
  | array hne hsp _ ih =>
    obtain ⟨ps, rfl, hps⟩ := exists_pairs ih
    have hread := Reads.array (by simpa using hne) (fun p hp => hsp p.1 (List.mem_map_of_mem hp)) hps
    rw [List.map_map]
    exact ⟨_, hread⟩
  | emptyObject hw => exact ⟨_, .emptyObject hw⟩
  | @object n ms hne hsp _ ih =>
    have hboth : ∀ m ∈ ms, ∃ y : Bytes × Json δ,
        Decodes m.name y.1 ∧ Reads D n m.value.text y.2 := by
      intro m hm
      obtain ⟨out, hout⟩ := (decodes_iff_paired _).mpr (hsp m hm).2
      obtain ⟨v, hv⟩ := ih m hm
      exact ⟨(out, v), hout, hv⟩
    obtain ⟨ps, rfl, hps⟩ := exists_pairs hboth
    have hread := Reads.object (by simpa using hne)
      (fun p hp => ⟨(hsp p.1 (List.mem_map_of_mem hp)).1, (hps p hp).1⟩) (fun p hp => (hps p hp).2)
    rw [List.map_map]
    exact ⟨_, hread⟩

/-- A text has a value exactly when it is a text of RFC 8259 within the parser's limits. -/
theorem readsText_iff (s : Bytes) :
    (∃ v, ReadsText D s v) ↔ Text (Fits D) Paired kMaxDepth s := by
  constructor
  · rintro ⟨v, w, t, w', hw, hread, hw', hs⟩
    exact ⟨w, t, w', hw, hread.value, hw', hs⟩
  · rintro ⟨w, t, w', hw, hval, hw', hs⟩
    obtain ⟨v, hread⟩ := reads_of_value hval
    exact ⟨v, w, t, w', hw, hread, hw', hs⟩

/-- **The accepted texts.** `parse` returns exactly for the texts of RFC 8259 in which arrays and
objects nest at most 512 deep, every integer has 64 bits, every other number is finite as a double,
and the surrogates of the escapes are paired. For every other byte string it throws. -/
theorem parse_accepts_iff (D : Doubles δ) (s : Bytes) :
    ((∃ v, parse D s = .ok v) ↔ Text (Fits D) Paired 512 s) ∧
      (¬ Text (Fits D) Paired 512 s → ∃ message, parse D s = .error (.threw message)) := by
  have hiff : (∃ v, parse D s = .ok v) ↔ Text (Fits D) Paired 512 s :=
    (exists_congr fun v => parse_eq_ok_iff s v).trans (readsText_iff s)
  refine ⟨hiff, ?_⟩
  intro hnot
  rcases (parse_yields (D := D) s).ok_or_threw with ⟨v, hv, -⟩ | hthrew
  · exact absurd (hiff.mp ⟨v, hv⟩) hnot
  · exact hthrew

end Avant.Json
