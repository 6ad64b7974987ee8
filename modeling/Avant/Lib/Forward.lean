import Avant.Lib.Cursor

/-!
# Parsers that go forward

`Forward n i log j` says of the accesses of a parser that they stay inside a text of `n` bytes and
that the cursor goes from `i` to `j` without ever going back. `Safe p s i P` is the postcondition of
a parser at the position `i` of `s`: its accesses are forward, also if it throws; it has not used up
its turns; and if it returns, `P` holds of the value and the cursor.

There is one rule for each primitive, in front of the rest of the parser, and `Safe.bind` for
everything else. The rest of a parser knows that the cursor has not gone back and is inside the
text; that a loop ends is then an induction on its turns, of which there are more than bytes left.
-/

namespace Avant.Lib

/-- The accesses are inside a text of `n` bytes, and take the cursor from one position forward to
another. -/
inductive Forward (n : Nat) : Nat → List Access → Nat → Prop
  | done {i : Nat} (hi : i ≤ n) : Forward n i [] i
  | read {i j pos : Nat} {log : List Access} (hpos : pos < n) (h : Forward n i log j) :
      Forward n i (.read pos :: log) j
  | scan {i j pos : Nat} {log : List Access} (hpos : pos ≤ n) (h : Forward n i log j) :
      Forward n i (.scan pos :: log) j
  | move {i j pos : Nat} {log : List Access} (hpos : i ≤ pos) (h : Forward n pos log j) :
      Forward n i (.move pos :: log) j

namespace Forward

variable {n i j k : Nat} {log log' : List Access}

theorem le (h : Forward n i log j) : i ≤ j ∧ j ≤ n := by
  induction h with
  | done hi => exact ⟨le_rfl, hi⟩
  | read _ _ ih => exact ih
  | scan _ _ ih => exact ih
  | move hpos _ ih => exact ⟨hpos.trans ih.1, ih.2⟩

theorem append (h : Forward n i log j) (h' : Forward n j log' k) : Forward n i (log ++ log') k := by
  induction h with
  | done => exact h'
  | read hpos _ ih => exact .read hpos (ih h')
  | scan hpos _ ih => exact .scan hpos (ih h')
  | move hpos _ ih => exact .move hpos (ih h')

end Forward

namespace Cursor

variable {α β : Type}

/-- The parser goes forward and ends, and what it returns satisfies `P`. -/
def Safe (p : Cursor α) (s : Bytes) (i : Nat) (P : α → Nat → Prop) : Prop :=
  ∃ j, Forward s.length i (p s i).log j ∧
    Yields (p s i).result fun r => r.2 = j ∧ P r.1 j

namespace Safe

variable {p : Cursor α} {f : α → Cursor β} {s : Bytes} {i : Nat} {P R : α → Nat → Prop}
  {Q : β → Nat → Prop}

theorem pure {a : α} (hi : i ≤ s.length) (h : P a i) : Safe (Pure.pure a) s i P :=
  ⟨i, .done hi, rfl, h⟩

theorem throw (message : String) (hi : i ≤ s.length) : Safe (Cursor.throw message) s i P :=
  ⟨i, .done hi, trivial⟩

theorem mono (h : Safe p s i P) (hPR : ∀ a j, i ≤ j → j ≤ s.length → P a j → R a j) :
    Safe p s i R := by
  obtain ⟨j, hlog, hyields⟩ := h
  refine ⟨j, hlog, hyields.mono fun r hr => ⟨hr.1, ?_⟩⟩
  exact hPR r.1 j hlog.le.1 hlog.le.2 hr.2

/-- **Sequences** of parsers. -/
theorem bind (h : Safe p s i P)
    (hf : ∀ a j, i ≤ j → j ≤ s.length → P a j → Safe (f a) s j Q) : Safe (p >>= f) s i Q := by
  obtain ⟨j, hlog, hyields⟩ := h
  unfold Safe
  simp only [Bind.bind]
  match hr : (p s i).result with
  | .ok (a, k) =>
    rw [hr] at hyields
    obtain ⟨hk, hP⟩ := hyields
    change k = j at hk
    subst hk
    obtain ⟨l, hlog', hyields'⟩ := hf a k hlog.le.1 hlog.le.2 hP
    exact ⟨l, hlog.append hlog', hyields'⟩
  | .error (.threw message) => exact ⟨j, hlog, trivial⟩
  | .error .exhausted =>
    rw [hr] at hyields
    exact hyields.elim

/-- The parser returns or throws, and its accesses go forward. -/
theorem ok_or_threw (h : Safe p s i P) : (∃ j, Forward s.length i (p s i).log j) ∧
    ((∃ a j, (p s i).result = .ok (a, j) ∧ P a j) ∨
      ∃ message, (p s i).result = .error (.threw message)) := by
  obtain ⟨j, hlog, hyields⟩ := h
  refine ⟨⟨j, hlog⟩, hyields.ok_or_threw.imp_left ?_⟩
  rintro ⟨⟨a, k⟩, hr, hk, hP⟩
  change k = j at hk
  subst hk
  exact ⟨a, k, hr, hP⟩

/-! ## The primitives, in front of the rest of a parser -/

theorem idx {f : Nat → Cursor β} (h : Safe (f i) s i Q) : Safe (Cursor.idx >>= f) s i Q := h

theorem size {f : Nat → Cursor β} (h : Safe (f s.length) s i Q) : Safe (Cursor.size >>= f) s i Q :=
  h

theorem byteAt {f : UInt8 → Cursor β} {pos : Nat} (hpos : pos < s.length)
    (h : Safe (f (s[pos]?.getD 0)) s i Q) : Safe (Cursor.byteAt pos >>= f) s i Q := by
  obtain ⟨j, hlog, hyields⟩ := h
  exact ⟨j, .read hpos hlog, hyields⟩

theorem compareAt {f : Bool → Cursor β} {pos n : Nat} {pat : Bytes} (hpos : pos ≤ s.length)
    (h : Safe (f (decide ((s.drop pos).take n = pat))) s i Q) :
    Safe (Cursor.compareAt pos n pat >>= f) s i Q := by
  obtain ⟨j, hlog, hyields⟩ := h
  unfold Safe
  simp only [Bind.bind, Cursor.compareAt, if_pos hpos]
  exact ⟨j, .scan hpos hlog, hyields⟩

/-- What is found is inside the text. -/
theorem findFrom {f : Option Nat → Cursor β} {pos : Nat} {pat : Bytes} (hpos : pos ≤ s.length)
    (hnone : Safe (f none) s i Q)
    (hsome : ∀ q, pos ≤ q → q + pat.length ≤ s.length → Safe (f (some q)) s i Q) :
    Safe (Cursor.findFrom pat pos >>= f) s i Q := by
  have hrest : Safe (f ((find pat (s.drop pos)).map (pos + ·))) s i Q := by
    cases hfind : find pat (s.drop pos) with
    | none => exact hnone
    | some q =>
      have hlen := length_le_of_find hfind
      rw [List.length_drop] at hlen
      exact hsome (pos + q) (Nat.le_add_right pos q) (by omega)
  obtain ⟨j, hlog, hyields⟩ := hrest
  exact ⟨j, .scan hpos hlog, hyields⟩

theorem substr {f : Bytes → Cursor β} {pos n : Nat} (hpos : pos ≤ s.length)
    (h : Safe (f ((s.drop pos).take n)) s i Q) : Safe (Cursor.substr pos n >>= f) s i Q := by
  obtain ⟨j, hlog, hyields⟩ := h
  unfold Safe
  simp only [Bind.bind, Cursor.substr, if_pos hpos]
  exact ⟨j, .scan hpos hlog, hyields⟩

theorem moveTo {f : Unit → Cursor β} {pos : Nat} (hpos : i ≤ pos) (h : Safe (f ()) s pos Q) :
    Safe (Cursor.moveTo pos >>= f) s i Q := by
  obtain ⟨j, hlog, hyields⟩ := h
  exact ⟨j, .move hpos hlog, hyields⟩

theorem throwIf {f : Unit → Cursor β} {c : Bool} {message : String} (hi : i ≤ s.length)
    (h : c = false → Safe (f ()) s i Q) : Safe (Cursor.throwIf c message >>= f) s i Q := by
  cases c with
  | true => exact ⟨i, .done hi, trivial⟩
  | false => exact h rfl

/-- The check at the end of a parser. -/
theorem throwIf_last {c : Bool} {message : String} {P : Unit → Nat → Prop} (hi : i ≤ s.length)
    (h : c = false → P () i) : Safe (Cursor.throwIf c message) s i P := by
  cases c with
  | true => exact throw message hi
  | false => exact pure hi (h rfl)

/-- The byte that was looked at is inside the text. -/
theorem nextIs {f : Bool → Cursor β} {k : Nat} {q : UInt8 → Bool} (hi : i ≤ s.length)
    (hfalse : Safe (f false) s i Q)
    (htrue : i + k < s.length → q (s[i + k]?.getD 0) = true → Safe (f true) s i Q) :
    Safe (Cursor.nextIs k q >>= f) s i Q := by
  refine bind (P := fun b j => j = i ∧ (b = true → i + k < s.length ∧ q (s[i + k]?.getD 0) = true))
    (idx (size ?_)) ?_
  · split
    · next hlt => exact byteAt hlt (pure hi ⟨rfl, fun hq => ⟨hlt, hq⟩⟩)
    · exact pure hi ⟨rfl, nofun⟩
  · rintro b j - - ⟨rfl, hb⟩
    cases b with
    | false => exact hfalse
    | true => exact htrue (hb rfl).1 (hb rfl).2

theorem atEnd {f : Bool → Cursor β} (hend : s.length ≤ i → Safe (f true) s i Q)
    (hmore : i < s.length → Safe (f false) s i Q) : Safe (Cursor.atEnd >>= f) s i Q := by
  by_cases h : s.length ≤ i
  · have hrun : (Cursor.atEnd >>= f) s i = (f true s i) := by
      simp only [Bind.bind, Cursor.atEnd, Cursor.idx, Cursor.size, Pure.pure, decide_eq_true h,
        List.nil_append]
    unfold Safe
    rw [hrun]
    exact hend h
  · have hrun : (Cursor.atEnd >>= f) s i = (f false s i) := by
      simp only [Bind.bind, Cursor.atEnd, Cursor.idx, Cursor.size, Pure.pure, decide_eq_false h,
        List.nil_append]
    unfold Safe
    rw [hrun]
    exact hmore (by omega)

end Safe

end Cursor

end Avant.Lib
