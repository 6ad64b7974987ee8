import Mathlib.Data.List.Infix
import Mathlib.Data.List.TakeWhile

/-!
# Searching and splitting lists

`find pat s` is the position of the first occurrence of `pat` in `s`, as `std::string::find`
returns it. Searching for one element is cutting with `takeWhile` and `dropWhile`, into what stands
`before` it and `behind` it; splitting at a separator commutes with mapping.
-/

namespace Avant.Lib

variable {α β : Type} [DecidableEq α]

/-- The position of the first occurrence of `pat`. -/
def find (pat : List α) : List α → Option Nat
  | [] => if pat = [] then some 0 else none
  | a :: s => if pat <+: a :: s then some 0 else (find pat s).map (· + 1)

theorem find_eq_none {pat : List α} : ∀ {s : List α}, find pat s = none ↔ ¬ pat <:+: s
  | [] => by simp [find]
  | a :: s => by
    unfold find
    split
    · rename_i h
      simp [h.isInfix]
    · rename_i h
      rw [Option.map_eq_none_iff, find_eq_none, List.infix_cons_iff, not_or]
      exact ⟨fun hs => ⟨h, hs⟩, fun hs => hs.2⟩

variable {pat s : List α} {c : α}

theorem length_le_of_find {i : Nat} (h : find pat s = some i) : i + pat.length ≤ s.length := by
  induction s generalizing i with
  | nil =>
    unfold find at h
    split at h
    · rename_i hpat
      cases h
      simp [hpat]
    · simp at h
  | cons a s ih =>
    unfold find at h
    split at h
    · rename_i hpre
      cases h
      simpa using hpre.length_le
    · obtain ⟨j, hj, rfl⟩ := Option.map_eq_some_iff.mp h
      have := ih hj
      rw [List.length_cons]
      omega

/-- The first occurrence stays the first when more bytes follow. -/
theorem find_append {i : Nat} (h : find pat s = some i) (t : List α) :
    find pat (s ++ t) = some i := by
  induction s generalizing i with
  | nil =>
    unfold find at h
    split at h
    · rename_i hpat
      rw [hpat, ← Option.some.inj h]
      cases t <;> simp [find]
    · simp at h
  | cons a s ih =>
    unfold find at h
    rw [List.cons_append, find]
    split at h
    · rename_i hpre
      have hpre' : pat <+: a :: (s ++ t) := hpre.trans (List.prefix_append (a :: s) t)
      rw [if_pos hpre']
      exact h
    · rename_i hpre
      obtain ⟨j, hj, rfl⟩ := Option.map_eq_some_iff.mp h
      have hlen := length_le_of_find hj
      have hnot : ¬ pat <+: a :: (s ++ t) := by
        intro hp
        refine hpre (List.prefix_of_prefix_length_le hp (List.prefix_append (a :: s) t) ?_)
        rw [List.length_cons]
        omega
      rw [if_neg hnot, ih hj]
      rfl

theorem find_eq_zero : find pat s = some 0 ↔ pat <+: s := by
  cases s with
  | nil => simp [find]
  | cons a s =>
    unfold find
    split
    · rename_i hpre
      simp [hpre]
    · rename_i hpre
      simp [hpre]

theorem find_singleton_eq_none : find [c] s = none ↔ c ∉ s := by
  rw [find_eq_none, List.singleton_infix_iff]

theorem find_singleton_append {u v : List α} (h : c ∉ u) :
    find [c] (u ++ c :: v) = some u.length := by
  induction u with
  | nil => exact find_eq_zero.mpr ⟨v, rfl⟩
  | cons a u ih =>
    have hne : c ≠ a := fun hca => h (hca ▸ .head u)
    have hu : c ∉ u := fun hmem => h (.tail a hmem)
    have hpre : ¬ [c] <+: a :: (u ++ c :: v) := by
      rintro ⟨w, hw⟩
      exact hne (List.cons.inj hw).1
    rw [List.cons_append, find, if_neg hpre, ih hu]
    rfl

omit [DecidableEq α] in
theorem splitOnP_congr {p q : α → Bool} {l : List α} (h : ∀ a ∈ l, p a = q a) :
    l.splitOnP p = l.splitOnP q := by
  induction l with
  | nil => rfl
  | cons a l ih =>
    rw [List.splitOnP_cons_eq_if_modifyHead, List.splitOnP_cons_eq_if_modifyHead,
      h a List.mem_cons_self, ih fun b hb => h b (List.mem_cons_of_mem _ hb)]

omit [DecidableEq α] in
theorem mem_of_mem_splitOnP {p : α → Bool} {l seg : List α} (hseg : seg ∈ l.splitOnP p) :
    ∀ a ∈ seg, a ∈ l := by
  induction l generalizing seg with
  | nil =>
    obtain rfl : seg = [] := by simpa using hseg
    simp
  | cons b l ih =>
    rw [List.splitOnP_cons_eq_if_modifyHead] at hseg
    intro a ha
    split at hseg
    · obtain rfl | hseg := List.mem_cons.mp hseg
      · simp at ha
      · exact List.mem_cons_of_mem _ (ih hseg a ha)
    · cases hs : l.splitOnP p with
      | nil => exact absurd hs (List.splitOnP_ne_nil p l)
      | cons s ss =>
        rw [hs, List.modifyHead_cons, List.mem_cons] at hseg
        obtain rfl | hseg := hseg
        · obtain rfl | ha := List.mem_cons.mp ha
          · exact List.mem_cons_self
          · exact List.mem_cons_of_mem _ (ih (by simp [hs]) a ha)
        · exact List.mem_cons_of_mem _ (ih (by simp [hs, hseg]) a ha)

omit [DecidableEq α] in
theorem splitOnP_map (f : β → α) (p : α → Bool) (l : List β) :
    (l.map f).splitOnP p = (l.splitOnP fun b => p (f b)).map (List.map f) := by
  induction l with
  | nil => simp
  | cons b l ih =>
    rw [List.map_cons, List.splitOnP_cons_eq_if_modifyHead, List.splitOnP_cons_eq_if_modifyHead, ih]
    split
    · simp
    · cases (l.splitOnP fun b => p (f b)) <;> simp

/-! ## Cutting at the first occurrence of an element -/

/-- What stands before the first `c`, or everything. -/
def before (c : α) (s : List α) : List α := s.takeWhile (· ≠ c)

/-- What stands behind the first `c`, or nothing. -/
def behind (c : α) (s : List α) : List α := (s.dropWhile (· ≠ c)).drop 1

section Cut

variable {c : α} {s u v : List α}

/-- A list does not have `c`, or it is cut there. -/
theorem cut_cases (c : α) (s : List α) : c ∉ s ∨ ∃ u v, c ∉ u ∧ s = u ++ c :: v := by
  by_cases h : c ∈ s
  · obtain ⟨u, v, rfl, hu⟩ := List.eq_append_cons_of_mem h
    exact .inr ⟨u, v, hu, rfl⟩
  · exact .inl h

theorem forall_ne_of_notMem (h : c ∉ u) : ∀ a ∈ u, decide (a ≠ c) = true := by
  intro a ha
  rw [decide_eq_true_eq]
  rintro rfl
  exact h ha

theorem before_append_of_notMem (h : c ∉ u) : before c (u ++ s) = u ++ before c s :=
  List.takeWhile_append_of_pos (forall_ne_of_notMem h)

theorem behind_append_of_notMem (h : c ∉ u) : behind c (u ++ s) = behind c s := by
  unfold behind
  rw [List.dropWhile_append_of_pos (forall_ne_of_notMem h)]

theorem before_append (h : c ∉ u) : before c (u ++ c :: v) = u := by
  rw [before_append_of_notMem h, before, List.takeWhile_cons_of_neg (by simp), List.append_nil]

theorem behind_append (h : c ∉ u) : behind c (u ++ c :: v) = v := by
  rw [behind_append_of_notMem h, behind, List.dropWhile_cons_of_neg (by simp), List.drop_one,
    List.tail_cons]

theorem before_eq_self (h : c ∉ s) : before c s = s :=
  List.takeWhile_eq_self_iff.mpr (forall_ne_of_notMem h)

theorem behind_eq_nil (h : c ∉ s) : behind c s = [] := by
  rw [behind, List.dropWhile_eq_nil_iff.mpr (forall_ne_of_notMem h), List.drop_nil]

theorem notMem_before (c : α) (s : List α) : c ∉ before c s := by
  intro h
  simpa using List.mem_takeWhile_imp h

theorem before_eq_self_iff : before c s = s ↔ c ∉ s :=
  ⟨fun h => h ▸ notMem_before c s, before_eq_self⟩

/-- The element before which `find` stops. -/
theorem take_of_find {i : Nat} (h : find [c] s = some i) :
    s.take i = before c s ∧ s.drop i = s.dropWhile (· ≠ c) := by
  rcases cut_cases c s with hc | ⟨u, v, hu, rfl⟩
  · rw [find_singleton_eq_none.mpr hc] at h
    cases h
  · obtain rfl := Option.some.inj ((find_singleton_append hu).symm.trans h)
    rw [List.take_left, List.drop_left, before_append hu,
      List.dropWhile_append_of_pos (forall_ne_of_notMem hu),
      List.dropWhile_cons_of_neg (by simp)]
    exact ⟨rfl, rfl⟩

/-- Cutting at a `d` that stands before the first `c` leaves what stands behind that. -/
theorem before_behind {d : α} (h : d ∈ before c s) :
    before c (behind d s) = behind d (before c s) ∧ behind c (behind d s) = behind c s := by
  obtain ⟨u, v, hbefore, hu⟩ := List.eq_append_cons_of_mem h
  have hnot : c ∉ u ++ d :: v := hbefore ▸ notMem_before c s
  have hv : c ∉ v := fun hmem => hnot (List.mem_append_right u (.tail d hmem))
  have hs : s = (u ++ d :: v) ++ s.dropWhile (· ≠ c) := by
    rw [← hbefore]
    exact List.takeWhile_append_dropWhile.symm
  generalize s.dropWhile (· ≠ c) = r at hs
  subst hs
  -- nothing of the rest stands before its first `c`
  have hr : before c r = [] := by
    rw [before_append_of_notMem hnot, List.append_right_eq_self] at hbefore
    exact hbefore
  have hbehind : behind d (u ++ d :: v ++ r) = v ++ r := by
    rw [List.append_assoc, List.cons_append, behind_append hu]
  constructor
  · rw [hbehind, hbefore, behind_append hu, before_append_of_notMem hv, hr, List.append_nil]
  · rw [hbehind, behind_append_of_notMem hv, behind_append_of_notMem hnot]

theorem length_before_add_behind (c : α) (s : List α) :
    (before c s).length + (behind c s).length ≤ s.length ∧
      s.length ≤ (before c s).length + (behind c s).length + 1 := by
  rcases cut_cases c s with h | ⟨u, v, hu, rfl⟩
  · simp [before_eq_self h, behind_eq_nil h]
  · rw [before_append hu, behind_append hu, List.length_append, List.length_cons]
    omega

end Cut

end Avant.Lib
