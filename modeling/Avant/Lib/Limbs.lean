import Mathlib.Algebra.Order.Ring.Int
import Mathlib.Data.List.Induction
import Mathlib.Data.Sign.Basic
import Mathlib.Tactic.Linarith
import Mathlib.Tactic.Positivity
import Mathlib.Tactic.Ring

/-!
# Numbers as lists of digits

Lists of digits to a base `B`, the lowest digit first, with the digits in integers as a program
holds them. `Trimmed` lists have no zero at the high end, apart from the list of a single zero.

* `val_lt`, `le_val`: the value of a list is below the weight behind its digits, and not below the
  weight of a highest digit that is not zero.
* `val_drop`: digits off the low end divide by a power of the base.
* `val_trimLoop`, `trimmed_trimLoop`: taking zeros off the high end.
* `compareLoop_eq`: comparison digit by digit from the high end is comparison of the values.
* `Trimmed.eq_of_val`: a trimmed list of digits is determined by its value.
-/

namespace Avant.Lib.Limbs

variable {B : ℤ} {xs ys : List ℤ}

/-- The value of the digits. -/
def val (B : ℤ) : List ℤ → ℤ
  | [] => 0
  | c :: cs => c + B * val B cs

/-- Digits to the base `B`. -/
def Digits (B : ℤ) (cs : List ℤ) : Prop := ∀ c ∈ cs, 0 ≤ c ∧ c < B

/-- No zero at the high end, unless it is the only digit. -/
def Trimmed (cs : List ℤ) : Prop := cs ≠ [] ∧ (cs.length ≠ 1 → cs.getLast? ≠ some 0)

instance (B : ℤ) (cs : List ℤ) : Decidable (Digits B cs) :=
  inferInstanceAs (Decidable (∀ c ∈ cs, 0 ≤ c ∧ c < B))

instance (cs : List ℤ) : Decidable (Trimmed cs) :=
  inferInstanceAs (Decidable (cs ≠ [] ∧ (cs.length ≠ 1 → cs.getLast? ≠ some 0)))

@[simp] theorem val_nil : val B [] = 0 := rfl

@[simp] theorem val_cons (c : ℤ) (cs : List ℤ) : val B (c :: cs) = c + B * val B cs := rfl

theorem val_append (xs ys : List ℤ) : val B (xs ++ ys) = val B xs + B ^ xs.length * val B ys := by
  induction xs with
  | nil => simp
  | cons x xs ih =>
    rw [List.cons_append, val_cons, ih, val_cons, List.length_cons, pow_succ]
    ring

theorem val_concat (xs : List ℤ) (x : ℤ) : val B (xs ++ [x]) = val B xs + B ^ xs.length * x := by
  rw [val_append, val_cons, val_nil, mul_zero, add_zero]

theorem val_replicate_zero (n : ℕ) : val B (List.replicate n 0) = 0 := by
  induction n with
  | zero => rfl
  | succ n ih => rw [List.replicate_succ, val_cons, ih, mul_zero, add_zero]

variable {cs : List ℤ} {x : ℤ}

theorem Digits.cons {c : ℤ} : Digits B (c :: cs) ↔ (0 ≤ c ∧ c < B) ∧ Digits B cs :=
  List.forall_mem_cons

theorem Digits.append : Digits B (xs ++ ys) ↔ Digits B xs ∧ Digits B ys :=
  List.forall_mem_append

theorem Digits.concat : Digits B (xs ++ [x]) ↔ Digits B xs ∧ 0 ≤ x ∧ x < B := by
  rw [Digits.append]
  exact and_congr_right fun _ => List.forall_mem_singleton

theorem Digits.reverse : Digits B xs.reverse ↔ Digits B xs := by
  simp only [Digits, List.mem_reverse]

theorem Digits.nil : Digits B [] := List.forall_mem_nil _

theorem Digits.replicate_zero (hB : 0 < B) (n : ℕ) : Digits B (List.replicate n 0) := by
  intro c hc
  rw [List.eq_of_mem_replicate hc]
  exact ⟨le_refl 0, hB⟩

/-! ## Bounds -/

theorem Digits.base_pos (h : Digits B xs) (hne : xs ≠ []) : 0 < B := by
  obtain ⟨x, hx⟩ := List.exists_mem_of_ne_nil xs hne
  obtain ⟨hlo, hhi⟩ := h x hx
  exact lt_of_le_of_lt hlo hhi

theorem val_nonneg (h : Digits B xs) : 0 ≤ val B xs := by
  induction xs with
  | nil => exact le_refl 0
  | cons x xs ih =>
    obtain ⟨⟨hlo, hhi⟩, hxs⟩ := Digits.cons.mp h
    have hB : 0 ≤ B := hlo.trans hhi.le
    have hmul := mul_nonneg hB (ih hxs)
    rw [val_cons]
    omega

theorem val_lt (h : Digits B xs) : val B xs < B ^ xs.length := by
  induction xs with
  | nil => simp
  | cons x xs ih =>
    obtain ⟨⟨hlo, hhi⟩, hxs⟩ := Digits.cons.mp h
    have hB : 0 < B := lt_of_le_of_lt hlo hhi
    have hle : val B xs + 1 ≤ B ^ xs.length := ih hxs
    calc val B (x :: xs) < B + B * val B xs := by rw [val_cons]; omega
      _ = B * (val B xs + 1) := by ring
      _ ≤ B * B ^ xs.length := mul_le_mul_of_nonneg_left hle hB.le
      _ = B ^ (x :: xs).length := by rw [List.length_cons, pow_succ]; ring

/-- A highest digit that is not zero. -/
theorem le_val (h : Digits B (xs ++ [x])) (hx : x ≠ 0) : B ^ xs.length ≤ val B (xs ++ [x]) := by
  obtain ⟨hxs, hlo, hhi⟩ := Digits.concat.mp h
  have hB : 0 < B := lt_of_le_of_lt hlo hhi
  have hpow : 0 < B ^ xs.length := pow_pos hB _
  have hone : 1 ≤ x := by omega
  rw [val_concat]
  have := val_nonneg hxs
  nlinarith

theorem trimmed_singleton (c : ℤ) : Trimmed [c] := ⟨by simp, by simp⟩

theorem trimmed_concat (hx : x ≠ 0) : Trimmed (xs ++ [x]) := by
  refine ⟨by simp, fun _ => ?_⟩
  rw [List.getLast?_concat]
  simpa using hx

/-- A trimmed list is a single digit or has a highest digit that is not zero. -/
theorem Trimmed.cases (h : Trimmed xs) :
    (∃ c, xs = [c]) ∨ ∃ ys y, xs = ys ++ [y] ∧ y ≠ 0 := by
  obtain ⟨hne, hlast⟩ := h
  by_cases hlen : xs.length = 1
  · exact .inl (List.length_eq_one_iff.mp hlen)
  · right
    induction xs using List.reverseRecOn with
    | nil => exact absurd rfl hne
    | append_singleton ys y =>
      refine ⟨ys, y, rfl, ?_⟩
      rintro rfl
      exact hlast hlen (List.getLast?_concat ..)

/-- Only the list of a single zero has the value zero. -/
theorem Trimmed.val_eq_zero (h : Trimmed xs) (hd : Digits B xs) : val B xs = 0 ↔ xs = [0] := by
  constructor
  · intro hval
    rcases h.cases with ⟨c, rfl⟩ | ⟨ys, y, rfl, hy⟩
    · simpa using hval
    · have hle := le_val hd hy
      have hB := hd.base_pos (by simp)
      have hpow : 0 < B ^ ys.length := pow_pos hB _
      omega
  · rintro rfl
    simp

/-- More digits, a larger number. -/
theorem val_lt_of_length_lt (hx : Digits B xs) (hy : Digits B ys) (hty : Trimmed ys)
    (hne : xs ≠ []) (hlen : xs.length < ys.length) : val B xs < val B ys := by
  rcases hty.cases with ⟨c, rfl⟩ | ⟨zs, z, rfl, hz⟩
  · have hpos := List.length_pos_of_ne_nil hne
    rw [List.length_singleton] at hlen
    omega
  · have hB := hy.base_pos (by simp)
    rw [List.length_append, List.length_singleton] at hlen
    calc val B xs < B ^ xs.length := val_lt hx
      _ ≤ B ^ zs.length := pow_le_pow_right₀ hB (by omega)
      _ ≤ val B (zs ++ [z]) := le_val hy hz

/-- A list of digits that is as long as its value says. -/
theorem trimmed_of_le {n : ℕ} (hd : Digits B xs) (hlen : xs.length = n + 1)
    (hle : B ^ n ≤ val B xs) : Trimmed xs := by
  induction xs using List.reverseRecOn with
  | nil => simp at hlen
  | append_singleton xs x _ =>
    rw [List.length_append, List.length_singleton, Nat.add_right_cancel_iff] at hlen
    refine trimmed_concat ?_
    rintro rfl
    have hlt := val_lt (Digits.append.mp hd).1
    rw [val_concat, mul_zero, add_zero] at hle
    rw [hlen] at hlt
    omega

/-! ## Taking digits off the low end -/

theorem val_drop (h : Digits B xs) (hB : 0 < B) (k : ℕ) :
    val B (xs.drop k) = val B xs / B ^ k := by
  induction k generalizing xs with
  | zero => simp
  | succ k ih =>
    cases xs with
    | nil => simp
    | cons x xs =>
      obtain ⟨⟨hlo, hhi⟩, hxs⟩ := Digits.cons.mp h
      have hdiv : val B (x :: xs) / B = val B xs := by
        rw [val_cons, Int.add_mul_ediv_left _ _ hB.ne', Int.ediv_eq_zero_of_lt hlo hhi, zero_add]
      rw [List.drop_succ_cons, ih hxs, pow_succ', ← Int.ediv_ediv_of_nonneg hB.le, hdiv]

theorem Trimmed.drop (h : Trimmed xs) {k : ℕ} (hk : k < xs.length) : Trimmed (xs.drop k) := by
  have hlen : (xs.drop k).length = xs.length - k := List.length_drop
  refine ⟨fun hnil => ?_, fun hne => ?_⟩
  · rw [hnil, List.length_nil] at hlen
    omega
  · rw [List.getLast?_drop, if_neg (by omega)]
    exact h.2 (by omega)

/-! ## Taking zeros off the high end -/

/-- Takes zeros off the front of a list with the highest digit first, up to the last digit. -/
def trimLoop : List ℤ → List ℤ
  | c :: d :: cs => if c = 0 then trimLoop (d :: cs) else c :: d :: cs
  | cs => cs

theorem val_trimLoop (cs : List ℤ) : val B (trimLoop cs).reverse = val B cs.reverse := by
  fun_induction trimLoop cs with
  | case1 d cs ih => rw [ih, List.reverse_cons (a := 0), val_concat, mul_zero, add_zero]
  | case2 => rfl
  | case3 => rfl

theorem trimLoop_sublist (cs : List ℤ) : (trimLoop cs).Sublist cs := by
  fun_induction trimLoop cs with
  | case1 d cs ih => exact ih.cons _
  | case2 => exact .refl _
  | case3 => exact .refl _

theorem Digits.trimLoop (h : Digits B cs) : Digits B (trimLoop cs) :=
  fun c hc => h c ((trimLoop_sublist cs).subset hc)

theorem trimmed_trimLoop (h : cs ≠ []) : Trimmed (trimLoop cs).reverse := by
  fun_induction trimLoop cs with
  | case1 d cs ih => exact ih (by simp)
  | case2 c d cs hc =>
    rw [List.reverse_cons]
    exact trimmed_concat hc
  | case3 cs hcs =>
    match cs, h, hcs with
    | [c], _, _ => exact trimmed_singleton c
    | c :: d :: cs, _, hcs => exact absurd rfl (hcs c d cs)

/-! ## Comparison -/

/-- Compares lists with the highest digit first. -/
def compareLoop : List ℤ → List ℤ → ℤ
  | x :: xs, y :: ys => if x > y then 1 else if x < y then -1 else compareLoop xs ys
  | _, _ => 0

/-- A higher digit decides. -/
theorem val_concat_lt {y : ℤ} (hx : Digits B xs) (hy : Digits B ys) (hlen : xs.length = ys.length)
    (hB : 0 < B) (hlt : x < y) : val B (xs ++ [x]) < val B (ys ++ [y]) := by
  have hxs := val_lt hx
  have hys := val_nonneg hy
  have hpow : 0 < B ^ ys.length := pow_pos hB _
  rw [val_concat, val_concat]
  rw [hlen] at hxs ⊢
  nlinarith

theorem compareLoop_eq (hx : Digits B xs) (hy : Digits B ys) (hlen : xs.length = ys.length) :
    compareLoop xs ys = Int.sign (val B xs.reverse - val B ys.reverse) := by
  induction xs generalizing ys with
  | nil =>
    obtain rfl := List.length_eq_zero_iff.mp hlen.symm
    rfl
  | cons x xs ih =>
    obtain ⟨y, ys, rfl⟩ := List.exists_cons_of_length_eq_add_one hlen.symm
    obtain ⟨⟨hxlo, hxhi⟩, hxs⟩ := Digits.cons.mp hx
    have hB : 0 < B := lt_of_le_of_lt hxlo hxhi
    obtain ⟨-, hys⟩ := Digits.cons.mp hy
    have hlen' : xs.length = ys.length := by simpa using hlen
    rw [List.reverse_cons, List.reverse_cons, compareLoop]
    split
    · next hgt =>
      have := val_concat_lt (Digits.reverse.mpr hys) (Digits.reverse.mpr hxs)
        (by simpa using hlen'.symm) hB hgt
      exact (Int.sign_eq_one_of_pos (by omega)).symm
    · split
      · next hlt =>
        have := val_concat_lt (Digits.reverse.mpr hxs) (Digits.reverse.mpr hys)
          (by simpa using hlen') hB hlt
        exact (Int.sign_eq_neg_one_of_neg (by omega)).symm
      · next hgt hlt =>
        obtain rfl : x = y := by omega
        rw [ih hxs hys hlen', val_concat, val_concat, List.length_reverse, List.length_reverse,
          hlen']
        congr 1
        ring

/-- **A trimmed list of digits is determined by its value.** -/
theorem Trimmed.eq_of_val (htx : Trimmed xs) (hty : Trimmed ys) (hx : Digits B xs)
    (hy : Digits B ys) (h : val B xs = val B ys) : xs = ys := by
  have hlen : xs.length = ys.length := by
    rcases Nat.lt_trichotomy xs.length ys.length with hlt | heq | hgt
    · exact absurd h (val_lt_of_length_lt hx hy hty htx.1 hlt).ne
    · exact heq
    · exact absurd h.symm (val_lt_of_length_lt hy hx htx hty.1 hgt).ne
  clear htx hty
  induction xs generalizing ys with
  | nil => exact (List.length_eq_zero_iff.mp hlen.symm).symm
  | cons x xs ih =>
    obtain ⟨y, ys, rfl⟩ := List.exists_cons_of_length_eq_add_one hlen.symm
    obtain ⟨⟨hxlo, hxhi⟩, hxs⟩ := Digits.cons.mp hx
    obtain ⟨⟨hylo, hyhi⟩, hys⟩ := Digits.cons.mp hy
    rw [val_cons, val_cons] at h
    have hmod : x = y := by
      have hxm := Int.add_mul_emod_self_left x B (val B xs)
      rw [h, Int.add_mul_emod_self_left, Int.emod_eq_of_lt hylo hyhi,
        Int.emod_eq_of_lt hxlo hxhi] at hxm
      exact hxm.symm
    subst hmod
    have hB : B ≠ 0 := by omega
    have hval : val B xs = val B ys := mul_left_cancel₀ hB (add_left_cancel h)
    rw [ih hxs hys hval (by simpa using hlen)]

end Avant.Lib.Limbs
