import Mathlib.Algebra.Order.Archimedean.Basic
import Mathlib.Data.Int.Log
import Mathlib.Data.Rat.Floor
import Mathlib.Tactic.FieldSimp
import Mathlib.Tactic.Linarith
import Mathlib.Tactic.Positivity
import Avant.Lib.Halting

/-!
# Integers in doubles

Rounding to the 53 bits of a double (`round`: to nearest, ties to even, with an exponent that is
not bounded), and computations with whole numbers that are held in doubles. `Calc` is such a
computation: its result, and the numbers it computes on the way. A number is computed exactly and
then rounded; `math.floor` of a quotient is an operation of its own (`floorDiv`), since there the
number that is rounded is not whole; the operands of a quotient are doubles themselves.

* `round_int`: a whole number below `2 ^ 53` is not changed.
* `floor_round_div`: rounding a quotient does not change its floor, if the dividend is below
  `2 ^ 53`.
* `Yields`: a computation returns, what it returns satisfies a postcondition, and every number on
  the way was exact; with a rule for each operation and for sequences.
* `Yields.whole`: the numbers on the way are whole, apart from the quotients that are floored.
-/

namespace Avant.Lib.Binary64

/-! ## Rounding -/

/-- The nearest integer, the even one of two. -/
def roundEven (q : ℚ) : ℤ :=
  if q - ⌊q⌋ < 1 / 2 then ⌊q⌋
  else if 1 / 2 < q - ⌊q⌋ then ⌊q⌋ + 1
  else if ⌊q⌋ % 2 = 0 then ⌊q⌋ else ⌊q⌋ + 1

/-- The unit of the last of 53 bits. -/
def ulp (q : ℚ) : ℚ := 2 ^ (Int.log 2 |q| - 52)

/-- The nearest double. -/
def round (q : ℚ) : ℚ := roundEven (q / ulp q) * ulp q

theorem roundEven_int (n : ℤ) : roundEven n = n := by
  simp [roundEven]

theorem abs_roundEven_sub_le (q : ℚ) : |(roundEven q : ℚ) - q| ≤ 1 / 2 := by
  have hlo := Int.floor_le q
  have hhi := Int.lt_floor_add_one q
  unfold roundEven
  rw [abs_le]
  split_ifs <;> push_cast <;> constructor <;> linarith

theorem ulp_pos (q : ℚ) : 0 < ulp q := zpow_pos two_pos _

/-- The unit is small. -/
theorem ulp_le {q : ℚ} (hq : q ≠ 0) : ulp q ≤ |q| / 2 ^ 52 := by
  have hlog := Int.zpow_log_le_self (b := 2) one_lt_two (abs_pos.mpr hq)
  rw [ulp, zpow_sub₀ two_ne_zero]
  exact div_le_div_of_nonneg_right (by exact_mod_cast hlog) (by positivity)

/-- The relative error of a rounding. -/
theorem abs_round_sub_le (q : ℚ) : |round q - q| ≤ |q| / 2 ^ 53 := by
  by_cases hq : q = 0
  · subst hq
    have hzero : round 0 = 0 := by
      have := roundEven_int 0
      simp only [Int.cast_zero] at this
      simp [round, this]
    simp [hzero]
  · have hpos := ulp_pos q
    have hround : round q - q = (roundEven (q / ulp q) - q / ulp q) * ulp q := by
      rw [round, sub_mul, div_mul_cancel₀ _ hpos.ne']
    have herr := abs_roundEven_sub_le (q / ulp q)
    have hulp := ulp_le hq
    rw [hround, abs_mul, abs_of_pos hpos]
    calc |(roundEven (q / ulp q) : ℚ) - q / ulp q| * ulp q ≤ 1 / 2 * ulp q :=
          mul_le_mul_of_nonneg_right herr hpos.le
      _ ≤ |q| / 2 ^ 53 := by linarith

theorem round_le {q : ℚ} (h : 0 ≤ q) : round q ≤ q + q / 2 ^ 53 := by
  have herr := (abs_le.mp (abs_round_sub_le q)).2
  rw [abs_of_nonneg h] at herr
  linarith

theorem le_round {q : ℚ} (h : 0 ≤ q) : q - q / 2 ^ 53 ≤ round q := by
  have herr := (abs_le.mp (abs_round_sub_le q)).1
  rw [abs_of_nonneg h] at herr
  linarith

theorem round_nonneg {q : ℚ} (h : 0 ≤ q) : 0 ≤ round q := by
  have hle := le_round h
  linarith

/-- A multiple of the unit is a double. -/
theorem round_of_dvd {q : ℚ} {n : ℤ} (h : q = n * ulp q) : round q = q := by
  have hdiv : q / ulp q = n := (div_eq_iff (ulp_pos q).ne').mpr h
  rw [round, hdiv, roundEven_int, ← h]

/-- **A whole number below `2 ^ 53` is a double.** -/
theorem round_int {n : ℤ} (hn : |n| < 2 ^ 53) : round n = n := by
  by_cases h0 : n = 0
  · subst h0
    have := abs_round_sub_le ((0 : ℤ) : ℚ)
    simpa using this
  · have hpos : 0 < |(n : ℚ)| := abs_pos.mpr (by exact_mod_cast h0)
    -- the unit is two to a power that is not positive, so that it divides the number
    have hlog : Int.log 2 |(n : ℚ)| < 53 := by
      rw [← Int.lt_zpow_iff_log_lt one_lt_two hpos]
      exact_mod_cast hn
    have hpow : ulp (n : ℚ) * 2 ^ (52 - Int.log 2 |(n : ℚ)|).toNat = 1 := by
      rw [ulp, ← zpow_natCast, ← zpow_add₀ two_ne_zero, Int.toNat_of_nonneg (by omega)]
      simp
    refine round_of_dvd (n := n * 2 ^ (52 - Int.log 2 |(n : ℚ)|).toNat) ?_
    push_cast
    rw [mul_assoc, mul_comm _ (ulp _), hpow, mul_one]

/-- **Rounding a quotient does not change its floor.** -/
theorem floor_round_div {x y : ℤ} (hx : 0 ≤ x) (hlt : x < 2 ^ 53) (hy : 0 < y) :
    ⌊round ((x : ℚ) / y)⌋ = x / y := by
  have hyq : (0 : ℚ) < y := by exact_mod_cast hy
  have hxq : (0 : ℚ) ≤ x := by exact_mod_cast hx
  have hxlt : (x : ℚ) < 2 ^ 53 := by exact_mod_cast hlt
  have hmod := Int.emod_add_mul_ediv x y
  have hnonneg := Int.emod_nonneg x hy.ne'
  have hless := Int.emod_lt_of_pos x hy
  have hquot : (x : ℚ) / y = (x / y : ℤ) + (x % y : ℤ) / y := by
    field_simp
    exact_mod_cast (by linarith : x = x % y + y * (x / y)).trans (by ring)
  by_cases hdvd : x % y = 0
  · have hle : x / y ≤ x := Int.ediv_le_self y hx
    have hge : 0 ≤ x / y := Int.ediv_nonneg hx hy.le
    rw [hquot, hdvd, Int.cast_zero, zero_div, add_zero, round_int (by rw [abs_lt]; omega),
      Int.floor_intCast]
  · -- the error is less than `1 / y`, the distance to the whole numbers around the quotient
    have herr := abs_round_sub_le ((x : ℚ) / y)
    have hsmall : |(x : ℚ) / y| / 2 ^ 53 < 1 / y := by
      rw [abs_of_nonneg (by positivity), div_div, div_lt_div_iff₀ (by positivity) hyq]
      nlinarith
    have habs := abs_le.mp (herr.trans hsmall.le)
    have hone : (1 : ℚ) / y ≤ (x % y : ℤ) / y := by
      have : (1 : ℚ) ≤ (x % y : ℤ) := by exact_mod_cast (by omega : 1 ≤ x % y)
      gcongr
    have htop : ((x % y : ℤ) : ℚ) / y + 1 / y ≤ 1 := by
      rw [← add_div, div_le_one hyq]
      exact_mod_cast hless
    have hstrict := abs_lt.mp (herr.trans_lt hsmall)
    rw [Int.floor_eq_iff]
    constructor <;> linarith

/-! ## Computations -/

/-- A number a computation arrives at: a whole one, or the quotient of two whole ones. -/
inductive Computed
  | number (x : ℤ)
  | quotient (x y : ℤ)
  deriving DecidableEq

namespace Computed

/-- The number as a double. -/
def value : Computed → ℚ
  | .number x => round x
  | .quotient x y => round (round x / round y)

/-- A whole number that a double holds; a quotient whose rounding has the right floor. -/
def Exact : Computed → Prop
  | .number x => |x| < 2 ^ 53
  | .quotient x y => ⌊round (round x / round y)⌋ = x / y

/-- A whole number that a double holds. -/
def Whole (c : Computed) : Prop := ∃ n : ℤ, |n| < 2 ^ 53 ∧ c.value = n

/-- A quotient is one by a number of `D`. -/
def DividesBy (D : Set ℤ) : Computed → Prop
  | .number _ => True
  | .quotient _ y => y ∈ D

theorem Exact.whole {x : ℤ} (h : (number x).Exact) : (number x).Whole := ⟨x, h, round_int h⟩

theorem Exact.cases {c : Computed} (h : c.Exact) {D : Set ℤ} (hD : c.DividesBy D) :
    c.Whole ∨ ∃ x, ∃ y ∈ D, c = .quotient x y ∧ ⌊c.value⌋ = x / y := by
  cases c with
  | number x => exact .inl h.whole
  | quotient x y => exact .inr ⟨x, y, hD, rfl, h⟩

/-- A quotient is not negative, and less than the dividend. -/
theorem quotient_bounds {x y : ℤ} (hx : 0 < x) (hy : 2 ≤ y) (hy' : y < 2 ^ 53) :
    0 ≤ ⌊(quotient x y).value⌋ ∧ ⌊(quotient x y).value⌋ < x := by
  have hxq : (0 : ℚ) < x := by exact_mod_cast hx
  have hyq : (2 : ℚ) ≤ y := by exact_mod_cast hy
  have hround : round (y : ℚ) = y := round_int (by rw [abs_lt]; omega)
  have hnum := round_nonneg hxq.le
  have hnum' := round_le hxq.le
  have hquot : 0 ≤ round x / (y : ℚ) := div_nonneg hnum (by linarith)
  have hhalf : round x / (y : ℚ) ≤ round x / 2 := div_le_div_of_nonneg_left hnum two_pos hyq
  rw [value, hround, Int.floor_lt, Int.floor_nonneg]
  refine ⟨round_nonneg hquot, ?_⟩
  have hle := round_le hquot
  linarith

theorem exact_quotient {x y : ℤ} (hx : 0 ≤ x) (hlt : x < 2 ^ 53) (hy : 0 < y) (hy' : y < 2 ^ 53) :
    (quotient x y).Exact := by
  rw [Exact, round_int (by rw [abs_lt]; omega), round_int (by rw [abs_lt]; omega),
    floor_round_div hx hlt hy]

end Computed

/-- What a computation returns, and the numbers on the way. -/
structure Calc (α : Type) where
  result : Except Stop α
  log : List Computed

variable {α β : Type}

namespace Calc

instance : Monad Calc where
  pure a := ⟨.ok a, []⟩
  bind m f :=
    match m.result with
    | .ok a => ⟨(f a).result, m.log ++ (f a).log⟩
    | .error e => ⟨.error e, m.log⟩

/-- `error(message)` -/
def raise (message : String) : Calc α := ⟨.error (.threw message), []⟩

/-- The turns of a loop are used up. -/
def exhausted : Calc α := ⟨.error .exhausted, []⟩

/-- The result of an arithmetic operation. -/
def number (x : ℤ) : Calc ℤ := ⟨.ok ⌊round (x : ℚ)⌋, [.number x]⟩

def add (x y : ℤ) : Calc ℤ := number (x + y)

def sub (x y : ℤ) : Calc ℤ := number (x - y)

def mul (x y : ℤ) : Calc ℤ := number (x * y)

/-- The remainder with the sign of the divisor. -/
def mod (x y : ℤ) : Calc ℤ := number (Int.fmod x y)

/-- The floor of a quotient. -/
def floorDiv (x y : ℤ) : Calc ℤ :=
  ⟨.ok ⌊(Computed.quotient x y).value⌋,
    [.quotient x y, .number ⌊(Computed.quotient x y).value⌋]⟩

/-- The computation returns, and its result satisfies `P`. -/
def Returns (m : Calc α) (P : α → Prop) : Prop := ∃ a, m.result = .ok a ∧ P a

/-- The computation returns, its result satisfies `P`, and the numbers on the way are exact. -/
def Yields (m : Calc α) (P : α → Prop) : Prop :=
  ∃ a, m.result = .ok a ∧ P a ∧ ∀ c ∈ m.log, c.Exact

variable {m : Calc α} {f : α → Calc β} {P Q : α → Prop} {R : β → Prop}

theorem Returns.pure {a : α} (h : P a) : Returns (Pure.pure a) P := ⟨a, rfl, h⟩

theorem Returns.mono (h : m.Returns P) (hPQ : ∀ a, P a → Q a) : m.Returns Q := by
  obtain ⟨a, hres, ha⟩ := h
  exact ⟨a, hres, hPQ a ha⟩

theorem Returns.bind (h : m.Returns P) (hf : ∀ a, P a → (f a).Returns R) :
    (m >>= f).Returns R := by
  obtain ⟨a, hres, ha⟩ := h
  obtain ⟨b, hb, hR⟩ := hf a ha
  refine ⟨b, ?_, hR⟩
  simp only [Bind.bind, hres, hb]

variable {c : Prop} {m' : Calc α} {x y : ℤ}

theorem Returns.ite [Decidable c] (h : c → m.Returns P) (h' : ¬ c → m'.Returns P) :
    (if c then m else m').Returns P := by
  split
  · next hc => exact h hc
  · next hc => exact h' hc

theorem Returns.floorDiv (x y : ℤ) :
    (Calc.floorDiv x y).Returns (· = ⌊(Computed.quotient x y).value⌋) := ⟨_, rfl, rfl⟩

theorem Yields.returns (h : m.Yields P) : m.Returns P := by
  obtain ⟨a, hres, ha, -⟩ := h
  exact ⟨a, hres, ha⟩

theorem Yields.pure {a : α} (h : P a) : Yields (Pure.pure a) P := ⟨a, rfl, h, by simp [Pure.pure]⟩

theorem Yields.mono (h : m.Yields P) (hPQ : ∀ a, P a → Q a) : m.Yields Q := by
  obtain ⟨a, hres, ha, hlog⟩ := h
  exact ⟨a, hres, hPQ a ha, hlog⟩

/-- **Sequences** of computations. -/
theorem Yields.bind (h : m.Yields P) (hf : ∀ a, P a → (f a).Yields R) : (m >>= f).Yields R := by
  obtain ⟨a, hres, ha, hlog⟩ := h
  obtain ⟨b, hb, hR, hlog'⟩ := hf a ha
  refine ⟨b, ?_, hR, ?_⟩
  · simp only [Bind.bind, hres, hb]
  · simp only [Bind.bind, hres, List.forall_mem_append]
    exact ⟨hlog, hlog'⟩

/-- A sequence whose first part returns one value. -/
theorem Yields.andThen {a : α} (h : m.Yields (· = a)) (hf : (f a).Yields R) : (m >>= f).Yields R :=
  h.bind fun _ ha => ha ▸ hf

theorem Yields.ite [Decidable c] (h : c → m.Yields P) (h' : ¬ c → m'.Yields P) :
    (if c then m else m').Yields P := by
  split
  · next hc => exact h hc
  · next hc => exact h' hc

theorem Yields.number (h : |x| < 2 ^ 53) : (Calc.number x).Yields (· = x) :=
  ⟨_, rfl, by rw [round_int h, Int.floor_intCast], by simpa [Calc.number, Computed.Exact] using h⟩

theorem Yields.add (h : |x + y| < 2 ^ 53) : (Calc.add x y).Yields (· = x + y) :=
  .number h

theorem Yields.sub (h : |x - y| < 2 ^ 53) : (Calc.sub x y).Yields (· = x - y) :=
  .number h

theorem Yields.mul (h : |x * y| < 2 ^ 53) : (Calc.mul x y).Yields (· = x * y) :=
  .number h

theorem Yields.mod (hy : 0 < y) (hlt : y < 2 ^ 53) : (Calc.mod x y).Yields (· = x % y) := by
  have hnonneg := Int.emod_nonneg x hy.ne'
  have hless := Int.emod_lt_of_pos x hy
  rw [Calc.mod, Int.fmod_eq_emod_of_nonneg x hy.le]
  exact .number (by rw [abs_lt]; omega)

theorem Yields.floorDiv (hx : 0 ≤ x) (hlt : x < 2 ^ 53) (hy : 0 < y) (hy' : y < 2 ^ 53) :
    (Calc.floorDiv x y).Yields (· = x / y) := by
  have hexact := Computed.exact_quotient hx hlt hy hy'
  have hfloor : ⌊(Computed.quotient x y).value⌋ = x / y := hexact
  have hle : x / y ≤ x := Int.ediv_le_self y hx
  have hge : 0 ≤ x / y := Int.ediv_nonneg hx hy.le
  have hnumber : (Computed.number (x / y)).Exact := by
    rw [Computed.Exact, abs_lt]
    omega
  refine ⟨_, rfl, hfloor, ?_⟩
  simp only [Calc.floorDiv, hfloor, List.forall_mem_cons]
  exact ⟨hexact, hnumber, List.forall_mem_nil _⟩

/-! ## Divisors -/

/-- All quotients on the way are quotients by numbers of `D`. -/
def DividesBy (D : Set ℤ) (m : Calc α) : Prop := ∀ c ∈ m.log, c.DividesBy D

variable {D : Set ℤ}

theorem DividesBy.pure (a : α) : DividesBy D (Pure.pure a : Calc α) := List.forall_mem_nil _

theorem DividesBy.raise (message : String) : DividesBy D (Calc.raise message : Calc α) :=
  List.forall_mem_nil _

theorem DividesBy.number (x : ℤ) : (Calc.number x).DividesBy D :=
  List.forall_mem_singleton.mpr trivial

theorem DividesBy.floorDiv (x : ℤ) (h : y ∈ D) : (Calc.floorDiv x y).DividesBy D :=
  List.forall_mem_cons.mpr ⟨h, List.forall_mem_singleton.mpr trivial⟩

theorem DividesBy.bind (h : m.DividesBy D) (hf : ∀ a, (f a).DividesBy D) :
    (m >>= f).DividesBy D := by
  unfold DividesBy
  simp only [Bind.bind]
  split
  · next a _ => exact List.forall_mem_append.mpr ⟨h, hf a⟩
  · exact h

theorem DividesBy.ite [Decidable c] (h : m.DividesBy D) (h' : m'.DividesBy D) :
    (if c then m else m').DividesBy D := by
  split
  · exact h
  · exact h'

theorem DividesBy.mono {D' : Set ℤ} (h : m.DividesBy D) (hD : D ⊆ D') : m.DividesBy D' := by
  intro c hc
  have hby := h c hc
  cases c with
  | number x => trivial
  | quotient x y => exact hD hby

/-- The numbers of a computation that divides by numbers of `D`. -/
theorem Yields.whole (h : m.Yields P) (hD : m.DividesBy D) :
    ∀ c ∈ m.log, c.Whole ∨ ∃ x, ∃ y ∈ D, c = .quotient x y ∧ ⌊c.value⌋ = x / y := by
  obtain ⟨-, -, -, hlog⟩ := h
  exact fun c hc => (hlog c hc).cases (hD c hc)

end Calc

end Avant.Lib.Binary64
