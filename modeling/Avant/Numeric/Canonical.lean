import Avant.Numeric.Power
import Avant.Numeric.Shift

/-!
# Canonical big integers and their order

Computations with big integers, as steps: each reads numerals or applies an operation to values
that were obtained before. `Step.spec` says what one step does to canonical operands: its result is
canonical exactly if the step `Keeps` the form. Signs are set behind `Trim` in `__add`, so that a
zero can be negative; `FromString`, `__unm` and with more than one chunk `__mod` do not look at
zero either, and `ShiftLeft` puts zero chunks below a zero. Products and quotients are trimmed.

* `obtained_canonical`: what is obtained by steps that keep the form is canonical, and `==`, `<`
  and `<=` on such values are those of the integers; a step that does not keep it gives a value
  that is not canonical.
* `not_obtained_canonical`: `(-5) + 5` is not equal to `0`.
-/

namespace Avant.Numeric

open Avant.Lib Avant.Lib.Binary64 Avant.Lib.Limbs

/-- An operation with its operands. -/
inductive Step
  | new (s sign digits : Bytes)
  | add (x y : BigInt)
  | sub (x y : BigInt)
  | mul (x y : BigInt)
  | div (x y : BigInt)
  | mod (x y : BigInt)
  | unm (x : BigInt)
  | pow (x : BigInt) (exp : ℤ)
  | abs (x : BigInt)
  | gcd (x y : BigInt)
  | shiftLeft (x : BigInt) (n : ℤ)
  | shiftRight (x : BigInt) (n : ℤ)

namespace Step

/-- The big integers a step is applied to. -/
def operands : Step → List BigInt
  | .new .. => []
  | .add x y | .sub x y | .mul x y | .div x y | .mod x y | .gcd x y => [x, y]
  | .unm x | .abs x | .pow x _ | .shiftLeft x _ | .shiftRight x _ => [x]

def run : Step → Calc BigInt
  | .new s _ _ => BigInt.fromString s
  | .add x y => x.add y
  | .sub x y => x.sub y
  | .mul x y => x.mul y
  | .div x y => x.div y
  | .mod x y => x.mod y
  | .unm x => x.unm
  | .pow x exp => x.pow exp
  | .abs x => pure x.abs
  | .gcd x y => x.gcd y
  | .shiftLeft x n => x.shiftLeft n
  | .shiftRight x n => x.shiftRight n

/-- Numerals, divisors that are not zero, exponents and shifts that are not negative. -/
def Legal : Step → Prop
  | .new s sign digits => Numeral s sign digits
  | .div _ y | .mod _ y => y.denote ≠ 0
  | .pow _ n | .shiftLeft _ n | .shiftRight _ n => 0 ≤ n
  | _ => True

/-- The steps that keep the canonical form: no minus sign is put on a zero, and no chunks are put
below a zero. -/
def Keeps : Step → Prop
  | .new _ sign digits => ¬ (sign = [0x2D] ∧ Decimal.digitsValue digits = 0)
  | .add x y => ¬ (x.denote < 0 ∧ x.denote + y.denote = 0)
  | .sub x y => ¬ (x.denote < 0 ∧ x.denote = y.denote)
  | .mod x y => ¬ (x.denote < 0 ∧ y.denote ∣ x.denote ∧ base ≤ |y.denote|)
  | .unm x => x.denote ≠ 0
  | .shiftLeft x n => ¬ (x.denote = 0 ∧ 0 < n ∧ (chunkSize : ℤ) ∣ n)
  | _ => True

end Step

/-- The values obtained from numerals by legal steps that satisfy `C`. -/
inductive Obtained (C : Step → Prop) : BigInt → Prop
  | step (st : Step) {r : BigInt} (operands : ∀ x ∈ st.operands, Obtained C x) (legal : st.Legal)
      (cond : C st) (result : st.run.result = .ok r) : Obtained C r

namespace BigInt

variable {x y r : BigInt}

/-- A sign that is given to zero. -/
theorem Normal.canonical_iff (h : r.Normal) {s : ℤ} (hs : s = 1 ∨ s = -1)
    (hzero : r.mag = 0 → r.sign = s) : r.Canonical ↔ ¬ (s = -1 ∧ r.denote = 0) := by
  rw [h.denote_eq_zero]
  constructor
  · rintro hc ⟨hneg, hm⟩
    have hpos := hc.zero hm
    rw [hzero hm] at hpos
    omega
  · intro hn
    refine ⟨h, fun hm => ?_⟩
    rw [hzero hm]
    exact hs.resolve_right fun hneg => hn ⟨hneg, hm⟩

theorem Canonical.sign_neg_iff (h : x.Canonical) : x.sign = -1 ↔ x.denote < 0 := by
  have hiff := h.sign_iff
  rcases h.sign with hs | hs <;> omega

theorem keeps_new {s sign digits : Bytes} (h : Numeral s sign digits) :
    (fromString s).Returns fun r => r.Canonical ↔ (Step.new s sign digits).Keeps := by
  refine (fromString_spec h).returns.mono ?_
  rintro r ⟨hn, hs, hm⟩
  rw [hn.canonical_iff (signValue_cases sign) fun _ => hs, hn.denote_eq_zero, hm]
  have hminus : signValue sign = -1 ↔ sign = [0x2D] := by
    unfold signValue
    split <;> simp_all
  rw [hminus, Nat.cast_eq_zero]
  rfl

variable (hx : x.Canonical)

include hx

theorem keeps_add (hy : y.Canonical) :
    (x.add y).Returns fun r => r.Canonical ↔ (Step.add x y).Keeps := by
  refine (add_spec hx.toNormal hy.toNormal).returns.mono ?_
  rintro r ⟨hn, hd, hs⟩
  rw [hn.canonical_iff hx.sign hs, hx.sign_neg_iff, hd]
  rfl

theorem keeps_sub (hy : y.Canonical) :
    (x.sub y).Returns fun r => r.Canonical ↔ (Step.sub x y).Keeps := by
  refine (sub_spec hx.toNormal hy.toNormal).returns.mono ?_
  rintro r ⟨hn, hd, hs⟩
  rw [hn.canonical_iff hx.sign hs, hx.sign_neg_iff, hd, sub_eq_zero]
  rfl

theorem keeps_unm : x.unm.Returns fun r => r.Canonical ↔ (Step.unm x).Keeps := by
  refine (unm_spec hx.toNormal).returns.mono ?_
  rintro r ⟨hn, hd, hm, hs⟩
  have hneg : -x.sign = 1 ∨ -x.sign = -1 := by rcases hx.sign with h | h <;> omega
  rw [hn.canonical_iff hneg fun _ => hs, hd]
  constructor
  · intro hnot h0
    exact hnot ⟨by rw [hx.sign_iff.mpr h0.ge], by omega⟩
  · rintro hne ⟨-, h0⟩
    exact hne (by omega)

theorem keeps_mod (hy : y.Canonical) (h0 : y.denote ≠ 0) :
    (x.mod y).Returns fun r => r.Canonical ↔ (Step.mod x y).Keeps := by
  refine (mod_spec hx.toNormal hy.toNormal h0).returns.mono ?_
  rintro r ⟨hn, hd, hs⟩
  have hmag : |y.denote| = y.mag := by rw [← Int.natCast_natAbs, hy.natAbs_denote]
  have hcases : (if y.mag < base then 1 else x.sign) = 1 ∨
      (if y.mag < base then 1 else x.sign) = -1 := by
    split
    · exact .inl rfl
    · exact hx.sign
  rw [hn.canonical_iff hcases hs, hd, ← Int.dvd_iff_tmod_eq_zero, Step.Keeps, hmag]
  by_cases hlt : y.mag < base
  · rw [if_pos hlt]
    simp [hlt]
  · rw [if_neg hlt, hx.sign_neg_iff]
    simp [not_lt.mp hlt]

omit hx in
/-- Whole chunks are moved by at least one chunk, also where the quotient is rounded. -/
theorem fullChunks_pos {n : ℤ} (hn : 0 < n) (hdvd : (chunkSize : ℤ) ∣ n) : 0 < fullChunks n := by
  rw [fullChunks, Int.lt_toNat]
  change 0 < _
  obtain ⟨m, rfl⟩ := hdvd
  have hm : 0 < m := by
    rw [chunkSize] at hn
    omega
  rcases lt_or_ge ((chunkSize : ℤ) * m) (2 ^ 53) with hlt | hge
  · have hexact : ⌊(Computed.quotient (chunkSize * m) chunkSize).value⌋ =
        chunkSize * m / chunkSize :=
      Computed.exact_quotient hn.le hlt (by decide) (by decide)
    rw [hexact, Int.mul_ediv_cancel_left _ (by decide)]
    exact hm
  · have hq : (2 : ℚ) ^ 53 ≤ ((chunkSize * m : ℤ) : ℚ) := by exact_mod_cast hge
    generalize ((chunkSize : ℤ) * m) = n at hq
    have hround := le_round (q := n) (by linarith)
    have hseven : Binary64.round ((chunkSize : ℤ) : ℚ) = 7 := round_int (by decide)
    have hquot := le_round (q := Binary64.round n / 7) (by linarith)
    rw [Int.floor_pos, Computed.value, hseven]
    linarith

/-- Zero chunks below a value that is not zero. -/
theorem lowZeros_canonical_iff {k : Nat} (hk : 0 < k) :
    Canonical ⟨List.replicate k 0 ++ x.chunks, x.sign⟩ ↔ x.denote ≠ 0 := by
  obtain ⟨hloose, hden⟩ := hx.toNormal.lowZeros k
  constructor
  · intro hc h0
    have hchunks : x.chunks = [0] := of_decide_eq_true (hx.isZero_iff_denote.mpr h0)
    have hlast := hc.trimmed.2
    rw [hchunks] at hlast
    refine hlast ?_ (List.getLast?_concat ..)
    rw [List.length_append, List.length_replicate, List.length_singleton]
    omega
  · intro hne
    have htrim : Trimmed (List.replicate k 0 ++ x.chunks) := by
      rcases hx.trimmed.cases with ⟨c, hc⟩ | ⟨ys, y, hy, hy0⟩
      · rw [hc]
        refine trimmed_concat ?_
        rintro rfl
        exact hne (denote_of_isZero (decide_eq_true hc))
      · rw [hy, ← List.append_assoc]
        exact trimmed_concat hy0
    have hnormal : Normal ⟨List.replicate k 0 ++ x.chunks, x.sign⟩ :=
      ⟨hloose.digits, htrim, hx.sign⟩
    refine ⟨hnormal, fun hm => ?_⟩
    rw [← hnormal.denote_eq_zero, hden] at hm
    exact absurd hm (mul_ne_zero hne (pow_pos base_pos k).ne')

theorem keeps_shiftLeft {n : ℤ} (h0 : 0 ≤ n) :
    (x.shiftLeft n).Returns fun r => r.Canonical ↔ (Step.shiftLeft x n).Keeps := by
  rcases h0.eq_or_lt with rfl | hpos
  · rw [(shift_of_nonpos (le_refl 0)).1]
    exact .pure (iff_of_true hx fun h => absurd h.2.1 (lt_irrefl 0))
  · refine (shiftLeft_spec hx.toNormal hpos).mono ?_
    rintro r ⟨-, hr⟩
    rw [Step.Keeps, Int.dvd_iff_emod_eq_zero]
    split at hr
    · next hz =>
      rw [hr, lowZeros_canonical_iff hx (fullChunks_pos hpos (Int.dvd_of_emod_eq_zero hz))]
      simp [hpos, hz]
    · next hz => exact iff_of_true hr fun h => hz h.2.2

end BigInt

namespace Step

/-- **One step** on canonical operands returns, and its result is canonical exactly if the step
keeps the form. -/
theorem spec (st : Step) (hl : st.Legal) (h : ∀ x ∈ st.operands, x.Canonical) :
    st.run.Returns fun r => r.Canonical ↔ st.Keeps := by
  cases st with
  | new s sign digits => exact BigInt.keeps_new hl
  | add x y => exact BigInt.keeps_add (h x (by simp [operands])) (h y (by simp [operands]))
  | sub x y => exact BigInt.keeps_sub (h x (by simp [operands])) (h y (by simp [operands]))
  | mul x y =>
    have hx := h x (by simp [operands])
    have hy := h y (by simp [operands])
    exact (BigInt.mul_spec hx.loose hy.loose).returns.mono fun r hr => iff_of_true hr.1 trivial
  | div x y =>
    have hx := h x (by simp [operands])
    have hy := h y (by simp [operands])
    exact (BigInt.div_spec hx.toNormal hy.toNormal hl).returns.mono fun r hr =>
      iff_of_true hr.1 trivial
  | mod x y => exact BigInt.keeps_mod (h x (by simp [operands])) (h y (by simp [operands])) hl
  | unm x => exact BigInt.keeps_unm (h x (by simp [operands]))
  | pow x n =>
    have hx := h x (by simp [operands])
    exact (BigInt.pow_spec hx.toNormal hl).mono fun r hr => iff_of_true (hr.1 hx) trivial
  | abs x =>
    have hx := h x (by simp [operands])
    exact .pure (iff_of_true hx.toNormal.abs.1 trivial)
  | gcd x y =>
    have hx := h x (by simp [operands])
    have hy := h y (by simp [operands])
    exact (BigInt.gcd_spec hx.toNormal hy.toNormal).mono fun r hr => iff_of_true hr.1 trivial
  | shiftLeft x n => exact BigInt.keeps_shiftLeft (h x (by simp [operands])) hl
  | shiftRight x n =>
    have hx := h x (by simp [operands])
    rcases (show 0 ≤ n from hl).eq_or_lt with rfl | hpos
    · rw [run, (BigInt.shift_of_nonpos (le_refl 0)).2]
      exact .pure (iff_of_true hx trivial)
    · exact (BigInt.shiftRight_spec hx.toNormal hpos).mono fun r hr => iff_of_true hr.1 trivial

end Step

/-- Steps that keep the form obtain canonical values only. -/
theorem Obtained.canonical {x : BigInt} (h : Obtained Step.Keeps x) : x.Canonical := by
  induction h with
  | step st operands legal cond result ih =>
    obtain ⟨r, hr, hiff⟩ := st.spec legal ih
    obtain rfl := Except.ok.inj (hr.symm.trans result)
    exact hiff.mpr cond

namespace BigInt

variable {x y : BigInt}

/-- Comparisons of canonical values. -/
theorem Canonical.compares (hx : x.Canonical) (hy : y.Canonical) :
    (x.eq y).Returns (· = decide (x.denote = y.denote)) ∧
    (x.lt y).Returns (· = decide (x.denote < y.denote)) ∧
    (x.le y).Returns (· = decide (x.denote ≤ y.denote)) := by
  have hcmp := (compare_spec hx hy).returns
  refine ⟨hcmp.bind ?_, hcmp.bind ?_, hcmp.bind ?_⟩
  · rintro _ rfl
    exact .pure (by rw [decide_eq_decide, Int.sign_eq_zero_iff_zero, sub_eq_zero])
  · rintro _ rfl
    exact .pure (by rw [decide_eq_decide, Int.sign_neg_iff, sub_neg])
  · rintro _ rfl
    exact .pure (by rw [decide_eq_decide, Int.sign_nonpos_iff, sub_nonpos])

end BigInt

/-- **Canonical form and order.** Values obtained from numerals by steps that keep the form are
canonical, and comparisons of them are comparisons of the integers. A further step on such values
returns a canonical value exactly if it keeps the form. -/
theorem obtained_canonical {x y : BigInt} (hx : Obtained Step.Keeps x)
    (hy : Obtained Step.Keeps y) :
    x.Canonical ∧
    (x.eq y).Returns (· = decide (x.denote = y.denote)) ∧
    (x.lt y).Returns (· = decide (x.denote < y.denote)) ∧
    (x.le y).Returns (· = decide (x.denote ≤ y.denote)) ∧
    ∀ st : Step, st.Legal → (∀ z ∈ st.operands, Obtained Step.Keeps z) →
      st.run.Returns fun r => r.Canonical ↔ st.Keeps := by
  obtain ⟨heq, hlt, hle⟩ := hx.canonical.compares hy.canonical
  exact ⟨hx.canonical, heq, hlt, hle, fun st hl h => st.spec hl fun z hz => (h z hz).canonical⟩

/-- The big integer of a digit, with a sign in front. -/
theorem obtained_new {C : Step → Prop} {s sign digits : Bytes} {r : BigInt}
    (h : Numeral s sign digits) (hC : C (.new s sign digits))
    (hr : (BigInt.fromString s).result = .ok r) : Obtained C r :=
  .step (.new s sign digits) (by simp [Step.operands]) h hC hr

theorem numeral_zero : Numeral [0x30] [] [0x30] :=
  ⟨.inl rfl, by decide, List.all_eq_true.mp rfl, by decide⟩

theorem numeral_five : Numeral [0x35] [] [0x35] :=
  ⟨.inl rfl, by decide, List.all_eq_true.mp rfl, by decide⟩

theorem numeral_minus_five : Numeral [0x2D, 0x35] [0x2D] [0x35] :=
  ⟨.inr (.inr rfl), by decide, List.all_eq_true.mp rfl, by decide⟩

theorem obtained_canonical_five :
    BigInt.Canonical ⟨[5], 1⟩ ∧
    (BigInt.eq ⟨[5], 1⟩ ⟨[5], -1⟩).Returns (· = decide ((5 : ℤ) = -5)) ∧
    (BigInt.lt ⟨[5], 1⟩ ⟨[5], -1⟩).Returns (· = decide ((5 : ℤ) < -5)) ∧
    (BigInt.le ⟨[5], 1⟩ ⟨[5], -1⟩).Returns (· = decide ((5 : ℤ) ≤ -5)) ∧
    (BigInt.add ⟨[5], 1⟩ ⟨[5], -1⟩).Returns fun r =>
      r.Canonical ↔ ¬ ((5 : ℤ) < 0 ∧ (5 : ℤ) + -5 = 0) := by
  have hfive : Obtained Step.Keeps ⟨[5], 1⟩ :=
    obtained_new numeral_five (by simp [Step.Keeps]) (by decide +kernel)
  have hminus : Obtained Step.Keeps ⟨[5], -1⟩ :=
    obtained_new numeral_minus_five (by simp [Step.Keeps, Decimal.digitsValue]) (by decide +kernel)
  obtain ⟨hcan, heq, hlt, hle, hstep⟩ := obtained_canonical hfive hminus
  exact ⟨hcan, heq, hlt, hle, hstep (.add _ _) trivial (by simp [Step.operands, hfive, hminus])⟩

/-- `(-5) + 5` is a zero with the sign `-1`, which is not equal to `0`. -/
theorem not_obtained_canonical : ∃ x zero : BigInt,
    Obtained (fun _ => True) x ∧ Obtained (fun _ => True) zero ∧ ¬ x.Canonical ∧
      x.denote = zero.denote ∧ (x.eq zero).Returns (· = false) := by
  have hminus : Obtained (fun _ => True) ⟨[5], -1⟩ :=
    obtained_new numeral_minus_five trivial (by decide +kernel)
  have hfive : Obtained (fun _ => True) ⟨[5], 1⟩ :=
    obtained_new numeral_five trivial (by decide +kernel)
  have hzero : Obtained (fun _ => True) ⟨[0], 1⟩ :=
    obtained_new numeral_zero trivial (by decide +kernel)
  refine ⟨⟨[0], -1⟩, ⟨[0], 1⟩, ?_, hzero, by decide, rfl, _, rfl, rfl⟩
  exact .step (.add ⟨[5], -1⟩ ⟨[5], 1⟩) (by simp [Step.operands, hminus, hfive]) trivial trivial
    (by decide +kernel)

end Avant.Numeric
