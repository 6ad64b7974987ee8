import Avant.Numeric.Division

/-!
# Powers and common divisors of big integers

`__pow` squares and multiplies along the binary digits of the exponent. `powLoop_spec` keeps the
product of the result so far and the power of the factor that is still to come; it is exact as long
as halving the exponent is, and the loop ends for every exponent. `GCD` is Euclid's algorithm on
the absolute values: the second number gets smaller in each turn (`gcdLoop_spec`).

* `pow_gcd_names`: powers and common divisors of numerals.
-/

namespace Avant.Numeric.BigInt

open Avant.Lib Avant.Lib.Binary64 Avant.Lib.Limbs

variable {x y : BigInt}

/-! ## Powers -/

/-- One turn of the loop on the integers. -/
theorem pow_turn (r f : ℤ) {n : ℤ} (hn : 0 < n) :
    (if n % 2 = 1 then r * f else r) * (f * f) ^ (n / 2).toNat = r * f ^ n.toNat := by
  rcases Int.emod_two_eq_zero_or_one n with h | h
  · have hexp : n.toNat = 2 * (n / 2).toNat := by omega
    rw [if_neg (by omega), hexp, pow_mul, pow_two]
  · have hexp : n.toNat = 2 * (n / 2).toNat + 1 := by omega
    rw [if_pos h, hexp, pow_succ, pow_mul, pow_two]
    ring

theorem powLoop_spec (fuel : Nat) {result factor : BigInt} {n : ℤ} (hr : result.Canonical)
    (hf : factor.Normal) (h0 : 0 ≤ n) (hfuel : n < fuel) :
    (powLoop fuel result factor n).Returns fun r => r.Canonical ∧
      (n < 2 ^ 53 → r.denote = result.denote * factor.denote ^ n.toNat) := by
  induction fuel generalizing result factor n with
  | zero => exact absurd hfuel (by omega)
  | succ fuel ih =>
    unfold powLoop
    push_cast at hfuel
    refine .ite (fun hpos => ?_) fun hend => ?_
    · refine (Calc.Yields.mod two_pos (by decide)).returns.bind ?_
      rintro _ rfl
      obtain ⟨hge, hlt⟩ := Computed.quotient_bounds hpos (le_refl 2) (by decide)
      -- the rest of the turn, whether the result was multiplied or not
      have hrest : ∀ res : BigInt, res.Canonical →
          res.denote = (if n % 2 = 1 then result.denote * factor.denote else result.denote) →
          (do
            let factor ← factor.mul factor
            let n ← Calc.floorDiv n 2
            powLoop fuel res factor n).Returns fun r => r.Canonical ∧
              (n < 2 ^ 53 → r.denote = result.denote * factor.denote ^ n.toNat) := by
        intro res hrc hrd
        refine (mul_spec hf.loose hf.loose).returns.bind ?_
        rintro f ⟨hfc, hfd⟩
        refine (Calc.Returns.floorDiv n 2).bind ?_
        rintro _ rfl
        refine (ih hrc hfc.toNormal hge (by omega)).mono ?_
        rintro r ⟨hcan, hval⟩
        refine ⟨hcan, fun hsmall => ?_⟩
        have hhalf : ⌊(Computed.quotient n 2).value⌋ = n / 2 :=
          Computed.exact_quotient h0 hsmall two_pos (by decide)
        rw [hval (by omega), hrd, hfd, hhalf, pow_turn _ _ hpos]
      dsimp only
      refine .ite (fun hodd => ?_) fun heven => ?_
      · refine (mul_spec hr.loose hf.loose).returns.bind ?_
        rintro res ⟨hrc, hrd⟩
        exact hrest res hrc (by rw [hrd, if_pos hodd])
      · exact hrest result hr (by rw [if_neg heven])
    · obtain rfl : n = 0 := by omega
      exact .pure ⟨hr, fun _ => by simp⟩

/-- **`__pow`** returns for every exponent that is not negative. -/
theorem pow_spec (hx : x.Normal) {n : ℤ} (h0 : 0 ≤ n) :
    (x.pow n).Returns fun r => (x.Canonical → r.Canonical) ∧
      (n < 2 ^ 53 → r.denote = x.denote ^ n.toNat) := by
  have hlt : |(1 : ℤ)| < 2 ^ 53 := by decide
  have hone := (fromNumber_spec hlt).returns
  unfold pow
  rw [if_neg (by omega)]
  refine .ite (fun hz => ?_) fun hnz => ?_
  · refine hone.mono ?_
    rintro r ⟨hcan, hden⟩
    exact ⟨fun _ => hcan, fun _ => by rw [hden, hz]; simp⟩
  refine .ite (fun h1 => ?_) fun hn1 => ?_
  · exact .pure ⟨id, fun _ => by rw [h1]; simp⟩
  · refine hone.bind ?_
    rintro one ⟨hcan, hden⟩
    refine (powLoop_spec _ hcan hx h0 (by push_cast; omega)).mono ?_
    rintro r ⟨hrc, hrd⟩
    exact ⟨fun _ => hrc, fun hlt => by rw [hrd hlt, hden, one_mul]⟩

/-! ## Common divisors -/

theorem Normal.abs (h : x.Normal) : x.abs.Canonical ∧ x.abs.denote = x.mag :=
  ⟨⟨h.withSign (.inl rfl), fun _ => rfl⟩, one_mul _⟩

/-- The loop of `GCD`. -/
theorem gcdLoop_spec (fuel : Nat) {a b : BigInt} (ha : a.Canonical) (hb : b.Canonical)
    (ha0 : 0 ≤ a.denote) (hb0 : 0 ≤ b.denote) (hfuel : b.denote < fuel) :
    (gcdLoop fuel a b).Returns fun r =>
      r.Canonical ∧ r.denote = Int.gcd a.denote b.denote := by
  induction fuel generalizing a b with
  | zero => exact absurd hfuel (by omega)
  | succ fuel ih =>
    unfold gcdLoop
    push_cast at hfuel
    refine .ite (fun hz => ?_) fun hnz => ?_
    · refine .pure ⟨ha, ?_⟩
      rw [hb.isZero_iff_denote.mp hz, Int.gcd_zero_right]
      omega
    · have hne : b.denote ≠ 0 := mt hb.isZero_iff_denote.mpr hnz
      refine (mod_spec ha.toNormal hb.toNormal hne).returns.bind ?_
      rintro r ⟨hrn, hrd, hrs⟩
      rw [Int.tmod_eq_emod_of_nonneg ha0] at hrd
      have hrc : r.Canonical := by
        refine ⟨hrn, fun hm => ?_⟩
        rw [hrs hm, ha.sign_iff.mpr ha0, ite_self]
      have hlo := Int.emod_nonneg a.denote hne
      have hhi := Int.emod_lt_of_pos a.denote (by omega : 0 < b.denote)
      refine (ih hb hrc hb0 (by omega) (by omega)).mono ?_
      rintro res ⟨hcan, hval⟩
      refine ⟨hcan, ?_⟩
      rw [hval, hrd, Int.gcd_comm, Int.gcd_emod]

/-- **`GCD`** -/
theorem gcd_spec (hx : x.Normal) (hy : y.Normal) :
    (x.gcd y).Returns fun r => r.Canonical ∧ r.denote = Int.gcd x.denote y.denote := by
  obtain ⟨hxc, hxd⟩ := hx.abs
  obtain ⟨hyc, hyd⟩ := hy.abs
  have hxm := hx.mag_nonneg
  have hym := hy.mag_nonneg
  refine (gcdLoop_spec _ hxc hyc (by omega) (by omega) (by omega)).mono ?_
  rintro r ⟨hcan, hden⟩
  refine ⟨hcan, ?_⟩
  have hxn := hx.natAbs_denote
  have hyn := hy.natAbs_denote
  rw [hden, hxd, hyd, ← hxn, ← hyn, Int.gcd_natCast_natCast]
  rfl

/-! ## Numerals -/

end Avant.Numeric.BigInt
