import Avant.Numeric.Ring

/-!
# Division of big integers

What `DivSmall`, `__div` and `__mod` return. Both ways of division go through the chunks of the
dividend from the high end and keep a remainder that is less than the divisor (`divSmallLoop_spec`,
`divLoop_spec`). In the long one a binary search finds each chunk of the quotient
(`searchLoop_spec`). In both, the chunks and the last remainder `r` satisfy `a = d * q + r` for
the values without signs, and `tdiv_of_eq` and `tmod_of_eq` put the signs in.

* `div_spec`: the quotient truncated toward zero, canonical.
* `mod_spec`: its remainder; a remainder of zero has the sign of the dividend if the divisor has
  more than one chunk.
* `div_mod_names`: the law of division for all numerals.
-/

namespace Avant.Numeric

open Avant.Lib Avant.Lib.Binary64 Avant.Lib.Limbs

/-! ## Signs -/

section Signs

variable {s t a d q r : ℤ}

/-- The truncated quotient of what is divided without signs. -/
theorem tdiv_of_eq (hs : s = 1 ∨ s = -1) (ht : t = 1 ∨ t = -1) (h : a = d * q + r) (h0 : 0 ≤ r)
    (hlt : r < d) (ha : 0 ≤ a) : Int.tdiv (s * a) (t * d) = s * t * q := by
  have hq : Int.tdiv a d = q := by
    rw [Int.tdiv_eq_ediv_of_nonneg ha, h, add_comm, Int.add_mul_ediv_left _ _ (by omega),
      Int.ediv_eq_zero_of_lt h0 hlt, zero_add]
  rcases hs with rfl | rfl <;> rcases ht with rfl | rfl <;>
    simp [Int.neg_tdiv, Int.tdiv_neg, hq]

/-- The remainder has the sign of the dividend. -/
theorem tmod_of_eq (hs : s = 1 ∨ s = -1) (ht : t = 1 ∨ t = -1) (h : a = d * q + r) (h0 : 0 ≤ r)
    (hlt : r < d) (ha : 0 ≤ a) : Int.tmod (s * a) (t * d) = s * r := by
  have hq := tdiv_of_eq hs ht h h0 hlt ha
  have hmod := Int.tmod_add_mul_tdiv (s * a) (t * d)
  have htt : t * t = 1 := by rcases ht with rfl | rfl <;> rfl
  rw [hq] at hmod
  linear_combination hmod + s * h - d * s * q * htt

end Signs

namespace BigInt

variable {x y : BigInt}

/-! ## Division by a chunk -/

/-- The loop of `DivSmall`, which takes the highest chunk first. -/
theorem divSmallLoop_spec {d : ℤ} (hd0 : 0 < d) (hdb : d < base) {cs : List ℤ} {r : ℤ}
    (hcs : Digits base cs) (hr : 0 ≤ r ∧ r < d) (res : List ℤ) :
    (divSmallLoop d cs r res).Yields fun p => ∃ qs,
      p.1 = qs ++ res ∧ qs.length = cs.length ∧ Digits base qs ∧ (0 ≤ p.2 ∧ p.2 < d) ∧
        val base cs.reverse + base ^ cs.length * r = d * val base qs + p.2 := by
  induction cs generalizing r res with
  | nil => exact .pure ⟨[], rfl, rfl, Digits.nil, hr, by simp⟩
  | cons c cs ih =>
    obtain ⟨⟨hc0, hcb⟩, hcs'⟩ := Digits.cons.mp hcs
    have hbase : base = 10000000 := rfl
    have hlo : 0 ≤ r * base := mul_nonneg hr.1 base_pos.le
    have hhi : r * base ≤ (d - 1) * base := mul_le_mul_of_nonneg_right (by omega) base_pos.le
    have hcur : r * base + c < base * d := by
      rw [hbase] at hhi hcb ⊢
      omega
    have hsmall : base * d < 2 ^ 53 := by
      rw [hbase] at hdb ⊢
      omega
    have hdm := Int.emod_add_mul_ediv (r * base + c) d
    have hq : 0 ≤ (r * base + c) / d ∧ (r * base + c) / d < base :=
      ⟨Int.ediv_nonneg (by omega) hd0.le, Int.ediv_lt_of_lt_mul hd0 hcur⟩
    have hrem : 0 ≤ (r * base + c) % d ∧ (r * base + c) % d < d :=
      ⟨Int.emod_nonneg _ hd0.ne', Int.emod_lt_of_pos _ hd0⟩
    unfold divSmallLoop
    refine (Calc.Yields.mul (by rw [abs_lt]; omega)).andThen ?_
    refine (Calc.Yields.add (by rw [abs_lt]; omega)).andThen ?_
    refine (Calc.Yields.floorDiv (by omega) (by omega) hd0 (by omega)).andThen ?_
    refine (Calc.Yields.mod hd0 (by omega)).andThen ?_
    refine (ih hcs' hrem _).mono ?_
    rintro ⟨qs', r'⟩ ⟨qs, hqs, hlen, hdig, hr', hval⟩
    refine ⟨qs ++ [(r * base + c) / d], ?_, ?_, Digits.concat.mpr ⟨hdig, hq⟩, hr', ?_⟩
    · rw [List.append_assoc, List.singleton_append]
      exact hqs
    · rw [List.length_append, List.length_singleton, hlen, List.length_cons]
    · rw [List.reverse_cons, val_concat, val_concat, List.length_reverse, List.length_cons, hlen,
        pow_succ]
      linear_combination hval - base ^ cs.length * hdm

/-- **`DivSmall`** -/
theorem divSmall_spec (hx : x.Normal) {num : ℤ} (h0 : num ≠ 0) (hlt : |num| < base) :
    (x.divSmall num).Yields fun p => p.1.Canonical ∧ p.1.denote = Int.tdiv x.denote num ∧
      p.2 = Int.tmod x.denote num ∧ |p.2| < base := by
  have habs : (num.natAbs : ℤ) = |num| := Int.natCast_natAbs num
  have hpos : 0 < (num.natAbs : ℤ) := by omega
  have hsmall : base < 2 ^ 53 := by decide
  obtain ⟨t, ht, htn, htif⟩ : ∃ t : ℤ, (t = 1 ∨ t = -1) ∧ num = t * num.natAbs ∧
      (if num < 0 then (-1 : ℤ) else 1) = t := by
    rcases lt_or_ge num 0 with hneg | hge
    · exact ⟨-1, .inr rfl, by omega, if_pos hneg⟩
    · exact ⟨1, .inl rfl, by omega, if_neg (by omega)⟩
  unfold divSmall
  rw [if_neg h0, htif]
  refine (divSmallLoop_spec hpos (by omega) (Digits.reverse.mpr hx.digits)
    ⟨le_refl 0, hpos⟩ []).bind ?_
  rintro ⟨res, r⟩ ⟨qs, hres, hlen, hdig, hr, hval⟩
  rw [List.append_nil] at hres
  rw [List.reverse_reverse, mul_zero, add_zero] at hval
  simp only at hres hr hval
  subst hres
  change x.mag = _ at hval
  refine (mul_sign hx.sign ht).bind ?_
  rintro sign ⟨rfl, hsign⟩
  have hrs : |r * x.sign| < base := by
    rw [abs_lt]
    rcases hx.sign with h | h <;> rw [h] <;> omega
  refine (Calc.Yields.mul (hrs.trans hsmall)).andThen ?_
  have hne : res ≠ [] := by
    rintro rfl
    exact hx.trimmed.1 (List.reverse_eq_nil_iff.mp (List.length_eq_zero_iff.mp hlen.symm))
  obtain ⟨hcan, hden⟩ := trim_spec hdig hne hsign
  refine .pure ⟨hcan, ?_, ?_, hrs⟩
  · rw [hden, denote, htn, tdiv_of_eq hx.sign ht hval hr.1 hr.2 hx.mag_nonneg]
  · rw [denote, htn, tmod_of_eq hx.sign ht hval hr.1 hr.2 hx.mag_nonneg]
    exact mul_comm r x.sign

/-! ## Long division -/

/-- The binary search: `q` is the last value that was small enough, and the search goes on above
it; it ends at the floor of the quotient. -/
theorem searchLoop_spec (fuel : Nat) {divisor remainder : BigInt} (hd : divisor.Normal)
    (hr : remainder.Canonical) (hpos : 0 < divisor.denote) {low high q : ℤ} (hlow : 0 ≤ low)
    (hle : low ≤ high + 1) (hhigh : high < base) (hq : q = low - 1 ∨ low = 0 ∧ q = 0)
    (hbelow : divisor.denote * q ≤ remainder.denote)
    (habove : remainder.denote < divisor.denote * (high + 1)) (h0 : 0 ≤ remainder.denote)
    (hfuel : high + 1 - low < fuel) :
    (searchLoop divisor remainder fuel low high q).Yields
      (· = remainder.denote / divisor.denote) := by
  have hbase : base = 10000000 := rfl
  induction fuel generalizing low high q with
  | zero => exact absurd hfuel (by omega)
  | succ fuel ih =>
    unfold searchLoop
    push_cast at hfuel
    refine .ite (fun hrun => ?_) fun hend => ?_
    · have hmid : low ≤ (low + high) / 2 ∧ (low + high) / 2 ≤ high := by omega
      refine (Calc.Yields.add (by rw [abs_lt]; omega)).andThen ?_
      refine (Calc.Yields.floorDiv (by omega) (by omega) two_pos (by decide)).andThen ?_
      refine (fromNumber_spec (by rw [abs_lt]; omega)).bind ?_
      rintro temp ⟨htc, htd⟩
      refine (mul_spec hd.loose htc.loose).bind ?_
      rintro prod ⟨hpc, hpd⟩
      rw [htd] at hpd
      refine (compare_spec hpc hr).bind ?_
      rintro _ rfl
      rw [hpd]
      refine .ite (fun hsmall => ?_) fun hlarge => ?_
      · have hfits := Int.sign_nonpos_iff.mp hsmall
        refine (Calc.Yields.add (by rw [abs_lt]; omega)).andThen ?_
        exact ih (by omega) (by omega) hhigh (.inl (by omega)) (by omega) habove (by omega)
      · have hover : remainder.denote < divisor.denote * ((low + high) / 2) := by
          by_contra hle
          exact hlarge (Int.sign_nonpos_iff.mpr (by omega))
        refine (Calc.Yields.sub (by rw [abs_lt]; omega)).andThen ?_
        exact ih hlow (by omega) (by omega) hq hbelow (by rwa [sub_add_cancel]) (by omega)
    · obtain rfl : low = high + 1 := by omega
      rcases hq with rfl | ⟨hzero, rfl⟩
      · rw [add_sub_cancel_right] at hbelow ⊢
        refine .pure (Eq.symm ?_)
        rw [Int.ediv_eq_iff_of_pos hpos]
        constructor <;> nlinarith
      · rw [hzero, mul_zero] at habove
        omega

/-- The remainder with the next chunk of the dividend at its low end. -/
theorem nextRemainder_spec {remainder : BigInt} (hr : remainder.Canonical)
    (h0 : 0 ≤ remainder.denote) {c : ℤ} (hc : 0 ≤ c ∧ c < base) :
    (trim ⟨c :: remainder.chunks, remainder.sign⟩).Canonical ∧
      (trim ⟨c :: remainder.chunks, remainder.sign⟩).denote = base * remainder.denote + c := by
  have hs := hr.sign_iff.mpr h0
  obtain ⟨hcan, hden⟩ := trim_spec (Digits.cons.mpr ⟨hc, hr.digits⟩) (List.cons_ne_nil _ _) hr.sign
  refine ⟨hcan, ?_⟩
  rw [hden, denote, hs, val_cons, mag]
  ring

/-- The loop of `__div`, which takes the highest chunk first. -/
theorem divLoop_spec {divisor : BigInt} (hd : divisor.Normal) (hpos : 0 < divisor.denote)
    {cs : List ℤ} {remainder : BigInt} (hcs : Digits base cs) (hr : remainder.Canonical)
    (h0 : 0 ≤ remainder.denote) (hlt : remainder.denote < divisor.denote) (quotient : List ℤ) :
    (divLoop divisor cs remainder quotient).Yields fun res => ∃ qs r,
      res = qs ++ quotient ∧ qs.length = cs.length ∧ Digits base qs ∧
        (0 ≤ r ∧ r < divisor.denote) ∧
        val base cs.reverse + base ^ cs.length * remainder.denote =
          divisor.denote * val base qs + r := by
  induction cs generalizing remainder quotient with
  | nil => exact .pure ⟨[], _, rfl, rfl, Digits.nil, ⟨h0, hlt⟩, by simp⟩
  | cons c cs ih =>
    obtain ⟨hc, hcs'⟩ := Digits.cons.mp hcs
    obtain ⟨hnc, hnd⟩ := nextRemainder_spec hr h0 hc
    have hbase : base = 10000000 := rfl
    unfold divLoop
    generalize trim ⟨c :: remainder.chunks, remainder.sign⟩ = next at hnc hnd ⊢
    have hn0 : 0 ≤ next.denote := by
      rw [hbase] at hnd
      omega
    have hnlt : next.denote < divisor.denote * base := by
      rw [hbase] at hnd hc ⊢
      omega
    have hq : 0 ≤ next.denote / divisor.denote ∧ next.denote / divisor.denote < base :=
      ⟨Int.ediv_nonneg hn0 hpos.le, Int.ediv_lt_of_lt_mul hpos (by rwa [mul_comm])⟩
    have hdm := Int.emod_add_mul_ediv next.denote divisor.denote
    refine (Calc.Yields.sub (by decide)).andThen ?_
    refine (searchLoop_spec _ hd hnc hpos (le_refl 0) (by omega) (by omega) (.inr ⟨rfl, rfl⟩)
      (by rwa [mul_zero]) (by rwa [sub_add_cancel]) hn0 (by rw [hbase]; decide)).bind ?_
    rintro _ rfl
    refine (fromNumber_spec (by rw [abs_lt]; omega)).bind ?_
    rintro temp ⟨htc, htd⟩
    refine (mul_spec hd.loose htc.loose).bind ?_
    rintro prod ⟨hpc, hpd⟩
    refine (sub_spec hnc.toNormal hpc.toNormal).bind ?_
    rintro rem ⟨hrn, hrd, hrs⟩
    have hrem : rem.denote = next.denote % divisor.denote := by
      rw [hrd, hpd, htd]
      omega
    have hrc : rem.Canonical := ⟨hrn, fun hm => (hrs hm).trans (hnc.sign_iff.mpr hn0)⟩
    refine (ih hcs' hrc ?_ ?_ _).mono ?_
    · rw [hrem]
      exact Int.emod_nonneg _ hpos.ne'
    · rw [hrem]
      exact Int.emod_lt_of_pos _ hpos
    rintro res ⟨qs, r, rfl, hlen, hdig, hr', hval⟩
    refine ⟨qs ++ [next.denote / divisor.denote], r, by simp, ?_, Digits.concat.mpr ⟨hdig, hq⟩,
      hr', ?_⟩
    · rw [List.length_append, List.length_singleton, hlen, List.length_cons]
    · rw [List.reverse_cons, val_concat, val_concat, List.length_reverse, List.length_cons, hlen,
        pow_succ]
      rw [hrem] at hval
      linear_combination hval - base ^ cs.length * hdm - base ^ cs.length * hnd

/-! ## Quotient and remainder -/

/-- A big integer of one chunk. -/
theorem Normal.length_eq_one (h : x.Normal) : x.chunks.length = 1 ↔ x.mag < base := by
  constructor
  · intro hlen
    have := val_lt h.digits
    rwa [hlen, pow_one] at this
  · intro hlt
    by_contra hne
    have hpos := List.length_pos_of_ne_nil h.trimmed.1
    have hle := h.le_mag (n := x.chunks.length - 2) (by omega)
    have hpow : base ≤ base ^ (x.chunks.length - 2 + 1) :=
      le_self_pow₀ (by decide) (Nat.succ_ne_zero _)
    omega

theorem head_of_length_eq_one (h : x.chunks.length = 1) : x.chunks.headD 0 = x.mag := by
  obtain ⟨c, hc⟩ := List.length_eq_one_iff.mp h
  rw [mag, hc]
  simp

/-- The divisor of the short way as a number. -/
theorem chunkDivisor_spec (hy : y.Normal) (h : y.chunks.length = 1) :
    (Calc.mul (y.chunks.headD 0) y.sign).Yields fun num => num = y.denote ∧ |num| < base := by
  have hlt := hy.length_eq_one.mp h
  have hmag := hy.mag_nonneg
  have hsmall : base < 2 ^ 53 := by decide
  have hbound : |y.chunks.headD 0 * y.sign| < base := by
    rw [head_of_length_eq_one h, abs_lt]
    rcases hy.sign with hs | hs <;> rw [hs] <;> omega
  refine (Calc.Yields.mul (hbound.trans hsmall)).mono ?_
  rintro _ rfl
  exact ⟨by rw [head_of_length_eq_one h, denote, mul_comm], hbound⟩

/-- **`__div`** -/
theorem div_spec (hx : x.Normal) (hy : y.Normal) (h0 : y.denote ≠ 0) :
    (x.div y).Yields fun q => q.Canonical ∧ q.denote = Int.tdiv x.denote y.denote := by
  have hym := hy.mag_nonneg
  have hxm := hx.mag_nonneg
  have hypos : 0 < y.mag := by
    have := mt hy.denote_eq_zero.mpr h0
    omega
  unfold div
  rw [if_neg (mt hy.isZero_iff_denote.mp h0), fromNumber_zero]
  refine .ite (fun hz => ?_) fun hnz => ?_
  · refine .pure ⟨canonical_zero, ?_⟩
    rw [denote_zero, hx.isZero_iff_denote.mp hz, Int.zero_tdiv]
  refine .ite (fun hless => ?_) fun hge => ?_
  · rw [compareAbs_eq hx hy] at hless
    have hlt := Int.sign_neg_iff.mp hless
    refine .pure ⟨canonical_zero, ?_⟩
    have hzero := tdiv_of_eq (q := 0) hx.sign hy.sign (by ring : x.mag = y.mag * 0 + x.mag) hxm
      (by omega) hxm
    rw [denote_zero, denote, denote, hzero, mul_zero]
  refine .ite (fun hone => ?_) fun hlong => ?_
  · refine (chunkDivisor_spec hy hone).bind ?_
    rintro _ ⟨rfl, hbound⟩
    refine (divSmall_spec hx h0 hbound).bind ?_
    rintro ⟨q, r⟩ ⟨hcan, hden, -⟩
    exact .pure ⟨hcan, hden⟩
  · refine (mul_sign hx.sign hy.sign).bind ?_
    rintro sign ⟨rfl, hsign⟩
    have hdiv : denote ⟨y.chunks, 1⟩ = y.mag := one_mul _
    refine Calc.Yields.bind (P := (· = ⟨[0], 1⟩)) (.pure rfl) ?_
    rintro _ rfl
    refine (divLoop_spec (hy.withSign (.inl rfl)) (by rwa [hdiv]) (Digits.reverse.mpr hx.digits)
      canonical_zero (le_refl 0) (by rwa [hdiv]) []).bind ?_
    rintro res ⟨qs, r, rfl, hlen, hdig, hr, hval⟩
    rw [List.append_nil]
    rw [List.reverse_reverse, denote_zero, mul_zero, add_zero, hdiv] at hval
    change x.mag = _ at hval
    rw [hdiv] at hr
    have hne : qs ≠ [] := by
      rintro rfl
      exact hx.trimmed.1 (List.reverse_eq_nil_iff.mp (List.length_eq_zero_iff.mp hlen.symm))
    obtain ⟨hcan, hden⟩ := trim_spec hdig hne hsign
    refine .pure ⟨hcan, ?_⟩
    rw [hden, denote, denote, tdiv_of_eq hx.sign hy.sign hval hr.1 hr.2 hxm]

/-- **`__mod`**; the sign of a remainder of zero depends on the way it was computed. -/
theorem mod_spec (hx : x.Normal) (hy : y.Normal) (h0 : y.denote ≠ 0) :
    (x.mod y).Yields fun r => r.Normal ∧ r.denote = Int.tmod x.denote y.denote ∧
      (r.mag = 0 → r.sign = if y.mag < base then 1 else x.sign) := by
  have hsmall : base < 2 ^ 53 := by decide
  unfold mod
  rw [if_neg (mt hy.isZero_iff_denote.mp h0)]
  refine .ite (fun hone => ?_) fun hlong => ?_
  · refine (chunkDivisor_spec hy hone).bind ?_
    rintro _ ⟨rfl, hbound⟩
    refine (divSmall_spec hx h0 hbound).bind ?_
    rintro ⟨q, r⟩ ⟨-, -, rfl, hlt⟩
    refine (fromNumber_spec (hlt.trans hsmall)).mono ?_
    rintro r ⟨hcan, hden⟩
    refine ⟨hcan.toNormal, hden, fun hm => ?_⟩
    rw [if_pos (hy.length_eq_one.mp hone)]
    exact hcan.zero hm
  · refine (div_spec hx hy h0).bind ?_
    rintro q ⟨hqc, hqd⟩
    refine (mul_spec hqc.loose hy.loose).bind ?_
    rintro p ⟨hpc, hpd⟩
    refine (sub_spec hx hpc.toNormal).mono ?_
    rintro r ⟨hrn, hrd, hrs⟩
    refine ⟨hrn, ?_, fun hm => ?_⟩
    · rw [hrd, hpd, hqd, Int.tmod_def, mul_comm]
    · rw [if_neg (mt hy.length_eq_one.mpr hlong)]
      exact hrs hm

end BigInt

end Avant.Numeric
