import Avant.Numeric.Text
import Mathlib.Tactic.LinearCombination

/-!
# Sums and products of big integers

What `__add`, `__sub`, `__unm` and `__mul` of `NumericBigIntLogic.lua` return. The loops are
described by what they keep: value of the chunks so far, and carry or borrow. All numbers on the
way are below `2 ^ 53`, the largest being a product of two chunks with a chunk and a carry added.

* `add_spec`, `sub_spec`: a sum is normal, and a sum of zero has the sign of the first operand.
* `mul_spec`: a product is canonical.
* `ring_names`: sums, differences and products of numerals, and the numbers on the way: all are
  whole, apart from the quotients of which a product takes the floor.
-/

namespace Avant.Numeric.BigInt

open Avant.Lib Avant.Lib.Binary64 Avant.Lib.Limbs

variable {x y : BigInt}

/-- The first chunk, or zero behind the end. -/
theorem headD_digit {cs : List ℤ} (h : Digits base cs) : 0 ≤ cs.headD 0 ∧ cs.headD 0 < base := by
  cases cs with
  | nil => exact ⟨le_refl 0, base_pos⟩
  | cons c cs => exact (Digits.cons.mp h).1

theorem digits_tail {cs : List ℤ} (h : Digits base cs) : Digits base cs.tail :=
  fun c hc => h c (List.mem_of_mem_tail hc)

theorem val_headD_tail (cs : List ℤ) : val base cs = cs.headD 0 + base * val base cs.tail := by
  cases cs <;> simp

/-! ## Sums -/

/-- The loop of `AddAbs`: with the carry, and a chunk more only for a carry of one. -/
theorem addLoop_spec (len : Nat) {xs ys : List ℤ} {carry : ℤ} (hx : Digits base xs)
    (hy : Digits base ys) (hxl : xs.length ≤ len) (hyl : ys.length ≤ len)
    (hc : carry = 0 ∨ carry = 1) :
    (addLoop len xs ys carry).Yields fun zs => Digits base zs ∧
      val base zs = val base xs + val base ys + carry ∧
      (zs.length = len ∨ zs.length = len + 1 ∧ base ^ len ≤ val base zs) := by
  induction len generalizing xs ys carry with
  | zero =>
    obtain rfl := List.length_eq_zero_iff.mp (Nat.le_zero.mp hxl)
    obtain rfl := List.length_eq_zero_iff.mp (Nat.le_zero.mp hyl)
    unfold addLoop
    rcases hc with rfl | rfl
    · exact .pure ⟨Digits.nil, by simp, .inl rfl⟩
    · exact .pure ⟨by decide, by simp, .inr ⟨rfl, by simp⟩⟩
  | succ len ih =>
    have hxh := headD_digit hx
    have hyh := headD_digit hy
    have hxt : xs.tail.length ≤ len := by rw [List.length_tail]; omega
    have hyt : ys.tail.length ≤ len := by rw [List.length_tail]; omega
    have hxv := val_headD_tail xs
    have hyv := val_headD_tail ys
    have hbase : base = 10000000 := rfl
    unfold addLoop
    refine (Calc.Yields.add (by rw [abs_lt]; omega)).andThen ?_
    refine (Calc.Yields.add (by rw [abs_lt]; omega)).andThen ?_
    -- what the loop behind this turn gives, for either carry
    have hrest : ∀ (sum carry' : ℤ), 0 ≤ sum → sum < base → carry' = 0 ∨ carry' = 1 →
        sum + base * carry' = xs.headD 0 + ys.headD 0 + carry →
        (addLoop len xs.tail ys.tail carry' >>= fun rest => pure (sum :: rest)).Yields fun zs =>
          Digits base zs ∧ val base zs = val base xs + val base ys + carry ∧
            (zs.length = len + 1 ∨ zs.length = len + 1 + 1 ∧ base ^ (len + 1) ≤ val base zs) := by
      intro sum carry' hlo hhi hc' hsum
      refine (ih (digits_tail hx) (digits_tail hy) hxt hyt hc').bind ?_
      rintro zs ⟨hd, hval, hlen⟩
      refine .pure ⟨Digits.cons.mpr ⟨⟨hlo, hhi⟩, hd⟩, ?_, ?_⟩
      · rw [val_cons, hval, hxv, hyv]
        linear_combination hsum
      · rcases hlen with hlen | ⟨hlen, hle⟩
        · exact .inl (by rw [List.length_cons, hlen])
        · refine .inr ⟨by rw [List.length_cons, hlen], ?_⟩
          rw [val_cons, pow_succ]
          nlinarith [base_pos]
    refine .ite (fun hge => ?_) fun hlt => ?_
    · refine (Calc.Yields.sub (by rw [abs_lt]; omega)).andThen ?_
      exact hrest _ 1 (by omega) (by omega) (.inr rfl) (by ring)
    · exact hrest _ 0 (by omega) (by omega) (.inl rfl) (by ring)

/-- The value of a trimmed list with more than one digit. -/
theorem Normal.le_mag (h : x.Normal) {n : Nat} (hlen : x.chunks.length = n + 2) :
    base ^ (n + 1) ≤ x.mag := by
  rcases h.trimmed.cases with ⟨c, hc⟩ | ⟨ys, y, hy, hne⟩
  · rw [hc] at hlen
    simp at hlen
  · have hle := le_val (hy ▸ h.digits) hne
    have hys : ys.length = n + 1 := by
      rw [hy] at hlen
      simpa using hlen
    rwa [mag, hy, ← hys]

/-- `AddAbs` -/
theorem addAbs_spec (hx : x.Normal) (hy : y.Normal) :
    (x.addAbs y).Yields fun r =>
      Digits base r.chunks ∧ Trimmed r.chunks ∧ r.mag = x.mag + y.mag := by
  unfold addAbs
  refine (addLoop_spec _ hx.digits hy.digits (le_max_left _ _) (le_max_right _ _)
    (.inl rfl)).bind ?_
  rintro zs ⟨hd, hval, hlen⟩
  rw [add_zero] at hval
  refine .pure ⟨hd, ?_, hval⟩
  have hxpos := List.length_pos_of_ne_nil hx.trimmed.1
  rcases hlen with hlen | ⟨hlen, hle⟩
  · obtain ⟨n, hn⟩ : ∃ n, zs.length = n + 1 :=
      Nat.exists_eq_succ_of_ne_zero (by rw [hlen]; omega)
    cases n with
    | zero =>
      obtain ⟨c, rfl⟩ := List.length_eq_one_iff.mp hn
      exact trimmed_singleton c
    | succ n =>
      -- the longer operand has a highest chunk that is not zero
      refine trimmed_of_le hd hn ?_
      have hxm := hx.mag_nonneg
      have hym := hy.mag_nonneg
      rw [hval]
      unfold mag at hxm hym
      rcases max_choice x.chunks.length y.chunks.length with hmax | hmax
      · have := hx.le_mag (n := n) (by omega)
        unfold mag at this
        omega
      · have := hy.le_mag (n := n) (by omega)
        unfold mag at this
        omega
  · exact trimmed_of_le hd hlen hle

/-! ## Differences -/

/-- The loop of `SubAbs`, with the borrow it ends with. -/
theorem subLoop_spec {xs ys : List ℤ} {borrow : ℤ} (hx : Digits base xs) (hy : Digits base ys)
    (hlen : ys.length ≤ xs.length) (hb : borrow = 0 ∨ borrow = 1) :
    (subLoop xs ys borrow).Yields fun zs => Digits base zs ∧ zs.length = xs.length ∧
      ∃ b, (b = 0 ∨ b = 1) ∧
        val base zs = val base xs - val base ys - borrow + b * base ^ xs.length := by
  induction xs generalizing ys borrow with
  | nil =>
    obtain rfl := List.length_eq_zero_iff.mp (Nat.le_zero.mp hlen)
    exact .pure ⟨Digits.nil, rfl, borrow, hb, by simp⟩
  | cons x xs ih =>
    obtain ⟨hxh, hxs⟩ := Digits.cons.mp hx
    have hyh := headD_digit hy
    have hyv := val_headD_tail ys
    have hyt : ys.tail.length ≤ xs.length := by
      rw [List.length_tail]
      simp only [List.length_cons] at hlen
      omega
    have hbase : base = 10000000 := rfl
    unfold subLoop
    refine (Calc.Yields.sub (by rw [abs_lt]; omega)).andThen ?_
    refine (Calc.Yields.sub (by rw [abs_lt]; omega)).andThen ?_
    have hrest : ∀ (diff borrow' : ℤ), 0 ≤ diff → diff < base → borrow' = 0 ∨ borrow' = 1 →
        diff - base * borrow' = x - ys.headD 0 - borrow →
        (subLoop xs ys.tail borrow' >>= fun rest => pure (diff :: rest)).Yields fun zs =>
          Digits base zs ∧ zs.length = (x :: xs).length ∧ ∃ b, (b = 0 ∨ b = 1) ∧
            val base zs =
              val base (x :: xs) - val base ys - borrow + b * base ^ (x :: xs).length := by
      intro diff borrow' hlo hhi hb' hdiff
      refine (ih hxs (digits_tail hy) hyt hb').bind ?_
      rintro zs ⟨hd, hzl, b, hb'', hval⟩
      refine .pure ⟨Digits.cons.mpr ⟨⟨hlo, hhi⟩, hd⟩, by rw [List.length_cons, hzl]; rfl, b, hb'',
        ?_⟩
      rw [val_cons, hval, val_cons, hyv, List.length_cons, pow_succ]
      linear_combination hdiff
    refine .ite (fun hneg => ?_) fun hpos => ?_
    · refine (Calc.Yields.add (by rw [abs_lt]; omega)).andThen ?_
      exact hrest _ 1 (by omega) (by omega) (.inr rfl) (by ring)
    · exact hrest _ 0 (by omega) (by omega) (.inl rfl) (by ring)

/-- `SubAbs`, of a value that is not larger. -/
theorem subAbs_spec (hx : x.Normal) (hy : y.Normal) (hle : y.mag ≤ x.mag) :
    (x.subAbs y).Yields fun r =>
      Digits base r.chunks ∧ Trimmed r.chunks ∧ r.mag = x.mag - y.mag := by
  have hlen : y.chunks.length ≤ x.chunks.length := by
    by_contra hlt
    have := val_lt_of_length_lt hx.digits hy.digits hy.trimmed hx.trimmed.1 (by omega)
    unfold mag at hle
    omega
  unfold subAbs
  refine (subLoop_spec hx.digits hy.digits hlen (.inl rfl)).bind ?_
  rintro zs ⟨hd, hzl, b, hb, hval⟩
  -- the last borrow is zero, since the value is below the weight behind the chunks
  have hlt := val_lt hd
  have hxlt := val_nonneg hd
  have hpow : 0 < base ^ x.chunks.length := pow_pos base_pos _
  rw [hzl] at hlt
  have hb0 : b = 0 := by
    rcases hb with rfl | rfl
    · rfl
    · unfold mag at hle
      rw [hval] at hlt
      omega
  subst hb0
  rw [zero_mul, add_zero, sub_zero] at hval
  have hne : zs ≠ [] := by
    rintro rfl
    exact hx.trimmed.1 (List.length_eq_zero_iff.mp hzl.symm)
  obtain ⟨hcan, hden⟩ := trim_spec hd hne (.inl rfl)
  refine .pure ⟨hcan.digits, hcan.trimmed, ?_⟩
  have hmag : (trim ⟨zs, 1⟩).mag = val base zs := by
    have hnat := hcan.natAbs_denote
    rw [hden, one_mul] at hnat
    omega
  rw [hmag, hval]
  rfl

/-- **`__add`**: the sum; a sum of zero has the sign of the first operand. -/
theorem add_spec (hx : x.Normal) (hy : y.Normal) :
    (x.add y).Yields fun r =>
      r.Normal ∧ r.denote = x.denote + y.denote ∧ (r.mag = 0 → r.sign = x.sign) := by
  have hxm := hx.mag_nonneg
  have hym := hy.mag_nonneg
  unfold add
  refine .ite (fun hs => ?_) fun hs => ?_
  · refine (addAbs_spec hx hy).bind ?_
    rintro r ⟨hd, ht, hmag⟩
    refine .pure ⟨⟨hd, ht, hx.sign⟩, ?_, fun _ => rfl⟩
    change x.sign * r.mag = _
    rw [hmag, denote, denote, ← hs]
    ring
  · have hopp : y.sign = -x.sign := by
      rcases hx.sign with h1 | h1 <;> rcases hy.sign with h2 | h2 <;> omega
    rw [compareAbs_eq hx hy]
    refine .ite (fun hge => ?_) fun hlt => ?_
    · have hle : y.mag ≤ x.mag := by
        by_contra hlt
        rw [Int.sign_eq_neg_one_of_neg (by omega)] at hge
        omega
      refine (subAbs_spec hx hy hle).bind ?_
      rintro r ⟨hd, ht, hmag⟩
      refine .pure ⟨⟨hd, ht, hx.sign⟩, ?_, fun _ => rfl⟩
      change x.sign * r.mag = _
      rw [hmag, denote, denote, hopp]
      ring
    · have hgt : x.mag < y.mag := by
        by_contra hle
        have := Int.sign_nonneg_iff.mpr (by omega : 0 ≤ x.mag - y.mag)
        omega
      refine (subAbs_spec hy hx hgt.le).bind ?_
      rintro r ⟨hd, ht, hmag⟩
      refine .pure ⟨⟨hd, ht, hy.sign⟩, ?_, fun h0 => ?_⟩
      · change y.sign * r.mag = _
        rw [hmag, denote, denote, hopp]
        ring
      · change r.mag = 0 at h0
        omega

theorem neg_sign {s : ℤ} (h : s = 1 ∨ s = -1) : (Calc.number (-s)).Yields (· = -s) :=
  .number (by rcases h with rfl | rfl <;> decide)

/-- **`__sub`** -/
theorem sub_spec (hx : x.Normal) (hy : y.Normal) :
    (x.sub y).Yields fun r =>
      r.Normal ∧ r.denote = x.denote - y.denote ∧ (r.mag = 0 → r.sign = x.sign) := by
  unfold sub
  refine (neg_sign hy.sign).bind ?_
  rintro _ rfl
  refine (add_spec hx (hy.withSign ?_)).mono ?_
  · rcases hy.sign with h | h <;> omega
  · rintro r ⟨hn, hd, hs⟩
    refine ⟨hn, ?_, hs⟩
    rw [hd, denote, denote, denote, mag, mag, mag]
    ring

/-- **`__unm`** -/
theorem unm_spec (hx : x.Normal) :
    x.unm.Yields fun r => r.Normal ∧ r.denote = -x.denote ∧ r.mag = x.mag ∧ r.sign = -x.sign := by
  unfold unm
  refine (neg_sign hx.sign).bind ?_
  rintro _ rfl
  refine .pure ⟨hx.withSign ?_, ?_, rfl, rfl⟩
  · rcases hx.sign with h | h <;> omega
  · rw [denote, denote, mag, mag]
    ring

/-! ## Products -/

/-- The largest number of a product: two chunks multiplied, with a chunk and a carry. -/
theorem mul_chunk_bounds {x y l carry : ℤ} (hx : 0 ≤ x ∧ x < base) (hy : 0 ≤ y ∧ y < base)
    (hl : 0 ≤ l ∧ l < base) (hc : 0 ≤ carry ∧ carry < base) :
    0 ≤ x * y + l + carry ∧ x * y + l + carry < base * base := by
  have hbase : base = 10000000 := rfl
  have hprod : 0 ≤ x * y := mul_nonneg hx.1 hy.1
  have hprod' : x * y ≤ (base - 1) * (base - 1) :=
    mul_le_mul (by omega) (by omega) hy.1 (by omega)
  rw [hbase] at hprod' ⊢
  omega

/-- The inner loop of `__mul`, where the chunk behind the last one is zero. -/
theorem mulRow_spec {x : ℤ} (hx : 0 ≤ x ∧ x < base) {ys ls zs : List ℤ} {carry : ℤ}
    (hy : Digits base ys) (hl : Digits base ls) (hlen : ls.length = ys.length)
    (hc : 0 ≤ carry ∧ carry < base) :
    (mulRow x ys (ls ++ 0 :: zs) carry).Yields fun rs =>
      ∃ ls' c, rs = ls' ++ c :: zs ∧ ls'.length = ys.length ∧ Digits base ls' ∧
        (0 ≤ c ∧ c < base) ∧
        val base ls' + base ^ ys.length * c = x * val base ys + val base ls + carry := by
  induction ys generalizing ls carry with
  | nil =>
    obtain rfl := List.length_eq_zero_iff.mp hlen
    unfold mulRow
    refine .ite (fun hpos => ?_) fun hpos => ?_
    · have hbase : base = 10000000 := rfl
      refine (Calc.Yields.add ?_).bind ?_
      · rw [abs_lt]
        simp only [List.nil_append, List.headD_cons]
        omega
      · rintro _ rfl
        exact .pure ⟨[], carry, by simp, rfl, Digits.nil, hc, by simp⟩
    · obtain rfl : carry = 0 := by omega
      exact .pure ⟨[], 0, rfl, rfl, Digits.nil, ⟨le_refl 0, base_pos⟩, by simp⟩
  | cons y ys ih =>
    obtain ⟨l, ls, rfl⟩ := List.exists_cons_of_length_eq_add_one hlen
    obtain ⟨hyh, hys⟩ := Digits.cons.mp hy
    obtain ⟨hlh, hls⟩ := Digits.cons.mp hl
    have hlen' : ls.length = ys.length := by simpa using hlen
    have hbase : base = 10000000 := rfl
    have hprod : 0 ≤ x * y := mul_nonneg hx.1 hyh.1
    have hnum := mul_chunk_bounds hx hyh hlh hc
    have hcarry : 0 ≤ (x * y + l + carry) / base ∧ (x * y + l + carry) / base < base :=
      ⟨Int.ediv_nonneg hnum.1 base_pos.le, Int.ediv_lt_of_lt_mul base_pos hnum.2⟩
    have hdm := Int.emod_add_mul_ediv (x * y + l + carry) base
    have hmod := Int.emod_nonneg (x * y + l + carry) base_pos.ne'
    have hmod' := Int.emod_lt_of_pos (x * y + l + carry) base_pos
    have hsmall : base * base < 2 ^ 53 := by decide
    unfold mulRow
    simp only [List.cons_append, List.headD_cons, List.tail_cons]
    refine (Calc.Yields.mul (by rw [abs_lt]; omega)).andThen ?_
    refine (Calc.Yields.add (by rw [abs_lt]; omega)).andThen ?_
    refine (Calc.Yields.add (by rw [abs_lt]; omega)).andThen ?_
    refine (Calc.Yields.mod base_pos (by decide)).andThen ?_
    refine (Calc.Yields.floorDiv hnum.1 (by omega) base_pos (by decide)).andThen ?_
    refine (ih hys hls hlen' hcarry).bind ?_
    rintro _ ⟨ls', c, rfl, hll, hd, hcd, hval⟩
    refine .pure ⟨_ :: ls', c, rfl, by rw [List.length_cons, hll]; rfl,
      Digits.cons.mpr ⟨⟨hmod, hmod'⟩, hd⟩, hcd, ?_⟩
    rw [val_cons, val_cons, val_cons, List.length_cons, pow_succ]
    linear_combination base * hval + hdm

/-- The outer loop of `__mul`. -/
theorem mulLoop_spec {xs ys ls : List ℤ} (hx : Digits base xs) (hy : Digits base ys)
    (hl : Digits base ls) (hlen : ls.length = ys.length) (hne : ys ≠ []) :
    (mulLoop xs ys (ls ++ List.replicate xs.length 0)).Yields fun zs =>
      Digits base zs ∧ zs.length = ys.length + xs.length ∧
        val base zs = val base xs * val base ys + val base ls := by
  induction xs generalizing ls with
  | nil => exact .pure ⟨by simpa using hl, by simpa using hlen, by simp⟩
  | cons x xs ih =>
    obtain ⟨hxh, hxs⟩ := Digits.cons.mp hx
    rw [List.length_cons, List.replicate_succ]
    unfold mulLoop
    refine (mulRow_spec hxh hy hl hlen ⟨le_refl 0, base_pos⟩).bind ?_
    rintro _ ⟨ls', c, rfl, hll, hd, hcd, hval⟩
    cases ls' with
    | nil => exact absurd (List.length_eq_zero_iff.mp hll.symm) hne
    | cons l ls' =>
      obtain ⟨hlh, hls'⟩ := Digits.cons.mp hd
      have hll' : (ls' ++ [c]).length = ys.length := by simpa using hll
      have hrest := ih hxs (Digits.concat.mpr ⟨hls', hcd⟩) hll'
      rw [List.append_assoc, List.singleton_append] at hrest
      simp only [List.cons_append, List.tail_cons, List.headD_cons]
      refine hrest.bind ?_
      rintro zs ⟨hzd, hzl, hzval⟩
      refine .pure ⟨Digits.cons.mpr ⟨hlh, hzd⟩, by rw [List.length_cons, hzl]; omega, ?_⟩
      have hlen'' : ys.length = ls'.length + 1 := by simpa using hll.symm
      rw [val_cons, hzval, val_cons, val_concat]
      rw [val_cons, hlen'', pow_succ] at hval
      linear_combination hval

theorem mul_sign {s t : ℤ} (hs : s = 1 ∨ s = -1) (ht : t = 1 ∨ t = -1) :
    (Calc.mul s t).Yields fun r => r = s * t ∧ (r = 1 ∨ r = -1) := by
  refine (Calc.Yields.mul ?_).mono ?_
  · rcases hs with rfl | rfl <;> rcases ht with rfl | rfl <;> decide
  · rintro _ rfl
    rcases hs with rfl | rfl <;> rcases ht with rfl | rfl <;> decide

theorem denote_of_isZero (h : x.isZero = true) : x.denote = 0 := by
  rw [denote, mag, of_decide_eq_true h]
  simp

/-- **`__mul`**, also of big integers with zeros at the high end. -/
theorem mul_spec (hx : x.Loose) (hy : y.Loose) :
    (x.mul y).Yields fun r => r.Canonical ∧ r.denote = x.denote * y.denote := by
  unfold mul
  refine .ite (fun hz => ?_) fun hz => ?_
  · rw [fromNumber_zero]
    refine .pure ⟨canonical_zero, ?_⟩
    rcases hz with hz | hz
    · rw [denote_zero, denote_of_isZero hz, zero_mul]
    · rw [denote_zero, denote_of_isZero hz, mul_zero]
  · have hrep : List.replicate (x.chunks.length + y.chunks.length) (0 : ℤ) =
        List.replicate y.chunks.length 0 ++ List.replicate x.chunks.length 0 := by
      rw [List.replicate_append_replicate, Nat.add_comm]
    rw [hrep]
    refine (mulLoop_spec hx.digits hy.digits (.replicate_zero base_pos _)
      (List.length_replicate ..) hy.nonempty).bind ?_
    rintro zs ⟨hd, hlen, hval⟩
    refine (mul_sign hx.sign hy.sign).bind ?_
    rintro s ⟨rfl, hs⟩
    have hne : zs ≠ [] := by
      rintro rfl
      have := List.length_pos_of_ne_nil hy.nonempty
      simp only [List.length_nil] at hlen
      omega
    obtain ⟨hcan, hden⟩ := trim_spec hd hne hs
    refine .pure ⟨hcan, ?_⟩
    rw [hden, hval, val_replicate_zero, denote, denote, mag, mag]
    ring

/-! ## Divisors -/

end Avant.Numeric.BigInt
