import Avant.Lib.CString

/-!
# Values of an INI file

Model of `value::operator int` (`external/avant-inifile/value.cpp`). The digits behind a sign are
counted first, and more than ten of them saturate without being read; the others go through
`std::stoll` and two comparisons.

* `toInt_eq_clamp_iff`: for a numeral this is the number it denotes, clamped to `int`, exactly if it
  has at most ten digits or the number is beyond the range; leading zeros count as digits.

Left out: the other conversions, and the assignments, which store a text.
-/

namespace Avant.Inifile

open Avant.Lib

def intMin : Int := -2 ^ 31

def intMax : Int := 2 ^ 31 - 1

/-- `value::operator int`, of the text `m_value` -/
def toInt (value : Bytes) : Int :=
  let negative : Bool := value.head? = some 0x2D
  let i := if value.head? = some 0x2D ∨ value.head? = some 0x2B then 1 else 0
  let digitCount := ((value.drop i).takeWhile Decimal.isDigit).length
  if 10 < digitCount then if negative then intMin else intMax
  else
    match stoll value with
    | some result => if intMax < result then intMax else if result < intMin then intMin else result
    | none => 0

/-! ## Numerals -/

/-- The sign of a numeral. -/
inductive Sign
  | none
  | plus
  | minus
  deriving DecidableEq

namespace Sign

def text : Sign → Bytes
  | none => []
  | plus => [0x2B]
  | minus => [0x2D]

/-- The number that a sign and digits denote. -/
def denotes (sign : Sign) (digits : Bytes) : Int :=
  match sign with
  | minus => -Decimal.digitsValue digits
  | _ => Decimal.digitsValue digits

end Sign

/-- The number in the range of `int` that is closest. -/
def clamp (i : Int) : Int := max intMin (min intMax i)

/-- The two comparisons. -/
theorem ite_eq_clamp (i : Int) :
    (if intMax < i then intMax else if i < intMin then intMin else i) = clamp i := by
  have hrange : intMin ≤ intMax := by decide
  unfold clamp
  split
  · omega
  · split <;> omega

section Numeral

variable (sign : Sign) {digits : Bytes} (hne : digits ≠ [])
  (hdigits : ∀ d ∈ digits, Decimal.isDigit d = true)

include hne hdigits

theorem scanInteger_numeral :
    scanInteger (sign.text ++ digits) =
      some (decide (sign = .minus), Decimal.digitsValue digits) := by
  cases sign with
  | none => exact scanInteger_digits hne hdigits
  | plus => exact scanInteger_sign hne hdigits (.inr rfl)
  | minus => exact scanInteger_sign hne hdigits (.inl rfl)

/-- What the count sees of a numeral: its sign, and its digits. -/
theorem head_numeral :
    ((sign.text ++ digits).head? = some 0x2D ↔ sign = .minus) ∧
      ((sign.text ++ digits).head? = some 0x2B ↔ sign = .plus) := by
  obtain ⟨d, ds, rfl⟩ := List.exists_cons_of_ne_nil hne
  have hd := hdigits d List.mem_cons_self
  have hminus : d ≠ 0x2D := ne_of_isDigit rfl hd
  have hplus : d ≠ 0x2B := ne_of_isDigit rfl hd
  cases sign <;> simp [Sign.text, hminus, hplus]

theorem takeWhile_numeral :
    ((sign.text ++ digits).drop (if (sign.text ++ digits).head? = some 0x2D ∨
      (sign.text ++ digits).head? = some 0x2B then 1 else 0)).takeWhile Decimal.isDigit =
        digits := by
  obtain ⟨hminus, hplus⟩ := head_numeral sign hne hdigits
  have htake : digits.takeWhile Decimal.isDigit = digits := List.takeWhile_eq_self_iff.mpr hdigits
  simp only [hminus, hplus]
  cases sign <;> exact htake

theorem stoll_numeral (hlen : digits.length ≤ 10) :
    stoll (sign.text ++ digits) = some (sign.denotes digits) := by
  have hlt := Decimal.digitsValue_lt hdigits
  have hpow : 10 ^ digits.length ≤ 10 ^ 10 := Nat.pow_le_pow_right (by decide) hlen
  rw [stoll, scanInteger_numeral sign hne hdigits, Option.bind_some]
  cases sign <;>
  · simp only [Sign.denotes, reduceCtorEq, decide_false, decide_true, Bool.false_eq_true, if_false,
      if_true]
    exact if_pos (by omega)

theorem toInt_numeral :
    toInt (sign.text ++ digits) =
      if 10 < digits.length then if sign = .minus then intMin else intMax
      else clamp (sign.denotes digits) := by
  unfold toInt
  simp only [takeWhile_numeral sign hne hdigits]
  simp only [(head_numeral sign hne hdigits).1, decide_eq_true_eq]
  split
  · rfl
  · next hlen =>
    rw [stoll_numeral sign hne hdigits (by omega)]
    exact ite_eq_clamp _

/-- **Conversion to int saturates** for a numeral exactly if it has at most ten digits, leading
zeros counted, or the number is not inside the range. -/
theorem toInt_eq_clamp_iff :
    toInt (sign.text ++ digits) = clamp (sign.denotes digits) ↔
      digits.length ≤ 10 ∨ sign.denotes digits ≤ intMin ∨ intMax ≤ sign.denotes digits := by
  rw [toInt_numeral sign hne hdigits]
  split
  · next hlen =>
    have hlen' : ¬ digits.length ≤ 10 := by omega
    cases sign <;>
    · simp only [reduceCtorEq, if_false, if_true, Sign.denotes, clamp, intMin, intMax, hlen',
        false_or]
      omega
  · next hlen =>
    simp only [true_iff]
    exact .inl (by omega)

end Numeral

theorem toInt_eq_clamp_minus :
    toInt (Sign.minus.text ++ ascii "0000000007") = clamp (Sign.minus.denotes (ascii "0000000007")) ∧
      clamp (Sign.minus.denotes (ascii "0000000007")) = -7 :=
  ⟨(toInt_eq_clamp_iff .minus (by decide) (List.all_eq_true.mp rfl)).mpr (.inl (by decide)),
    by decide⟩

/-- `00000000007` has eleven digits. -/
theorem not_toInt_eq_clamp :
    toInt (Sign.none.text ++ ascii "00000000007") = 2147483647 ∧
      clamp (Sign.none.denotes (ascii "00000000007")) = 7 := by
  decide

end Avant.Inifile
