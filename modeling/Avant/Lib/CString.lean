import Mathlib.Data.List.TakeWhile
import Avant.Lib.Decimal

/-!
# The C library on byte strings

Characters in the locale `C` and in UTF-8, and the numerals of `strtoll` and `strtoull` with base 10, over which
`std::stoll` and `std::stoull` are defined.

* `scanInteger_digits`, `scanInteger_sign`: digits with or without a sign are read as the number
  they denote.
-/

namespace Avant.Lib

/-- `isspace` -/
def isSpace (c : UInt8) : Bool := c = 0x20 || (0x09 ≤ c && c ≤ 0x0D)

/-- `isalpha` -/
def isAlpha (c : UInt8) : Bool := (0x41 ≤ c && c ≤ 0x5A) || (0x61 ≤ c && c ≤ 0x7A)

/-- `tolower` -/
def toLower (c : UInt8) : UInt8 := if 0x41 ≤ c ∧ c ≤ 0x5A then c + 0x20 else c

/-- The number a hexadecimal digit stands for, in either case. -/
def hexValue (b : UInt8) : Option Nat :=
  if 0x30 ≤ b ∧ b ≤ 0x39 then some (b.toNat - 0x30)
  else if 0x61 ≤ b ∧ b ≤ 0x66 then some (b.toNat - 0x57)
  else if 0x41 ≤ b ∧ b ≤ 0x46 then some (b.toNat - 0x37)
  else none

/-- The number that hexadecimal digits denote, read behind `value`. -/
def hexFold (value : Nat) (ds : Bytes) : Nat :=
  ds.foldl (fun n d => n * 16 + (hexValue d).getD 0) value

/-- A code point in UTF-8. -/
def utf8 (cp : Nat) : Bytes :=
  if cp < 0x80 then [UInt8.ofNat cp]
  else if cp < 0x800 then [UInt8.ofNat (0xC0 ||| cp >>> 6), UInt8.ofNat (0x80 ||| (cp &&& 0x3F))]
  else if cp < 0x10000 then
    [UInt8.ofNat (0xE0 ||| cp >>> 12), UInt8.ofNat (0x80 ||| (cp >>> 6 &&& 0x3F)),
      UInt8.ofNat (0x80 ||| (cp &&& 0x3F))]
  else
    [UInt8.ofNat (0xF0 ||| cp >>> 18), UInt8.ofNat (0x80 ||| (cp >>> 12 &&& 0x3F)),
      UInt8.ofNat (0x80 ||| (cp >>> 6 &&& 0x3F)), UInt8.ofNat (0x80 ||| (cp &&& 0x3F))]

theorem isSpace_of_isDigit {b : UInt8} (h : Decimal.isDigit b = true) : isSpace b = false := by
  have hbound := Decimal.isDigit_toNat h
  simp only [isSpace, Bool.or_eq_false_iff, Bool.and_eq_false_iff, decide_eq_false_iff_not,
    ← UInt8.toNat_inj, UInt8.le_iff_toNat_le, UInt8.reduceToNat]
  omega

theorem ne_of_isDigit {b c : UInt8} (hc : Decimal.isDigit c = false)
    (h : Decimal.isDigit b = true) : b ≠ c := by
  rintro rfl
  rw [h] at hc
  cases hc

/-- The sign and the number that `strtoll` and `strtoull` read, `none` without digits. -/
def scanInteger (s : Bytes) : Option (Bool × Nat) :=
  let s := s.dropWhile isSpace
  let negative : Bool := s.head? = some 0x2D
  let s := if negative ∨ s.head? = some 0x2B then s.tail else s
  let digits := s.takeWhile Decimal.isDigit
  if digits = [] then none else some (negative, Decimal.digitsValue digits)

section Digits

variable {ds : Bytes} (hne : ds ≠ []) (hds : ∀ d ∈ ds, Decimal.isDigit d = true)

include hne hds

theorem scanInteger_digits : scanInteger ds = some (false, Decimal.digitsValue ds) := by
  obtain ⟨d, ds, rfl⟩ := List.exists_cons_of_ne_nil hne
  have hd := hds d List.mem_cons_self
  have hminus : d ≠ 0x2D := ne_of_isDigit rfl hd
  have hplus : d ≠ 0x2B := ne_of_isDigit rfl hd
  have htake := List.takeWhile_eq_self_iff.mpr hds
  simp [scanInteger, isSpace_of_isDigit hd, hminus, hplus, htake]

theorem scanInteger_sign {c : UInt8} (hc : c = 0x2D ∨ c = 0x2B) :
    scanInteger (c :: ds) = some (decide (c = 0x2D), Decimal.digitsValue ds) := by
  have hspace : isSpace c = false := by
    rcases hc with rfl | rfl <;> rfl
  have htake := List.takeWhile_eq_self_iff.mpr hds
  simp [scanInteger, hspace, hc, htake, hne]

end Digits

/-- `std::stoll`, `none` when it throws. -/
def stoll (s : Bytes) : Option Int :=
  (scanInteger s).bind fun (negative, n) =>
    let value : Int := if negative then -n else n
    if -2 ^ 63 ≤ value ∧ value < 2 ^ 63 then some value else none

/-- `std::stoull`, where a sign negates modulo `2 ^ 64`; `none` when it throws. -/
def stoull (s : Bytes) : Option Nat :=
  (scanInteger s).bind fun (negative, n) =>
    if n < 2 ^ 64 then some (if negative then (2 ^ 64 - n) % 2 ^ 64 else n) else none

end Avant.Lib
