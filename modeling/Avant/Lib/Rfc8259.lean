import Avant.Lib.CString

/-!
# The grammar of JSON texts

RFC 8259 over bytes, where a byte from `0x80` on is an ordinary character of a string. The tokens
are structures that carry what the grammar asks of them (`Digits`, `Exponent`, `Number`,
`StrChar`); `Value` and `Text` are the productions for whole values and texts.

The grammar leaves to an implementation which numbers it can represent, how deep it lets values
nest and what it does about escapes that name half of a surrogate pair. These limits are the
parameters of `Value`: the numbers and the strings that are let through, and the number of arrays
and objects that may be open at once.

* `Number.pow_le_natAbs_value`: the digits of an integer bound it from below, so a reader may
  refuse a number by its length.
* `Number.isDigit_of_isInteger`, `Number.isInteger_of_notMem`: a number is an integer exactly when
  its text has no point and no exponent letter.
-/

namespace Avant.Lib.Rfc8259

open Decimal

/-! ## White space and digits -/

/-- Space, horizontal tab, line feed, carriage return. -/
def isWs (b : UInt8) : Bool := b = 0x20 || b = 0x09 || b = 0x0A || b = 0x0D

/-- `ws` -/
def Ws (w : Bytes) : Prop := ∀ b ∈ w, isWs b = true

/-- `1*DIGIT` -/
structure Digits where
  bytes : Bytes
  nonempty : bytes ≠ []
  digits : ∀ b ∈ bytes, isDigit b = true

/-- The digit zero. -/
def Digits.zero : Digits where
  bytes := [0x30]
  nonempty := List.cons_ne_nil _ _
  digits b hb := by
    obtain rfl := List.mem_singleton.mp hb
    rfl

theorem ws_nil : Ws [] := by
  intro b hb
  cases hb

/-! ## Numbers -/

/-- `exp = e [ minus / plus ] 1*DIGIT` -/
structure Exponent where
  e : UInt8
  isE : e = 0x65 ∨ e = 0x45
  sign : Option UInt8
  isSign : ∀ b ∈ sign, b = 0x2B ∨ b = 0x2D
  digits : Digits

def Exponent.bytes (x : Exponent) : Bytes := x.e :: (x.sign.toList ++ x.digits.bytes)

/-- `number = [ minus ] int [ frac ] [ exp ]`, where an `int` of more than one digit does not
start with zero. -/
structure Number where
  minus : Bool
  int : Digits
  noLeadingZero : int.bytes.head? = some 0x30 → int.bytes = [0x30]
  frac : Option Digits
  exp : Option Exponent

namespace Number

def signBytes (x : Number) : Bytes := if x.minus then [0x2D] else []

def fracBytes (x : Number) : Bytes := (x.frac.map fun ds => 0x2E :: ds.bytes).getD []

def expBytes (x : Number) : Bytes := (x.exp.map Exponent.bytes).getD []

/-- The text of a number. -/
def bytes (x : Number) : Bytes := x.signBytes ++ (x.int.bytes ++ (x.fracBytes ++ x.expBytes))

/-- A number without fraction and exponent. -/
def isInteger (x : Number) : Bool := x.frac.isNone && x.exp.isNone

/-- What an integer denotes. -/
def value (x : Number) : Int :=
  if x.minus then -(digitsValue x.int.bytes : Int) else digitsValue x.int.bytes

theorem bytes_of_isInteger {x : Number} (h : x.isInteger = true) :
    x.bytes = x.signBytes ++ x.int.bytes := by
  simp only [isInteger, Bool.and_eq_true, Option.isNone_iff_eq_none] at h
  simp [bytes, fracBytes, expBytes, h.1, h.2]

/-- A number starts with a digit or a minus sign. -/
theorem head (x : Number) : ∃ c s, x.bytes = c :: s ∧ (c = 0x2D ∨ isDigit c = true) := by
  cases hm : x.minus with
  | true =>
    exact ⟨0x2D, x.int.bytes ++ (x.fracBytes ++ x.expBytes), by simp [bytes, signBytes, hm],
      .inl rfl⟩
  | false =>
    cases hds : x.int.bytes with
    | nil => exact absurd hds x.int.nonempty
    | cons d ds =>
      exact ⟨d, ds ++ (x.fracBytes ++ x.expBytes), by simp [bytes, signBytes, hm, hds],
        .inr (x.int.digits d (by simp [hds]))⟩

/-- An integer of more than `n` digits is at least `10 ^ n` in size. -/
theorem pow_le_natAbs_value {x : Number} {n : Nat} (hn : 0 < n) (h : n < x.int.bytes.length) :
    10 ^ n ≤ x.value.natAbs := by
  have habs : x.value.natAbs = digitsValue x.int.bytes := by
    simp only [value]
    split <;> simp
  have hnz := x.noLeadingZero
  have hdig := x.int.digits
  rw [habs]
  generalize x.int.bytes = ds at h hnz hdig
  cases ds with
  | nil => simp at h
  | cons d ds =>
    have h0 : d ≠ 0x30 := by
      rintro rfl
      have : ds = [] := by simpa using hnz rfl
      simp only [this, List.length_cons, List.length_nil] at h
      omega
    calc 10 ^ n ≤ 10 ^ ds.length := by
          simp only [List.length_cons] at h
          exact Nat.pow_le_pow_right (by decide) (by omega)
      _ ≤ digitsValue (d :: ds) := pow_le_digitsValue ds (hdig d (by simp)) h0

theorem isDigit_of_isInteger {x : Number} (h : x.isInteger = true) :
    ∀ b ∈ x.bytes, b = 0x2D ∨ isDigit b = true := by
  intro b hb
  rw [bytes_of_isInteger h, List.mem_append] at hb
  rcases hb with hb | hb
  · left
    simp only [signBytes] at hb
    split at hb <;> simp_all
  · exact .inr (x.int.digits b hb)

theorem isInteger_of_notMem {x : Number} (hp : 0x2E ∉ x.bytes) (he : 0x65 ∉ x.bytes)
    (hE : 0x45 ∉ x.bytes) : x.isInteger = true := by
  simp only [bytes, List.mem_append, not_or] at hp he hE
  have hfrac : x.frac = none := by
    cases hx : x.frac with
    | none => rfl
    | some ds => simp [fracBytes, hx] at hp
  have hexp : x.exp = none := by
    cases hx : x.exp with
    | none => rfl
    | some ex =>
      rcases ex.isE with h | h <;> simp [expBytes, hx, Exponent.bytes, h] at he hE
  simp [isInteger, hfrac, hexp]

end Number

/-! ## Strings -/

/-- `%x20-21 / %x23-5B / %x5D-10FFFF`, byte by byte. -/
def isUnescaped (b : UInt8) : Bool := 0x20 ≤ b && b ≠ 0x22 && b ≠ 0x5C

/-- The letters that stand behind a backslash on their own. -/
def isEscape (b : UInt8) : Bool := (ascii "\"\\/bfnrt").contains b

def isHex (b : UInt8) : Bool := (hexValue b).isSome

/-- `char` -/
inductive StrChar
  | unescaped (b : UInt8) (h : isUnescaped b = true)
  | escaped (b : UInt8) (h : isEscape b = true)
  | unicode (a b c d : UInt8) (h : [a, b, c, d].all isHex = true)

namespace StrChar

def bytes : StrChar → Bytes
  | unescaped b _ => [b]
  | escaped b _ => [0x5C, b]
  | unicode a b c d _ => [0x5C, 0x75, a, b, c, d]

theorem bytes_length_pos (c : StrChar) : 0 < c.bytes.length := by
  cases c <;> simp [bytes]

/-- The code unit a `\u` escape names. -/
def unit : StrChar → Nat
  | unicode a b c d _ => hexFold 0 [a, b, c, d]
  | _ => 0

/-- The first half of a surrogate pair. -/
def isHigh (c : StrChar) : Bool := 0xD800 ≤ c.unit && c.unit ≤ 0xDBFF

/-- The second half of a surrogate pair. -/
def isLow (c : StrChar) : Bool := 0xDC00 ≤ c.unit && c.unit ≤ 0xDFFF

end StrChar

/-- Every escape that names half of a surrogate pair is followed, or preceded, by the other
half. -/
inductive Paired : List StrChar → Prop
  | nil : Paired []
  | char {c : StrChar} {cs : List StrChar} :
      c.isHigh = false → c.isLow = false → Paired cs → Paired (c :: cs)
  | pair {hi lo : StrChar} {cs : List StrChar} :
      hi.isHigh = true → lo.isLow = true → Paired cs → Paired (hi :: lo :: cs)

/-- The text between the quotation marks. -/
def strBytes (cs : List StrChar) : Bytes := cs.flatMap StrChar.bytes

/-- `string` -/
def quoted (cs : List StrChar) : Bytes := 0x22 :: (strBytes cs ++ [0x22])

/-! ## Values and texts -/

/-- An element of an array, with the white space around it. -/
structure Elem where
  before : Bytes
  text : Bytes
  after : Bytes

def Elem.bytes (x : Elem) : Bytes := x.before ++ (x.text ++ x.after)

def Elem.Spaced (x : Elem) : Prop := Ws x.before ∧ Ws x.after

/-- `member = string name-separator value`, with its white space: before the name, behind it, and
around the value. -/
structure Member where
  before : Bytes
  name : List StrChar
  afterName : Bytes
  value : Elem

def Member.bytes (m : Member) : Bytes :=
  m.before ++ (quoted m.name ++ (m.afterName ++ 0x3A :: m.value.bytes))

def Member.Spaced (m : Member) : Prop := Ws m.before ∧ Ws m.afterName ∧ m.value.Spaced

theorem Elem.bytes_append (x : Elem) (s : Bytes) :
    x.bytes ++ s = x.before ++ (x.text ++ (x.after ++ s)) := by
  simp [Elem.bytes]

theorem Member.bytes_append (m : Member) (s : Bytes) :
    m.bytes ++ s = m.before ++ 0x22 :: (strBytes m.name ++ 0x22 :: (m.afterName ++ 0x3A ::
      (m.value.before ++ (m.value.text ++ (m.value.after ++ s))))) := by
  simp [Member.bytes, Elem.bytes, quoted]

/-- `x *( value-separator x )` -/
def commaSeparated : List Bytes → Bytes
  | [] => []
  | x :: xs => x ++ xs.flatMap fun y => 0x2C :: y

/-- The texts of values of the grammar in which at most `n` arrays and objects are open at once,
every number satisfies `num` and every string satisfies `str`. -/
inductive Value (num : Number → Prop) (str : List StrChar → Prop) : Nat → Bytes → Prop
  | nullLit {n : Nat} : Value num str n (ascii "null")
  | trueLit {n : Nat} : Value num str n (ascii "true")
  | falseLit {n : Nat} : Value num str n (ascii "false")
  | number {n : Nat} {x : Number} : num x → Value num str n x.bytes
  | string {n : Nat} {cs : List StrChar} : str cs → Value num str n (quoted cs)
  | emptyArray {n : Nat} {w : Bytes} : Ws w → Value num str (n + 1) (0x5B :: (w ++ [0x5D]))
  | array {n : Nat} {xs : List Elem} :
      xs ≠ [] → (∀ x ∈ xs, x.Spaced) → (∀ x ∈ xs, Value num str n x.text) →
      Value num str (n + 1) (0x5B :: (commaSeparated (xs.map Elem.bytes) ++ [0x5D]))
  | emptyObject {n : Nat} {w : Bytes} : Ws w → Value num str (n + 1) (0x7B :: (w ++ [0x7D]))
  | object {n : Nat} {ms : List Member} :
      ms ≠ [] → (∀ m ∈ ms, m.Spaced ∧ str m.name) → (∀ m ∈ ms, Value num str n m.value.text) →
      Value num str (n + 1) (0x7B :: (commaSeparated (ms.map Member.bytes) ++ [0x7D]))

/-- `JSON-text = ws value ws` -/
def Text (num : Number → Prop) (str : List StrChar → Prop) (n : Nat) (s : Bytes) : Prop :=
  ∃ w t w', Ws w ∧ Value num str n t ∧ Ws w' ∧ s = w ++ (t ++ w')

end Avant.Lib.Rfc8259
