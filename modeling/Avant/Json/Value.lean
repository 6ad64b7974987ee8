import Avant.Lib.Halting
import Avant.Lib.Rfc8259
import Avant.Lib.SortedMap

/-!
# JSON values

Model of `external/avant-json/json.{h,cpp}`: a node and its payload, `to_string` and `operator==`.
An object is a `std::map` from byte strings, kept as its entries in the order of the keys.

The C library's doubles are a parameter (`Doubles`): what `snprintf("%.17g")` prints, what
`strtod` reads, `std::isfinite` and `==`. `Doubles.Lawful` states what is used of them.

`Json.Ok n` are the values a program can build: integers of 64 bits, finite doubles (the
constructor and `set` refuse the others), objects with their keys in order, at most `n` arrays and
objects inside one another.

* `operatorEq_self`: such a value is equal to itself.

Left out: the accessors, `set`, `remove`, `has`, `get` and the copy and move operations, which
neither the parser nor `to_string` calls.
-/

namespace Avant

open Avant.Lib

/-- The operations on `double` that the C library provides. -/
structure Json.Doubles (δ : Type) where
  /-- `snprintf(buf, sizeof(buf), "%.17g", d)` -/
  format : δ → Bytes
  /-- `strtod`, on the text of one number -/
  strtod : Bytes → δ
  /-- `std::isfinite` -/
  isfinite : δ → Bool
  /-- `==` -/
  eq : δ → δ → Bool

/-- What holds of IEEE doubles and the C library: `%.17g` prints a finite double as a number that
`strtod` reads back, `strtod` takes a digit string followed by `.0` for the same number, and a
finite double equals itself. -/
structure Json.Doubles.Lawful {δ : Type} (D : Json.Doubles δ) : Prop where
  number : ∀ d, D.isfinite d = true → ∃ x : Rfc8259.Number, D.format d = x.bytes
  roundTrip : ∀ d, D.isfinite d = true → D.strtod (D.format d) = d
  point : ∀ x : Rfc8259.Number, x.isInteger = true →
    D.strtod (x.bytes ++ ascii ".0") = D.strtod x.bytes
  eq_self : ∀ d, D.isfinite d = true → D.eq d d = true

/-- `json`: the type of a node with the payload that goes with it. -/
inductive Json (δ : Type)
  | null
  | bool (b : Bool)
  | integer (i : Int)
  | double (d : δ)
  | string (s : Bytes)
  | array (xs : List (Json δ))
  | object (m : List (Bytes × Json δ))

namespace Json

/-- `long long` -/
def IsInt64 (i : Int) : Prop := -2 ^ 63 ≤ i ∧ i < 2 ^ 63

instance (i : Int) : Decidable (IsInt64 i) := inferInstanceAs (Decidable (_ ∧ _))

variable {δ : Type} (D : Doubles δ)

/-- The values that can be built, with at most `n` arrays and objects inside one another. -/
inductive Ok : Nat → Json δ → Prop
  | null {n : Nat} : Ok n .null
  | bool {n : Nat} (b : Bool) : Ok n (.bool b)
  | integer {n : Nat} {i : Int} : IsInt64 i → Ok n (.integer i)
  | double {n : Nat} {d : δ} : D.isfinite d = true → Ok n (.double d)
  | string {n : Nat} (s : Bytes) : Ok n (.string s)
  | array {n : Nat} {xs : List (Json δ)} : (∀ x ∈ xs, Ok n x) → Ok (n + 1) (.array xs)
  | object {n : Nat} {m : List (Bytes × Json δ)} :
      Sorted m → (∀ e ∈ m, Ok n e.2) → Ok (n + 1) (.object m)

/-! ## `to_string` -/

/-- A hexadecimal digit of `%x`. -/
def hexDigit (n : Nat) : UInt8 := UInt8.ofNat (if n < 10 then 0x30 + n else 0x61 + (n - 10))

/-- `%04x`, of a number of at most four digits. -/
def hex04 (n : Nat) : Bytes :=
  [hexDigit (n / 4096 % 16), hexDigit (n / 256 % 16), hexDigit (n / 16 % 16), hexDigit (n % 16)]

/-- One turn of `append_escaped_body`. -/
def escapeChar (ch : UInt8) : Bytes :=
  if ch = 0x22 then ascii "\\\""
  else if ch = 0x5C then ascii "\\\\"
  else if ch = 0x08 then ascii "\\b"
  else if ch = 0x0C then ascii "\\f"
  else if ch = 0x0A then ascii "\\n"
  else if ch = 0x0D then ascii "\\r"
  else if ch = 0x09 then ascii "\\t"
  else if ch < 0x20 then ascii "\\u" ++ hex04 ch.toNat
  else [ch]

def appendEscapedBody (value : Bytes) : Bytes := value.flatMap escapeChar

def stringToken (value : Bytes) : Bytes := 0x22 :: (appendEscapedBody value ++ [0x22])

/-- The double case of `to_string`. -/
def doubleText (d : δ) : Except Stop Bytes :=
  if D.isfinite d = false then
    logicError "function json::to_string non-finite double is not representable in JSON"
  else
    let s := D.format d
    .ok (if 0x2E ∉ s ∧ 0x65 ∉ s ∧ 0x45 ∉ s then s ++ ascii ".0" else s)

mutual

/-- `json::to_string` -/
def toString : Json δ → Except Stop Bytes
  | .null => .ok (ascii "null")
  | .bool b => .ok (if b then ascii "true" else ascii "false")
  | .integer i => .ok (Decimal.intText i)
  | .double d => doubleText D d
  | .string s => .ok (stringToken s)
  | .array xs => do
    let body ← elementsLoop true xs
    .ok (0x5B :: (body ++ [0x5D]))
  | .object m => do
    let body ← membersLoop true m
    .ok (0x7B :: (body ++ [0x7D]))

/-- The loop over the elements of an array. -/
def elementsLoop : Bool → List (Json δ) → Except Stop Bytes
  | _, [] => .ok []
  | first, x :: xs => do
    let text ← toString x
    let rest ← elementsLoop false xs
    .ok ((if first then [] else [0x2C]) ++ (text ++ rest))

/-- The loop over the entries of an object. -/
def membersLoop : Bool → List (Bytes × Json δ) → Except Stop Bytes
  | _, [] => .ok []
  | first, (key, x) :: m => do
    let text ← toString x
    let rest ← membersLoop false m
    .ok ((if first then [] else [0x2C]) ++ (stringToken key ++ 0x3A :: (text ++ rest)))

end

/-! ## `operator==` -/

theorem sizeOf_snd_lt {m : List (Bytes × Json δ)} {e : Bytes × Json δ} (h : e ∈ m) :
    sizeOf e.2 < sizeOf m := by
  have hlt := List.sizeOf_lt_of_mem h
  cases e
  simp only [Prod.mk.sizeOf_spec] at hlt ⊢
  omega

/-- `json::operator==` -/
def operatorEq : Json δ → Json δ → Bool
  | .array xs, .array ys =>
    xs.length == ys.length && (xs.attach.zip ys.attach).all fun p => operatorEq p.1.1 p.2.1
  | .bool b, .bool b' => b == b'
  | .double d, .double d' => D.eq d d'
  | .integer i, .integer i' => i == i'
  | .null, .null => true
  | .object m, .object m' =>
    m.length == m'.length && m.attach.all fun e =>
      match m'.attach.find? fun e' => e'.1.1 == e.1.1 with
      | none => false
      | some e' => operatorEq e'.1.2 e.1.2
  | .string s, .string s' => s == s'
  | _, _ => false
termination_by a b => sizeOf a + sizeOf b
decreasing_by
  · have hx := List.sizeOf_lt_of_mem p.1.2
    have hy := List.sizeOf_lt_of_mem p.2.2
    simp only [Json.array.sizeOf_spec]
    omega
  · have hx := sizeOf_snd_lt e.2
    have hy := sizeOf_snd_lt e'.2
    simp only [Json.object.sizeOf_spec]
    omega

variable {D}

theorem operatorEq_array {xs : List (Json δ)} (h : ∀ x ∈ xs, operatorEq D x x = true) :
    operatorEq D (.array xs) (.array xs) = true := by
  rw [operatorEq, beq_self_eq_true, Bool.true_and, List.all_eq_true]
  rintro ⟨x, y⟩ hxy
  obtain ⟨i, hi, hxy⟩ := List.mem_iff_getElem.mp hxy
  have heq : x = y := by
    simp only [List.getElem_zip, Prod.mk.injEq] at hxy
    exact hxy.1.symm.trans hxy.2
  subst heq
  exact h x.1 x.2

theorem operatorEq_object {m : List (Bytes × Json δ)} (hs : Sorted m)
    (h : ∀ e ∈ m, operatorEq D e.2 e.2 = true) :
    operatorEq D (.object m) (.object m) = true := by
  have hfind : ∀ e : { e // e ∈ m }, m.attach.find? (fun e' => e'.1.1 == e.1.1) = some e := by
    intro e
    cases hf : m.attach.find? (fun e' => e'.1.1 == e.1.1) with
    | none => simpa using List.find?_eq_none.mp hf e (List.mem_attach m e)
    | some e' =>
      have hkey : e'.1.1 = e.1.1 := by simpa using List.find?_some hf
      exact congrArg some (Subtype.ext (hs.eq_of_key e'.2 e.2 hkey))
  rw [operatorEq, beq_self_eq_true, Bool.true_and, List.all_eq_true]
  intro e _
  simp only [hfind e]
  exact h e.1 e.2

/-- A value that can be built is equal to itself. -/
theorem operatorEq_self (hD : D.Lawful) {n : Nat} {v : Json δ} (h : v.Ok D n) :
    v.operatorEq D v = true := by
  induction h with
  | null => rw [operatorEq]
  | bool b => rw [operatorEq, beq_self_eq_true]
  | integer hi => rw [operatorEq, beq_self_eq_true]
  | double hd => rw [operatorEq]; exact hD.eq_self _ hd
  | string s => rw [operatorEq, beq_self_eq_true]
  | array _ ih => exact operatorEq_array ih
  | object hs _ ih => exact operatorEq_object hs ih

end Json

end Avant
