import Avant.Json.Value

/-!
# The JSON parser

Model of `external/avant-json/parser.{h,cpp}`. The parser keeps the text and a position and only
looks to the right of the position, so its state here is that right part; `m_idx--` puts the byte
just read back in front of it. Every error is the `std::logic_error` of the source with its text.

`scanNumber` returns the sign, the text of the number and what is behind it, where the source
returns the sign and the length. `strtoll` and `strtod` are called on that text: the source calls
them at its first byte, and the scan has gone as far as either of them would.

The loops of `parse_string` and `parse` have no bound in the source. They get turns here, and
`Reads.lean` shows that the turns `parse` starts with always suffice.
-/

namespace Avant.Json

open Avant.Lib

/-! ## Numbers -/

def isDigit (c : UInt8) : Bool := 0x30 ≤ c && c ≤ 0x39

def isExponentChar (c : UInt8) : Bool := c = 0x65 || c = 0x45

/-- The digits at the front and what follows them. -/
def scanDigits (s : Bytes) : Bytes × Bytes := (s.takeWhile isDigit, s.dropWhile isDigit)

/-- The integer part: `0`, or digits that do not start with it. -/
def scanInt : Bytes → Option (Bytes × Bytes)
  | [] => none
  | c :: s =>
    if c = 0x30 then
      if s.head?.any isDigit then none else some ([c], s)
    else if 0x31 ≤ c ∧ c ≤ 0x39 then
      some (c :: (scanDigits s).1, (scanDigits s).2)
    else none

/-- Digits, of which there must be one. -/
def scanDigits1 (s : Bytes) : Option (Bytes × Bytes) :=
  if s.head?.any isDigit then some (scanDigits s) else none

/-- The fractional part, if there is a point. -/
def scanFrac : Bytes → Option (Bytes × Bytes)
  | [] => some ([], [])
  | c :: s =>
    if c = 0x2E then (scanDigits1 s).map fun r => (c :: r.1, r.2)
    else some ([], c :: s)

/-- The sign of an exponent, if there is one. -/
def scanSign : Bytes → Bytes × Bytes
  | [] => ([], [])
  | c :: s => if c = 0x2B ∨ c = 0x2D then ([c], s) else ([], c :: s)

/-- The exponent part, if there is an exponent letter. -/
def scanExp : Bytes → Option (Bytes × Bytes)
  | [] => some ([], [])
  | c :: s =>
    if isExponentChar c then
      (scanDigits1 (scanSign s).2).map fun r => (c :: ((scanSign s).1 ++ r.1), r.2)
    else some ([], c :: s)

/-- `scan_number`: the sign, the text of the number, and what is behind it. -/
def scanNumber (s : Bytes) : Option (Bool × Bytes × Bytes) := do
  let sign : Bool := s.head? = some 0x2D
  let s := if sign then s.tail else s
  let (int, s) ← scanInt s
  let (frac, s) ← scanFrac s
  let (exp, s) ← scanExp s
  pure (sign, (if sign then [0x2D] else []) ++ (int ++ (frac ++ exp)), s)

/-- `strtoll(…, 10)` on a sign and digits, `none` for `ERANGE`. -/
def strtoll (sign : Bool) (digits : Bytes) : Option Int :=
  let value : Int := Decimal.digitsValue digits
  let value := if sign then -value else value
  if IsInt64 value then some value else none

variable {δ : Type} (D : Doubles δ)

/-- `parser::parse_number` -/
def parseNumber (s : Bytes) : Except Stop (Json δ × Bytes) :=
  match scanNumber s with
  | none => logicError "invalid number"
  | some (sign, text, s) =>
    let body := if sign then text.tail else text
    let digits := body.takeWhile isDigit
    let hasFracOrExp : Bool := digits.length < body.length
    if !hasFracOrExp then
      if digits.length > 19 then logicError "number out of range"
      else
        match strtoll sign digits with
        | none => logicError "number out of range"
        | some value => .ok (.integer value, s)
    else
      let value := D.strtod text
      if !D.isfinite value then logicError "number out of range"
      else .ok (.double value, s)

/-! ## Tokens -/

def isWhiteSpace (c : UInt8) : Bool := c = 0x20 || c = 0x0D || c = 0x0A || c = 0x09

def skipWhiteSpaces (s : Bytes) : Bytes := s.dropWhile isWhiteSpace

def getNextToken (s : Bytes) : Except Stop (UInt8 × Bytes) :=
  match skipWhiteSpaces s with
  | [] => logicError "unexpected end of input"
  | ch :: s => .ok (ch, s)

def parseNull (s : Bytes) : Except Stop (Json δ × Bytes) :=
  if s.take 4 = ascii "null" then .ok (.null, s.drop 4)
  else logicError "parse null error"

def parseBool (s : Bytes) : Except Stop (Json δ × Bytes) :=
  if s.take 4 = ascii "true" then .ok (.bool true, s.drop 4)
  else if s.take 5 = ascii "false" then .ok (.bool false, s.drop 5)
  else logicError "parse bool error"

/-! ## Strings -/

/-- A hexadecimal digit, `16` for another byte. -/
def nibble (d : UInt8) : Nat :=
  if 0x30 ≤ d ∧ d ≤ 0x39 then d.toNat - 0x30
  else if 0x61 ≤ d ∧ d ≤ 0x66 then d.toNat - 0x61 + 10
  else if 0x41 ≤ d ∧ d ≤ 0x46 then d.toNat - 0x41 + 10
  else 16

/-- The loop over four hexadecimal digits. -/
def hexLoop : Bytes → Nat → Except Stop Nat
  | [], value => .ok value
  | d :: ds, value =>
    if nibble d ≥ 16 then logicError "invalid \\u escape"
    else hexLoop ds (value * 16 + nibble d)

/-- Four hexadecimal digits; `ended` is the error for a text that ends before. -/
def hexDigits (ended : String) (s : Bytes) : Except Stop (Nat × Bytes) :=
  if s.length < 4 then logicError ended
  else do
    let value ← hexLoop (s.take 4) 0
    .ok (value, s.drop 4)

/-- The code point of a surrogate pair. -/
def surrogatePair (hi lo : Nat) : Nat := 0x10000 + ((hi - 0xD800) <<< 10) + (lo - 0xDC00)

/-- The second half of a surrogate pair. -/
def lowSurrogate (hi : Nat) (s : Bytes) : Except Stop (Nat × Bytes) :=
  if s.take 2 ≠ ascii "\\u" then logicError "unpaired high surrogate in \\u escape"
  else do
    let (lo, s) ← hexDigits "unexpected end of input in low surrogate" (s.drop 2)
    if lo < 0xDC00 ∨ lo > 0xDFFF then logicError "expected low surrogate after high surrogate"
    else .ok (surrogatePair hi lo, s)

/-- The case `'u'` of an escape: the bytes it stands for and what is behind it. -/
def unicodeEscape (s : Bytes) : Except Stop (Bytes × Bytes) := do
  let (hi, s) ← hexDigits "unexpected end of input in \\u escape" s
  if 0xD800 ≤ hi ∧ hi ≤ 0xDBFF then
    let (cp, s) ← lowSurrogate hi s
    .ok (utf8 cp, s)
  else if 0xDC00 ≤ hi ∧ hi ≤ 0xDFFF then logicError "unpaired low surrogate in \\u escape"
  else .ok (utf8 hi, s)

/-- The byte an escape letter stands for. -/
def escapeByte (esc : UInt8) : Option UInt8 :=
  if esc = 0x22 then some 0x22
  else if esc = 0x5C then some 0x5C
  else if esc = 0x2F then some 0x2F
  else if esc = 0x62 then some 0x08
  else if esc = 0x66 then some 0x0C
  else if esc = 0x6E then some 0x0A
  else if esc = 0x72 then some 0x0D
  else if esc = 0x74 then some 0x09
  else none

/-- An escape sequence, behind its backslash. -/
def escapeSequence : Bytes → Except Stop (Bytes × Bytes)
  | [] => logicError "unexpected end of input in string escape"
  | esc :: s =>
    match escapeByte esc with
    | some b => .ok ([b], s)
    | none =>
      if esc = 0x75 then unicodeEscape s
      else logicError "not support escaped character in string"

/-- The loop of `parse_string`. -/
def stringLoop : Nat → Bytes → Bytes → Except Stop (Bytes × Bytes)
  | 0, _, _ => .error .exhausted
  | _ + 1, _, [] => logicError "unexpected end of input in string"
  | turns + 1, out, ch :: s =>
    if ch = 0x22 then .ok (out, s)
    else if ch ≠ 0x5C then
      if ch < 0x20 then logicError "unescaped control character in string"
      else stringLoop turns (out ++ [ch]) s
    else do
      let (b, s) ← escapeSequence s
      stringLoop turns (out ++ b) s

/-- `parser::parse_string`, behind the opening quotation mark. -/
def parseString (s : Bytes) : Except Stop (Bytes × Bytes) := stringLoop (s.length + 1) [] s

/-! ## Values -/

/-- `K_MAX_DEPTH` -/
def kMaxDepth : Nat := 512

mutual

/-- `parser::parse(depth)` -/
def parseValue : Nat → Nat → Bytes → Except Stop (Json δ × Bytes)
  | 0, _, _ => .error .exhausted
  | turns + 1, depth, s => do
    let (ch, s) ← getNextToken s
    if ch = 0x6E then parseNull (ch :: s)
    else if ch = 0x74 ∨ ch = 0x66 then parseBool (ch :: s)
    else if ch = 0x2D ∨ (0x30 ≤ ch ∧ ch ≤ 0x39) then parseNumber D (ch :: s)
    else if ch = 0x22 then
      let (out, s) ← parseString s
      .ok (.string out, s)
    else if ch = 0x5B then
      if depth + 1 > kMaxDepth then logicError "maximum nesting depth exceeded"
      else
        let (ch, s) ← getNextToken s
        if ch = 0x5D then .ok (.array [], s)
        else arrayLoop turns depth [] (ch :: s)
    else if ch = 0x7B then
      if depth + 1 > kMaxDepth then logicError "maximum nesting depth exceeded"
      else
        let (ch, s) ← getNextToken s
        if ch = 0x7D then .ok (.object [], s)
        else objectLoop turns depth [] ch s
    else logicError "unexpected character in parse json"

/-- The loop over the elements of an array, the position at the first byte of one. -/
def arrayLoop : Nat → Nat → List (Json δ) → Bytes → Except Stop (Json δ × Bytes)
  | 0, _, _, _ => .error .exhausted
  | turns + 1, depth, arr, s => do
    let (value, s) ← parseValue turns (depth + 1) s
    let (ch, s) ← getNextToken s
    if ch = 0x5D then .ok (.array (arr ++ [value]), s)
    else if ch ≠ 0x2C then logicError "expected ',' in array"
    else
      let (ch, s) ← getNextToken s
      arrayLoop turns depth (arr ++ [value]) (ch :: s)

/-- The loop over the members of an object, the first byte of one just read. -/
def objectLoop : Nat → Nat → List (Bytes × Json δ) → UInt8 → Bytes → Except Stop (Json δ × Bytes)
  | 0, _, _, _, _ => .error .exhausted
  | turns + 1, depth, obj, ch, s =>
    if ch ≠ 0x22 then logicError "expected '\"' in object"
    else do
      let (key, s) ← parseString s
      let (ch, s) ← getNextToken s
      if ch ≠ 0x3A then logicError "expected ':' in object"
      else
        let (value, s) ← parseValue turns (depth + 1) s
        let obj := assign key value obj
        let (ch, s) ← getNextToken s
        if ch = 0x7D then .ok (.object obj, s)
        else if ch ≠ 0x2C then logicError "expected ',' in object"
        else
          let (ch, s) ← getNextToken s
          objectLoop turns depth obj ch s

end

/-- `json::parse`, which loads the text and calls `parser::parse`. -/
def parse (text : Bytes) : Except Stop (Json δ) := do
  let (value, s) ← parseValue D (2 * text.length + 1) 0 text
  if skipWhiteSpaces s ≠ [] then logicError "unexpected content after JSON value"
  else .ok value

end Avant.Json
