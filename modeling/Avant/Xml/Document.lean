import Avant.Lib.Cursor
import Avant.Lib.Decimal
import Avant.Xml.Element

/-!
# The XML parser

Model of `external/avant-xml/document.cpp`: the decoding of references and the parser, a cursor
over the document (`Lib/Cursor.lean`). `parse` starts with the cursor at the start of the document.

Loops over the text have one turn more than the text has bytes and stop as `exhausted` if this does
not suffice. `parse_element` is called with the number of levels that are left,
`K_MAX_DEPTH - depth`. `decode_entities` goes through its string byte by byte, over those of a
reference without adding them.

Left out: `load_file`, and the state of `m_str` between two calls of `parse`.
-/

namespace Avant.Xml

open Avant.Lib

/-! ## References -/

/-- `append_utf8`: a code point in UTF-8 -/
def appendUtf8 (cp : Nat) : Bytes := utf8 cp

/-- A digit of a numeric reference to the base `10` or `16`. -/
def digitOf (base : Nat) (c : UInt8) : Option Nat :=
  if 0x30 ≤ c ∧ c ≤ 0x39 then some (c.toNat - 0x30)
  else if base = 16 ∧ 0x61 ≤ c ∧ c ≤ 0x66 then some (c.toNat - 0x61 + 10)
  else if base = 16 ∧ 0x41 ≤ c ∧ c ≤ 0x46 then some (c.toNat - 0x41 + 10)
  else none

/-- The loop of `decode_numeric_ref`: the code point, which does not grow above the range by more
than one digit, the number of digits, and what is behind them. -/
def refDigits (base : Nat) : Nat → Bytes → Nat × Nat × Bytes
  | cp, [] => (cp, 0, [])
  | cp, c :: s =>
    match digitOf base c with
    | none => (cp, 0, c :: s)
    | some digit =>
      let (cp, n, rest) := refDigits base (if cp ≤ 0x10FFFF then cp * base + digit else cp) s
      (cp, n + 1, rest)

/-- `decode_numeric_ref`, of a text that starts with `&`: what the reference stands for, and the
number of bytes that it takes. -/
def decodeNumericRef (s : Bytes) : Option (Bytes × Nat) :=
  if s[1]? = some 0x23 then
    let isHex : Bool := s[2]? = some 0x78 ∨ s[2]? = some 0x58
    let start := if isHex then 3 else 2
    let (cp, n, rest) := refDigits (if isHex then 16 else 10) 0 (s.drop start)
    if n = 0 then none
    else if rest.head? ≠ some 0x3B then none
    else if cp = 0 ∨ 0x10FFFF < cp ∨ (0xD800 ≤ cp ∧ cp ≤ 0xDFFF) then none
    else some (appendUtf8 cp, start + n + 1)
  else none

/-- `k_entities` -/
def entities : List (Bytes × Bytes) :=
  [(ascii "&amp;", ascii "&"), (ascii "&lt;", ascii "<"), (ascii "&gt;", ascii ">"),
    (ascii "&quot;", ascii "\""), (ascii "&apos;", ascii "'")]

/-- What a text stands for that starts with `&`, and the number of bytes that are used: an entity,
a numeric reference, or the `&` itself. -/
def reference (s : Bytes) : Bytes × Nat :=
  match entities.find? fun e => e.1.isPrefixOf s with
  | some e => (e.2, e.1.length)
  | none => (decodeNumericRef s).getD (s.take 1, 1)

/-- The loop of `decode_entities`; the next `used` bytes belong to the last reference. -/
def decodeLoop : Nat → Bytes → Bytes
  | _, [] => []
  | used + 1, _ :: s => decodeLoop used s
  | 0, c :: s =>
    if c = 0x26 then (reference (c :: s)).1 ++ decodeLoop ((reference (c :: s)).2 - 1) s
    else c :: decodeLoop 0 s

/-- `decode_entities` -/
def decodeEntities (s : Bytes) : Bytes := decodeLoop 0 s

/-! ## The parser -/

open Cursor

/-- A name or key in the text of an exception. -/
def shown (s : Bytes) : String := String.ofList (s.map fun c => Char.ofNat c.toNat)

/-- An exception about the element `name`. -/
def about (name : Bytes) (what : String) : String := "xml element <" ++ shown name ++ "> " ++ what

/-- The loop of `skip_white_spaces`. -/
def skipLoop : Nat → Cursor Unit
  | 0 => exhausted
  | turns + 1 => do
    let white ← nextIs 0 isWhite
    if white then do
      let i ← idx
      moveTo (i + 1)
      skipLoop turns
    else pure ()

/-- `skip_white_spaces` -/
def skipWhiteSpaces : Cursor Unit := do
  let n ← size
  skipLoop (n + 1)

/-- `parse_declaration` -/
def parseDeclaration : Cursor Bool := do
  let i ← idx
  let pos ← findFrom (ascii "?>") i
  match pos with
  | none => pure false
  | some pos => do
    moveTo (pos + 2)
    pure true

/-- `parse_comment` -/
def parseComment : Cursor Bool := do
  let i ← idx
  let pos ← findFrom (ascii "-->") (i + 4)
  match pos with
  | none => pure false
  | some pos => do
    moveTo (pos + 3)
    pure true

/-- `m_idx + 1 < m_str.size() && m_str[m_idx] == '<' && p(m_str[m_idx + 1])` -/
def opens (p : UInt8 → Bool) : Cursor Bool := do
  let i ← idx
  let n ← size
  if i + 1 < n then do
    let c ← byteAt i
    if c = 0x3C then do
      let d ← byteAt (i + 1)
      pure (p d)
    else pure false
  else pure false

/-- `is_element_start` -/
def isElementStart : Cursor Bool := opens isNameStart

/-- The loop of `parse_element_name` and of `parse_element_attr_key`. -/
def nameLoop : Nat → Bytes → Cursor Bytes
  | 0, _ => exhausted
  | turns + 1, res => do
    let more ← nextIs 0 isNameChar
    if more then do
      let i ← idx
      let c ← byteAt i
      moveTo (i + 1)
      nameLoop turns (res ++ [c])
    else pure res

/-- `parse_element_name` -/
def parseElementName : Cursor Bytes := do
  let i ← idx
  let c ← byteAt i
  moveTo (i + 1)
  let n ← size
  nameLoop (n + 1) [c]

/-- `parse_element_text` -/
def parseElementText (owner : Bytes) : Cursor Bytes := do
  skipWhiteSpaces
  let i ← idx
  let pos ← findFrom (ascii "<") i
  match pos with
  | none => Cursor.throw (about owner "is not closed")
  | some pos => do
    let res ← substr i (pos - i)
    moveTo pos
    pure res

/-- `parse_element_attr_key`, empty where no key starts -/
def parseElementAttrKey : Cursor Bytes := do
  skipWhiteSpaces
  let start ← nextIs 0 isNameStart
  if start then parseElementName else pure []

/-- `parse_element_attr_val` -/
def parseElementAttrVal : Cursor Bytes := do
  skipWhiteSpaces
  let quoted ← nextIs 0 fun c => c = 0x22 || c = 0x27
  throwIf (!quoted) "xml element attribute value should be in quotes"
  let i ← idx
  let quote ← byteAt i
  let pos ← findFrom [quote] (i + 1)
  match pos with
  | none => Cursor.throw "xml element attribute value is not terminated"
  | some pos => do
    let res ← substr (i + 1) (pos - i - 1)
    moveTo (pos + 1)
    pure res

/-- One attribute: its key and its value. -/
def parseAttr (name : Bytes) (seen : List Bytes) : Cursor (Bytes × Bytes) := do
  let key ← parseElementAttrKey
  throwIf key.isEmpty (about name "start tag is malformed")
  skipWhiteSpaces
  let equals ← nextIs 0 (· = 0x3D)
  throwIf (!equals) (about name ("attribute '" ++ shown key ++ "' has no value"))
  let i ← idx
  moveTo (i + 1)
  throwIf (seen.contains key) (about name ("has duplicate attribute '" ++ shown key ++ "'"))
  let val ← parseElementAttrVal
  pure (key, decodeEntities val)

/-- The loop over the attributes, with the keys seen so far: the attributes, and whether the tag
closes itself. -/
def attrLoop (name : Bytes) : Nat → List Bytes → Attrs → Cursor (Attrs × Bool)
  | 0, _, _ => exhausted
  | turns + 1, seen, attrs => do
    skipWhiteSpaces
    let ended ← atEnd
    throwIf ended (about name "start tag is not terminated")
    let i ← idx
    let c ← byteAt i
    if c = 0x3E then do
      moveTo (i + 1)
      pure (attrs, false)
    else if c = 0x2F then do
      let closes ← nextIs 1 (· = 0x3E)
      throwIf (!closes) (about name "has a stray '/' in its start tag")
      moveTo (i + 2)
      pure (attrs, true)
    else do
      let (key, val) ← parseAttr name seen
      attrLoop name turns (key :: seen) (attrs.attrStore key val)

/-- The end tag of `elem`. -/
def parseEndTag (elem : Element) : Cursor Element := do
  let endTag := ascii "</" ++ elem.name ++ ascii ">"
  let i ← idx
  let n ← size
  throwIf (n - i < endTag.length) (about elem.name "is not closed")
  let same ← compareAt i endTag.length endTag
  throwIf (!same) ("xml end tag does not match <" ++ shown elem.name ++ ">")
  moveTo (i + endTag.length)
  pure elem

/-- A comment, which the caller has seen the start of. -/
def skipComment : Cursor Unit := do
  let ok ← parseComment
  throwIf (!ok) "xml comment is not terminated with -->"

/-- A child, which the caller has seen the start of, and that no text is behind it. -/
def parseChild (child : Cursor Element) (elem : Element) : Cursor Element := do
  let e ← child
  let tail ← parseElementText elem.name
  throwIf (!tail.isEmpty) (about elem.name "has text after child elements")
  pure (elem.append e)

/-- The loop over the children and comments, up to the end tag. -/
def childLoop (child : Cursor Element) : Nat → Element → Cursor Element
  | 0, _ => exhausted
  | turns + 1, elem => do
    skipWhiteSpaces
    let ended ← atEnd
    throwIf ended (about elem.name "is not closed")
    let i ← idx
    let c ← byteAt i
    throwIf (c ≠ 0x3C) (about elem.name "has text after child elements")
    let ends ← nextIs 1 (· = 0x2F)
    if ends then parseEndTag elem
    else do
      let comment ← compareAt i 4 (ascii "<!--")
      if comment then do
        skipComment
        childLoop child turns elem
      else do
        let cdata ← compareAt i 9 (ascii "<![CDATA[")
        throwIf cdata ("xml CDATA sections are not supported (inside element <" ++
          shown elem.name ++ ">)")
        let start ← isElementStart
        throwIf (!start) (about elem.name "is malformed: expected an element or end tag")
        let elem ← parseChild child elem
        childLoop child turns elem

/-- `K_MAX_DEPTH` -/
def maxDepth : Nat := 128

/-- `parse_element`, with the number of levels that are left -/
def parseElement : Nat → Cursor Element
  | 0 => Cursor.throw "xml nesting is too deep (limit 128)"
  | left + 1 => do
    let i ← idx
    moveTo (i + 1)
    let name ← parseElementName
    let n ← size
    let (attrs, closed) ← attrLoop name (n + 1) [] .empty
    if closed then pure (.mk name [] attrs [])
    else do
      let text ← parseElementText name
      childLoop (parseElement left) (n + 1) (.mk name (decodeEntities text) attrs [])

/-- The byte order mark. -/
def skipBom : Cursor Unit := do
  let n ← size
  if 3 ≤ n then do
    let b0 ← byteAt 0
    let b1 ← byteAt 1
    let b2 ← byteAt 2
    if b0 = 0xEF ∧ b1 = 0xBB ∧ b2 = 0xBF then moveTo 3 else pure ()
  else pure ()

/-- The XML declaration, if the document starts with one. -/
def skipDeclaration : Cursor Unit := do
  let i ← idx
  let target ← compareAt i 5 (ascii "<?xml")
  if target then do
    let more ← nextIs 5 fun c => !(c = 0x3F || isWhite c)
    if more then pure ()
    else do
      let ok ← parseDeclaration
      throwIf (!ok) "xml declaration is not terminated with ?>"
      skipWhiteSpaces
  else pure ()

/-- A processing instruction, which the caller has seen the start of. -/
def skipInstruction : Cursor Unit := do
  let ok ← parseDeclaration
  throwIf (!ok) "xml processing instruction is not terminated with ?>"

/-- The loop over comments and processing instructions in front of the root. -/
def prologLoop : Nat → Cursor Unit
  | 0 => exhausted
  | turns + 1 => do
    let i ← idx
    let comment ← compareAt i 4 (ascii "<!--")
    if comment then do
      skipComment
      skipWhiteSpaces
      let ended ← atEnd
      throwIf ended "xml document has no root element"
      prologLoop turns
    else do
      let instruction ← opens (· = 0x3F)
      if instruction then do
        skipInstruction
        skipWhiteSpaces
        let ended ← atEnd
        throwIf ended "xml document has no root element"
        prologLoop turns
      else pure ()

/-- The loop over comments and processing instructions behind the root. -/
def epilogLoop : Nat → Cursor Unit
  | 0 => exhausted
  | turns + 1 => do
    skipWhiteSpaces
    let ended ← atEnd
    if ended then pure ()
    else do
      let i ← idx
      let comment ← compareAt i 4 (ascii "<!--")
      if comment then do
        skipComment
        epilogLoop turns
      else do
        let instruction ← opens (· = 0x3F)
        throwIf (!instruction) "xml has trailing content after root element"
        skipInstruction
        epilogLoop turns

/-- `document::parse`, behind `m_idx = 0` -/
def parseDocument : Cursor Element := do
  skipBom
  skipWhiteSpaces
  let ended ← atEnd
  throwIf ended "xml document is empty"
  skipDeclaration
  let n ← size
  prologLoop (n + 1)
  let ended ← atEnd
  throwIf ended "xml document has no root element"
  let start ← isElementStart
  throwIf (!start) "xml document root must be an element"
  let root ← parseElement maxDepth
  epilogLoop (n + 1)
  pure root

/-- `document::load_string` and `document::parse` -/
def parse (str : Bytes) : Except Stop Element := (parseDocument str 0).result.map Prod.fst

end Avant.Xml
