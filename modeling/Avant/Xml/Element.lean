import Avant.Lib.CString
import Avant.Lib.SortedMap

/-!
# XML elements

Model of `external/avant-xml/element.{h,cpp}`: an element with its attributes, its text and its
children, `escape` and `to_string`. The attributes are a `std::map`, kept as its entries in the
order of the keys (`Attrs`).

`Named` are the elements whose names and keys the parser reads as names; `stripped` is such an
element without the white space in front of its texts, and `Accepted` are those that have none.

Left out: the accessors, `attr`, `clear` and the iterators, which neither the parser nor
`to_string` calls.
-/

namespace Avant.Xml

open Avant.Lib

/-- `m_attrs` -/
structure Attrs where
  entries : List (Bytes × Bytes)
  sorted : Sorted entries

/-- An element without attributes. -/
def Attrs.empty : Attrs := ⟨[], .nil⟩

/-- `element::attr_store` -/
def Attrs.attrStore (attrs : Attrs) (key value : Bytes) : Attrs :=
  ⟨assign key value attrs.entries, attrs.sorted.assign key value⟩

/-- `element` -/
inductive Element
  | mk (name text : Bytes) (attrs : Attrs) (children : List Element)

namespace Element

def name : Element → Bytes
  | .mk name _ _ _ => name

/-- `element::append` -/
def append : Element → Element → Element
  | .mk name text attrs children, child => .mk name text attrs (children ++ [child])

/-! ## Writing -/

/-- One turn of `escape`. -/
def escapeChar (quote : Bool) (c : UInt8) : Bytes :=
  if c = 0x26 then ascii "&amp;"
  else if c = 0x3C then ascii "&lt;"
  else if c = 0x3E then ascii "&gt;"
  else if quote ∧ c = 0x22 then ascii "&quot;"
  else [c]

/-- `escape`; `quote` says that `extra_quote` is the quotation mark. -/
def escape (quote : Bool) (s : Bytes) : Bytes := s.flatMap (escapeChar quote)

/-- An attribute in a start tag. -/
def attrText (e : Bytes × Bytes) : Bytes :=
  ascii " " ++ escape true e.1 ++ ascii "=\"" ++ escape true e.2 ++ ascii "\""

mutual

/-- `to_string` -/
def toString : Element → Bytes
  | .mk name text attrs children =>
    if name = [] then []
    else
      let start := ascii "<" ++ escape true name ++ attrs.entries.flatMap attrText
      if children = [] ∧ text = [] then start ++ ascii " />"
      else
        start ++ ascii ">" ++ escape false text ++ childrenText children ++ ascii "</" ++
          escape true name ++ ascii ">"

/-- The loop over the children. -/
def childrenText : List Element → Bytes
  | [] => []
  | e :: es => toString e ++ childrenText es

end

/-! ## Trees -/

mutual

/-- The number of elements inside one another. -/
def levels : Element → Nat
  | .mk _ _ _ children => levelsBelow children + 1

def levelsBelow : List Element → Nat
  | [] => 0
  | e :: es => max (levels e) (levelsBelow es)

end

end Element

/-! ## Names -/

/-- `std::isalnum`, in the locale `C` -/
def isAlnum (c : UInt8) : Bool := isAlpha c || (0x30 ≤ c && c ≤ 0x39)

/-- The first character of a name. -/
def isNameStart (c : UInt8) : Bool := isAlpha c || c = 0x5F

/-- A further character of a name. -/
def isNameChar (c : UInt8) : Bool := isAlnum c || c = 0x5F || c = 0x2D || c = 0x3A

/-- The white space that the parser skips. -/
def isWhite (c : UInt8) : Bool := c = 0x20 || c = 0x09 || c = 0x0D || c = 0x0A

/-- A name that the parser accepts. -/
def IsName (name : Bytes) : Prop :=
  ∃ c cs, name = c :: cs ∧ isNameStart c = true ∧ ∀ d ∈ cs, isNameChar d = true

/-- The keys of an element are names. -/
def KeysNamed (attrs : Attrs) : Prop := ∀ e ∈ attrs.entries, IsName e.1

/-- Names and keys are names, whatever the texts are. -/
inductive Named : Element → Prop
  | mk {name text : Bytes} {attrs : Attrs} {children : List Element} (hname : IsName name)
      (hkeys : KeysNamed attrs) (hchildren : ∀ e ∈ children, Named e) :
      Named (.mk name text attrs children)

/-- No text starts with white space. -/
inductive Trimmed : Element → Prop
  | mk {name text : Bytes} {attrs : Attrs} {children : List Element}
      (htext : ∀ c, text.head? = some c → isWhite c = false)
      (hchildren : ∀ e ∈ children, Trimmed e) : Trimmed (.mk name text attrs children)

namespace Element

mutual

/-- The element without the white space in front of its texts. -/
def stripped : Element → Element
  | .mk name text attrs children =>
    .mk name (text.dropWhile isWhite) attrs (strippedAll children)

def strippedAll : List Element → List Element
  | [] => []
  | e :: es => stripped e :: strippedAll es

end

end Element

/-- Names and keys that the parser accepts, and texts that it does not skip a part of. -/
inductive Accepted : Element → Prop
  | mk {name text : Bytes} {attrs : Attrs} {children : List Element} (hname : IsName name)
      (hkeys : ∀ e ∈ attrs.entries, IsName e.1)
      (htext : ∀ c, text.head? = some c → isWhite c = false)
      (hchildren : ∀ e ∈ children, Accepted e) : Accepted (.mk name text attrs children)

end Avant.Xml
