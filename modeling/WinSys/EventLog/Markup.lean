import WinSys.EventLog.Data

/-!
# The XML of an event

Events as they are rendered: the data items as `EventData` or as `UserData`, after whatever else the
event has, with characters written as they are or as references.

What a name may have in it depends on what is taken for white space: as XML has it (`isXmlSpace`),
or as the C library does, which takes some characters of XML names too.
-/

namespace WinSys.EventLog

open Infra Texts CLibrary

/-! ## characters -/

def isXmlChar (c : Char) : Bool :=
  c.toNat = 0x9 || c.toNat = 0xA || c.toNat = 0xD || (0x20 ≤ c.toNat && c.toNat ≤ 0xD7FF)
    || (0xE000 ≤ c.toNat && c.toNat ≤ 0xFFFD) || 0x10000 ≤ c.toNat

def inRange (c : Char) (range : ℕ × ℕ) : Bool := range.1 ≤ c.toNat && c.toNat ≤ range.2

def nameStartRanges : List (ℕ × ℕ) :=
  [(0x3A, 0x3A), (0x41, 0x5A), (0x5F, 0x5F), (0x61, 0x7A), (0xC0, 0xD6), (0xD8, 0xF6),
    (0xF8, 0x2FF), (0x370, 0x37D), (0x37F, 0x1FFF), (0x200C, 0x200D), (0x2070, 0x218F),
    (0x2C00, 0x2FEF), (0x3001, 0xD7FF), (0xF900, 0xFDCF), (0xFDF0, 0xFFFD), (0x10000, 0xEFFFF)]

def nameRanges : List (ℕ × ℕ) :=
  [(0x2D, 0x2E), (0x30, 0x39), (0xB7, 0xB7), (0x300, 0x36F), (0x203F, 0x2040)]

def isNameStartChar (c : Char) : Bool := nameStartRanges.any (inRange c)

def isNameChar (c : Char) : Bool := isNameStartChar c || nameRanges.any (inRange c)

/-- A character's UTF-16 code units. -/
def utf16 (c : Char) : WString :=
  if c.toNat < 0x10000 then [c.toNat.toUInt16]
  else
    [(0xD800 + (c.toNat - 0x10000) / 0x400).toUInt16,
      (0xDC00 + (c.toNat - 0x10000) % 0x400).toUInt16]

def encode (cs : List Char) : WString := cs.flatMap utf16

/-! ## references -/

def entities : List (WString × Char) :=
  [(wide "amp", '&'), (wide "lt", '<'), (wide "gt", '>'), (wide "quot", '"'),
    (wide "apos", '\'')]

/-- What stands between `&` and `;` for a character. -/
inductive Reference (c : Char) : WString → Prop
  | named {name : WString} : (name, c) ∈ entities → Reference c name
  | decimal {digits : WString} : (∀ d ∈ digits, isDigit asciiDigit 10 d = true) →
      numeral asciiDigit 10 digits = c.toNat → Reference c (numberSign :: digits)
  | hexadecimal {digits : WString} : (∀ d ∈ digits, isDigit asciiDigit 16 d = true) →
      numeral asciiDigit 16 digits = c.toNat → Reference c (numberSign :: 0x78 :: digits)

/-- A character as it is written: as it is, when it need not be escaped, or as a reference. -/
structure Piece (escaped : Char → Bool) where
  char : Char
  text : WString
  legal : isXmlChar char = true
  written : (escaped char = false ∧ text = utf16 char) ∨
    ∃ reference : WString, Reference char reference ∧ reference.length ≤ 9 ∧
      text = ampersand :: (reference ++ [semicolon])

section Written

variable {escaped : Char → Bool}

/-- The text that pieces stand for. -/
def decoded (pieces : List (Piece escaped)) : WString := encode (pieces.map Piece.char)

/-- The text as it is written. -/
def written (pieces : List (Piece escaped)) : WString := pieces.flatMap Piece.text

end Written

def escapedInContent (c : Char) : Bool := c = '&' || c = '<'

/-- The quote around an attribute's value. -/
inductive Quote
  | single
  | double
deriving DecidableEq, Repr

def Quote.char : Quote → Char
  | single => '\''
  | double => '"'

def Quote.unit : Quote → WChar
  | single => apostrophe
  | double => quote

def escapedInAttribute (q : Quote) (c : Char) : Bool :=
  c = '&' || c = '<' || c = '>' || c = q.char

/-! ## tags -/

/-- White space as XML has it. -/
def isXmlSpace (c : WChar) : Bool := c = 0x20 || c = 0x9 || c = 0xA || c = 0xD

variable (space : WChar → Bool)

/-- What a tag can be named. -/
structure Name where
  text : WString
  named : ∀ c ∈ text, endsName space c = false ∧ c ≠ less
  starts : ∀ c ∈ text.head?, c ≠ 0x3F ∧ c ≠ 0x21
  nonempty : text ≠ []

/-- What follows the name in a start tag. -/
structure Rest where
  text : WString
  separated : ∀ c ∈ text.head?, space c = true
  plain : ∀ c ∈ text, c ≠ less ∧ c ≠ greater
  notSlash : text.getLast? ≠ some slash

/-- Text with no tag in it. -/
abbrev Gap := { text : WString // less ∉ text }

/-- A name of XML without white space. -/
structure XmlName where
  first : Char
  rest : List Char
  starts : isNameStartChar first = true
  continues : ∀ c ∈ rest, isNameChar c = true
  unspaced : ∀ c ∈ encode (first :: rest), space c = false

def XmlName.text {space : WChar → Bool} (n : XmlName space) : WString := encode (n.first :: n.rest)

def openTag (name rest : WString) : WString := less :: (name ++ rest ++ [greater])

def emptyTag (name rest : WString) : WString := less :: (name ++ rest ++ [slash, greater])

/-- An element: without content as `<name/>`. -/
def elementText (name rest : WString) : Option WString → WString
  | none => emptyTag name rest
  | some content => openTag name rest ++ (content ++ closeTag name)

/-- The name of a tag, when this follows `<`. -/
def tagName (text : WString) : WString := text.takeWhile fun c => !endsName space c

/-- Text whose tags end in it, with no element of a name. -/
def NoElement (name text : WString) : Prop :=
  ∀ pre post, text = pre ++ less :: post → greater ∈ post ∧ tagName space post ≠ name

/-- Text whose tags end in it, with no element of some names. -/
abbrev Markup (names : List WString) :=
  { text : WString // ∀ name ∈ names, NoElement space name text }

/-! ## items -/

abbrev Content := Option (List (Piece escapedInContent))

def Content.text (content : Content) : Option WString := content.map written

def Content.value (content : Content) : WString := (content.map decoded).getD []

/-- `<Data>`, with the name in an attribute. -/
structure DataItem where
  gap : Gap
  name : Option (Σ q : Quote, List (Piece (escapedInAttribute q)))
  /-- The space at the end of the tag. -/
  trail : { text : WString // ∀ c ∈ text, isXmlSpace c = true }
  content : Content

namespace DataItem

variable (d : DataItem)

/-- ` Name=q..q`, if there is a name. -/
def nameAttribute : WString :=
  match d.name with
  | none => []
  | some ⟨q, pieces⟩ => wide " Name=" ++ q.unit :: (written pieces ++ [q.unit])

def text : WString :=
  d.gap.val ++ elementText (wide "Data") (d.nameAttribute ++ d.trail.val) d.content.text

def item : EventDataItem :=
  ⟨match d.name with
    | none => []
    | some ⟨_, pieces⟩ => decoded pieces, d.content.value⟩

end DataItem

/-- A child of the element in `<UserData>`. -/
structure Field where
  gap : Gap
  name : XmlName space
  name_ne : name.text ≠ wide "EventData"
  rest : Rest space
  content : Content

namespace Field

variable {space : WChar → Bool} (f : Field space)

def text : WString := f.gap.val ++ elementText f.name.text f.rest.text f.content.text

def item : EventDataItem := ⟨f.name.text, f.content.value⟩

end Field

/-! ## events -/

/-- `<EventData>` in an event. -/
structure EventDataXml where
  before : Markup space [wide "EventData", wide "UserData"]
  rest : Rest space
  /-- The items, and the text after them; none for `<EventData/>`. -/
  content : Option (List DataItem × Gap)
  after : WString

/-- `<UserData>` in an event. -/
structure UserDataXml where
  before : Markup space [wide "EventData", wide "UserData"]
  rest : Rest space
  /-- The text before the element. -/
  lead : Gap
  root : XmlName space
  root_ne : root.text ≠ wide "EventData"
  rootRest : Rest space
  /-- The fields, and the text after them; none for an element without content. -/
  content : Option (List (Field space) × Gap)
  /-- The text after the element. -/
  last : Gap
  after : Markup space [wide "EventData"]

inductive EventXml
  | eventData (xml : EventDataXml space)
  | userData (xml : UserDataXml space)

variable {space : WChar → Bool}

def EventDataXml.items (x : EventDataXml space) : List EventDataItem :=
  (x.content.map fun c => c.1.map DataItem.item).getD []

def EventDataXml.text (x : EventDataXml space) : WString :=
  x.before.val
    ++ (elementText (wide "EventData") x.rest.text
        (x.content.map fun c => c.1.flatMap DataItem.text ++ c.2.val)
      ++ x.after)

def UserDataXml.items (x : UserDataXml space) : List EventDataItem :=
  (x.content.map fun c => c.1.map Field.item).getD []

/-- The element in `<UserData>`. -/
def UserDataXml.rootText (x : UserDataXml space) : WString :=
  elementText x.root.text x.rootRest.text
    (x.content.map fun c => c.1.flatMap Field.text ++ c.2.val)

def UserDataXml.text (x : UserDataXml space) : WString :=
  x.before.val
    ++ (elementText (wide "UserData") x.rest.text (some (x.lead.val ++ (x.rootText ++ x.last.val)))
      ++ x.after.val)

def EventXml.items : EventXml space → List EventDataItem
  | eventData xml => xml.items
  | userData xml => xml.items

def EventXml.text : EventXml space → WString
  | eventData xml => xml.text
  | userData xml => xml.text

end WinSys.EventLog
