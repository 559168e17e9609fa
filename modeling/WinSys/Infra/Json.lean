import Mathlib.Data.Nat.Digits.Defs
import Mathlib.Data.Rat.Defs
import Mathlib.Data.UInt
import Mathlib.Tactic.NormNum
import WinSys.Infra.Text

/-!
# JSON texts

A JSON text is the tokens of a value with white space before each of them and at the end. Strings
and numbers are kept as they are spelled; what they stand for is a function of that.

* `Value`, `Value.tokens`, `Value.names`
* `Nested`: tokens whose braces match
* `TextOf`: the texts of a value
* `marks`: bytes that are in no number, word or white space
-/

namespace Infra.Json

def quote : UInt8 := 0x22

def escapeByte : UInt8 := 0x5C

/-! ## strings -/

/-- A byte that stands for itself. -/
abbrev PlainByte := { b : UInt8 // 0x20 ≤ b ∧ b ≠ quote ∧ b ≠ escapeByte }

inductive Escape where
  | quote
  | backslash
  | slash
  | b
  | f
  | n
  | r
  | t
deriving DecidableEq, Repr

def Escape.byte : Escape → UInt8
  | .quote => 0x22
  | .backslash => 0x5C
  | .slash => 0x2F
  | .b => 0x62
  | .f => 0x66
  | .n => 0x6E
  | .r => 0x72
  | .t => 0x74

def Escape.unit : Escape → UInt16
  | .quote => 0x22
  | .backslash => 0x5C
  | .slash => 0x2F
  | .b => 0x08
  | .f => 0x0C
  | .n => 0x0A
  | .r => 0x0D
  | .t => 0x09

structure HexDigit where
  value : Fin 16
  upper : Bool := false
deriving DecidableEq, Repr

def HexDigit.byte (d : HexDigit) : UInt8 :=
  let v := d.value.val.toUInt8
  if v < 10 then 0x30 + v else if d.upper then 0x41 + v - 10 else 0x61 + v - 10

theorem HexDigit.byte_ne (d : HexDigit) : d.byte ≠ quote ∧ d.byte ≠ escapeByte := by
  have hall : ∀ (v : Fin 16) (u : Bool), (HexDigit.mk v u).byte ≠ quote ∧
      (HexDigit.mk v u).byte ≠ escapeByte := by decide
  exact hall d.value d.upper

/-- A byte, an escape sequence or the hexadecimal digits of a code unit. -/
inductive Item where
  | plain (b : PlainByte)
  | escape (e : Escape)
  | unicode (a b c d : HexDigit)
deriving DecidableEq

abbrev Str := List Item

def Item.text : Item → List UInt8
  | .plain b => [b.1]
  | .escape e => [escapeByte, e.byte]
  | .unicode a b c d => [escapeByte, 0x75, a.byte, b.byte, c.byte, d.byte]

def Str.text (s : Str) : List UInt8 := s.flatMap Item.text

/-- A code unit, or a byte of a longer sequence of UTF-8. -/
def Item.value : Item → UInt16 ⊕ UInt8
  | .plain b => if b.1 < 0x80 then .inl b.1.toUInt16 else .inr b.1
  | .escape e => .inl e.unit
  | .unicode a b c d =>
    .inl (0x1000 * a.value + 0x100 * b.value + 0x10 * c.value + d.value : ℕ).toUInt16

/-- What a string stands for. -/
def Str.value (s : Str) : List (UInt16 ⊕ UInt8) := s.map Item.value

/-- A text with no escapes in it. -/
abbrev Name := List PlainByte

/-- A constant of printable characters other than quotation marks and backslashes. -/
def Name.of (s : String) : Name :=
  s.toList.filterMap fun c =>
    let b := c.toNat.toUInt8
    if h : 0x20 ≤ b ∧ b ≠ quote ∧ b ≠ escapeByte then some ⟨b, h⟩ else none

def Name.bytes (name : Name) : List UInt8 := name.map Subtype.val

/-- A name written with no escapes. -/
def Name.spelled (name : Name) : Str := name.map .plain

/-- A string that stands for a name, however it is spelled. -/
def Name.Names (name : Name) (s : Str) : Prop := s.value = name.spelled.value

instance (name : Name) : DecidablePred name.Names := fun _ => inferInstanceAs (Decidable (_ = _))

theorem Str.text_cons (i : Item) (s : Str) : Str.text (i :: s) = i.text ++ Str.text s := rfl

theorem Name.text_spelled (name : Name) : Str.text name.spelled = name.bytes := by
  induction name with
  | nil => rfl
  | cons b name ih =>
    change Str.text (.plain b :: Name.spelled name) = b.1 :: Name.bytes name
    rw [Str.text_cons, ih]
    rfl

/-! ## numbers and words -/

def digitByte (d : Fin 10) : UInt8 := 0x30 + d.val.toUInt8

def natural (ds : List (Fin 10)) : ℕ := ds.foldl (fun n (d : Fin 10) => 10 * n + d.val) 0

structure Exponent where
  upper : Bool := false
  /-- none: no sign; true: a minus -/
  sign : Option Bool := none
  digits : List (Fin 10)
  digits_ne : digits ≠ []
deriving DecidableEq

def Exponent.text (e : Exponent) : List UInt8 :=
  (if e.upper then 0x45 else 0x65)
    :: (e.sign.elim [] fun minus => [if minus then 0x2D else 0x2B]) ++ e.digits.map digitByte

def Exponent.value (e : Exponent) : ℤ :=
  if e.sign = some true then -(natural e.digits) else natural e.digits

structure Number where
  negative : Bool := false
  whole : List (Fin 10)
  /-- none: no fraction -/
  fraction : List (Fin 10) := []
  exponent : Option Exponent := none
  whole_ne : whole ≠ []
  leading_zero : whole.head? = some 0 → whole = [0]
deriving DecidableEq

namespace Number

variable (n : Number)

def text : List UInt8 :=
  (if n.negative then [0x2D] else []) ++ n.whole.map digitByte ++
    (if n.fraction = [] then [] else 0x2E :: n.fraction.map digitByte) ++
    n.exponent.elim [] Exponent.text

def value : ℚ :=
  (if n.negative then -1 else 1) * natural (n.whole ++ n.fraction)
    * 10 ^ (n.exponent.elim 0 Exponent.value - n.fraction.length)

/-- The integer before the fraction and the exponent. -/
def integer : ℤ := if n.negative then -(natural n.whole) else natural n.whole

/-- A number of one digit. -/
def ofDigit (d : ℕ) : Number where
  whole := [Fin.ofNat 10 d]
  whole_ne := List.cons_ne_nil _ _
  leading_zero h := congrArg (· :: []) (Option.some.inj h)

/-- A number with nothing behind its integer is it. -/
theorem value_of_whole {n : Number} (hfraction : n.fraction = []) (hexponent : n.exponent = none) :
    n.value = n.integer := by
  rw [value, integer, hfraction, hexponent]
  cases n.negative <;> simp

end Number

inductive Word where
  | false
  | null
  | true
deriving DecidableEq, Repr

def Word.text : Word → List UInt8
  | .false => [0x66, 0x61, 0x6C, 0x73, 0x65]
  | .null => [0x6E, 0x75, 0x6C, 0x6C]
  | .true => [0x74, 0x72, 0x75, 0x65]

/-! ## values -/

inductive Value where
  | word (w : Word)
  | number (n : Number)
  | string (s : Str)
  | array (elements : List Value)
  | object (members : List (Str × Value))

/-- The names of members are apart from other strings. -/
inductive Token where
  | openObject
  | closeObject
  | openArray
  | closeArray
  | comma
  | colon
  | name (s : Str)
  | string (s : Str)
  | number (n : Number)
  | word (w : Word)
deriving DecidableEq

mutual

def Value.tokens : Value → List Token
  | .word w => [.word w]
  | .number n => [.number n]
  | .string s => [.string s]
  | .array vs => .openArray :: ([.comma].intercalate (elementTokens vs) ++ [.closeArray])
  | .object ms => .openObject :: ([.comma].intercalate (memberTokens ms) ++ [.closeObject])

def elementTokens : List Value → List (List Token)
  | [] => []
  | v :: vs => v.tokens :: elementTokens vs

def memberTokens : List (Str × Value) → List (List Token)
  | [] => []
  | (s, v) :: ms => (.name s :: .colon :: v.tokens) :: memberTokens ms

end

mutual

/-- The names of all members, at any depth. -/
def Value.names : Value → List Str
  | .word _ => []
  | .number _ => []
  | .string _ => []
  | .array vs => elementNames vs
  | .object ms => memberNames ms

def elementNames : List Value → List Str
  | [] => []
  | v :: vs => v.names ++ elementNames vs

def memberNames : List (Str × Value) → List Str
  | [] => []
  | (s, v) :: ms => s :: (v.names ++ memberNames ms)

end

def Token.name? : Token → Option Str
  | .name s => some s
  | _ => none

example : Value.tokens (.object [([], .array [.word .null, .string []]), ([], .object [])]) =
    [.openObject, .name [], .colon, .openArray, .word .null, .comma, .string [], .closeArray,
      .comma, .name [], .colon, .openObject, .closeObject, .closeObject] := by decide

/-! ### members -/

theorem memberTokens_eq (ms : List (Str × Value)) :
    memberTokens ms = ms.map fun m => .name m.1 :: .colon :: m.2.tokens := by
  induction ms with
  | nil => rfl
  | cons m ms ih => rw [memberTokens, ih, List.map_cons]

/-- The tokens of an object around one of its members. -/
theorem tokens_object_append_cons (l : List (Str × Value)) (s : Str) (v : Value)
    (r : List (Str × Value)) :
    Value.tokens (.object (l ++ (s, v) :: r))
      = .openObject :: ((memberTokens l).flatMap (· ++ [.comma])) ++
        (.name s :: .colon :: v.tokens) ++
        ((memberTokens r).flatMap ([.comma] ++ ·) ++ [.closeObject]) := by
  rw [Value.tokens, memberTokens_eq, List.map_append, List.map_cons, intercalate_append_cons,
    memberTokens_eq, memberTokens_eq]
  simp

/-- Where a member's tokens are; a comma or a closing brace comes after them. -/
theorem tokens_object_of_mem {ms : List (Str × Value)} {s : Str} {v : Value} (h : (s, v) ∈ ms) :
    ∃ before after t, Value.tokens (.object ms)
        = before ++ (.name s :: .colon :: v.tokens) ++ t :: after ∧
      (t = .comma ∨ t = .closeObject) := by
  obtain ⟨l, r, rfl⟩ := List.append_of_mem h
  rw [tokens_object_append_cons]
  cases r with
  | nil => exact ⟨_, _, .closeObject, rfl, .inr rfl⟩
  | cons m r =>
    rw [memberTokens_eq (m :: r)]
    exact ⟨_, _, .comma, rfl, .inl rfl⟩

/-- The names among the tokens are the names of the members. -/
theorem filterMap_name?_intercalate (ts : List (List Token)) :
    ([Token.comma].intercalate ts).filterMap Token.name?
      = ts.flatMap fun t => t.filterMap Token.name? := by
  induction ts with
  | nil => rfl
  | cons t ts ih =>
    cases ts with
    | nil => simp
    | cons u ts =>
      rw [List.intercalate_cons_cons, List.filterMap_append, List.filterMap_append, ih,
        List.filterMap_cons_none rfl, List.filterMap_nil, List.append_nil,
        List.flatMap_cons (x := t)]

mutual

theorem Value.filterMap_name?_tokens : ∀ v : Value, v.tokens.filterMap Token.name? = v.names
  | .word _ => rfl
  | .number _ => rfl
  | .string _ => rfl
  | .array vs => by
    rw [Value.tokens, Value.names, ← elementNames_eq vs, ← filterMap_name?_intercalate,
      List.filterMap_cons_none rfl, List.filterMap_append, List.filterMap_cons_none rfl,
      List.filterMap_nil, List.append_nil]
  | .object ms => by
    rw [Value.tokens, Value.names, ← memberNames_eq ms, ← filterMap_name?_intercalate,
      List.filterMap_cons_none rfl, List.filterMap_append, List.filterMap_cons_none rfl,
      List.filterMap_nil, List.append_nil]

theorem elementNames_eq :
    ∀ vs : List Value,
      ((elementTokens vs).flatMap fun t => t.filterMap Token.name?) = elementNames vs
  | [] => rfl
  | v :: vs => by
    rw [elementTokens, elementNames, List.flatMap_cons, v.filterMap_name?_tokens,
      elementNames_eq vs]

theorem memberNames_eq :
    ∀ ms : List (Str × Value),
      ((memberTokens ms).flatMap fun t => t.filterMap Token.name?) = memberNames ms
  | [] => rfl
  | (s, v) :: ms => by
    rw [memberTokens, memberNames, List.flatMap_cons, memberNames_eq ms,
      List.filterMap_cons_some (f := Token.name?) (b := s) rfl, List.filterMap_cons_none rfl,
      v.filterMap_name?_tokens, List.cons_append]

end

/-! ### braces -/

/-- Every opening brace among the tokens is closed by a brace of its own. -/
inductive Nested : List Token → Prop
  | nil : Nested []
  | cons {t : Token} {ts : List Token} (hopen : t ≠ .openObject) (hclose : t ≠ .closeObject)
      (h : Nested ts) : Nested (t :: ts)
  | object {ts us : List Token} (h : Nested ts) (h' : Nested us) :
      Nested (.openObject :: (ts ++ .closeObject :: us))

theorem Nested.append {ts us : List Token} (h : Nested ts) (h' : Nested us) :
    Nested (ts ++ us) := by
  induction h with
  | nil => exact h'
  | cons hopen hclose _ ih => exact .cons hopen hclose ih
  | object hinner _ _ ih =>
    rw [List.cons_append, List.append_assoc, List.cons_append]
    exact .object hinner ih

theorem nested_intercalate {tss : List (List Token)} (h : ∀ ts ∈ tss, Nested ts) :
    Nested ([Token.comma].intercalate tss) := by
  induction tss with
  | nil => exact .nil
  | cons ts tss ih =>
    have hts := h ts List.mem_cons_self
    have hrest := ih fun us hus => h us (List.mem_cons_of_mem ts hus)
    cases tss with
    | nil => simpa using hts
    | cons us tss =>
      rw [List.intercalate_cons_cons, List.append_assoc]
      exact hts.append (.cons (by simp) (by simp) hrest)

mutual

theorem Value.nested : ∀ v : Value, Nested v.tokens
  | .word _ => .cons (by simp) (by simp) .nil
  | .number _ => .cons (by simp) (by simp) .nil
  | .string _ => .cons (by simp) (by simp) .nil
  | .array vs => by
    rw [Value.tokens]
    exact .cons (by simp) (by simp) (.append (nested_intercalate (elementTokens_nested vs))
      (.cons (by simp) (by simp) .nil))
  | .object ms => by
    rw [Value.tokens]
    exact .object (nested_intercalate (memberTokens_nested ms)) .nil

theorem elementTokens_nested : ∀ vs : List Value, ∀ ts ∈ elementTokens vs, Nested ts
  | [] => by simp [elementTokens]
  | v :: vs => by
    rw [elementTokens, List.forall_mem_cons]
    exact ⟨v.nested, elementTokens_nested vs⟩

theorem memberTokens_nested : ∀ ms : List (Str × Value), ∀ ts ∈ memberTokens ms, Nested ts
  | [] => by simp [memberTokens]
  | (_, v) :: ms => by
    rw [memberTokens, List.forall_mem_cons]
    exact ⟨.cons (by simp) (by simp) (.cons (by simp) (by simp) v.nested), memberTokens_nested ms⟩

end

/-! ## texts -/

inductive Space where
  | space
  | tab
  | lineFeed
  | carriageReturn
deriving DecidableEq, Repr

def Space.byte : Space → UInt8
  | .space => 0x20
  | .tab => 0x09
  | .lineFeed => 0x0A
  | .carriageReturn => 0x0D

def spaces (ws : List Space) : List UInt8 := ws.map Space.byte

def Token.text : Token → List UInt8
  | .openObject => [0x7B]
  | .closeObject => [0x7D]
  | .openArray => [0x5B]
  | .closeArray => [0x5D]
  | .comma => [0x2C]
  | .colon => [0x3A]
  | .name s => quote :: (Str.text s ++ [quote])
  | .string s => quote :: (Str.text s ++ [quote])
  | .number n => n.text
  | .word w => w.text

/-- A token after white space. -/
abbrev Piece := List Space × Token

def Piece.text (p : Piece) : List UInt8 := spaces p.1 ++ p.2.text

def text (ps : List Piece) (tail : List Space) : List UInt8 := ps.flatMap Piece.text ++ spaces tail

theorem text_cons (p : Piece) (ps : List Piece) (tail : List Space) :
    text (p :: ps) tail = spaces p.1 ++ (p.2.text ++ text ps tail) := by
  simp [text, Piece.text]

theorem text_append (ps qs : List Piece) (tail : List Space) :
    text (ps ++ qs) tail = ps.flatMap Piece.text ++ text qs tail := by
  simp [text]

/-- A text of a value. -/
structure TextOf (v : Value) where
  pieces : List Piece
  tail : List Space := []
  tokens_eq : pieces.map Prod.snd = v.tokens

def TextOf.bytes {v : Value} (t : TextOf v) : List UInt8 := text t.pieces t.tail

/-- The text without white space. -/
def Value.compact (v : Value) : TextOf v where
  pieces := v.tokens.map fun t => ([], t)
  tokens_eq := by simp

/-! ## bytes of tokens -/

/-- A byte a search stops at. -/
def marks : List UInt8 := [quote, 0x3A, 0x7B, 0x7D]

theorem Space.byte_notMem_marks (w : Space) : w.byte ∉ marks := by
  cases w <;> decide

theorem digitByte_notMem_marks (d : Fin 10) : digitByte d ∉ marks := by
  revert d
  decide

theorem Exponent.notMem_marks (e : Exponent) {b : UInt8} (h : b ∈ e.text) : b ∉ marks := by
  rw [Exponent.text, List.mem_append, List.mem_cons] at h
  obtain (rfl | h) | h := h
  · split <;> decide
  · cases hsign : e.sign with
    | none => simp [hsign] at h
    | some minus =>
      rw [hsign, Option.elim_some, List.mem_singleton] at h
      subst h
      cases minus <;> decide
  · obtain ⟨d, -, rfl⟩ := List.mem_map.mp h
    exact digitByte_notMem_marks d

theorem Number.notMem_marks (n : Number) {b : UInt8} (h : b ∈ n.text) : b ∉ marks := by
  rw [Number.text, List.mem_append, List.mem_append, List.mem_append] at h
  obtain ((h | h) | h) | h := h
  · split at h
    · cases List.mem_singleton.mp h
      decide
    · cases h
  · obtain ⟨d, -, rfl⟩ := List.mem_map.mp h
    exact digitByte_notMem_marks d
  · split at h
    · cases h
    · obtain rfl | h := List.mem_cons.mp h
      · decide
      · obtain ⟨d, -, rfl⟩ := List.mem_map.mp h
        exact digitByte_notMem_marks d
  · cases hexponent : n.exponent with
    | none => simp [hexponent] at h
    | some e =>
      rw [hexponent, Option.elim_some] at h
      exact e.notMem_marks h

theorem Word.notMem_marks (w : Word) {b : UInt8} (h : b ∈ w.text) : b ∉ marks := by
  have hall : w.text.all fun c => !marks.contains c := by
    cases w <;> rfl
  have hb := List.all_eq_true.mp hall b h
  simpa using hb

theorem spaces_notMem_marks {ws : List Space} {b : UInt8} (h : b ∈ spaces ws) : b ∉ marks := by
  obtain ⟨w, -, rfl⟩ := List.mem_map.mp h
  exact w.byte_notMem_marks

end Infra.Json
