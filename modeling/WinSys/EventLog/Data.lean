import WinSys.CLibrary
import WinSys.Infra.Text
import WinSys.Texts

/-!
# An event's data

`EventLog::ParseData`: the data items out of an event's XML, read by searching for tags.
-/

namespace WinSys.EventLog

open Infra Texts CLibrary

def less : WChar := 0x3C

def greater : WChar := 0x3E

def slash : WChar := 0x2F

def ampersand : WChar := 0x26

def semicolon : WChar := 0x3B

def apostrophe : WChar := 0x27

def equalSign : WChar := 0x3D

def numberSign : WChar := 0x23

theorem findFrom_le {pat as : WString} {pos i : ℕ} (h : findFrom pat as pos = some i) :
    pos ≤ i ∧ i ≤ as.length :=
  have ⟨hle, hi, _⟩ := findFrom_eq_some.mp h
  ⟨hle, hi⟩

theorem findFrom_lt {c : WChar} {pat as : WString} {pos i : ℕ}
    (h : findFrom (c :: pat) as pos = some i) : pos ≤ i ∧ i < as.length := by
  obtain ⟨hle, -, hp, -⟩ := findFrom_eq_some.mp h
  refine ⟨hle, ?_⟩
  have hlen := hp.length_le
  rw [List.length_drop, List.length_cons] at hlen
  omega

variable [CLibrary]

/-! ## text -/

/-- What `&...;` stands for; nothing for a number that is no character. -/
def decodeEntity (entity : WString) : WString :=
  if entity = wide "amp" then [ampersand]
  else if entity = wide "lt" then [less]
  else if entity = wide "gt" then [greater]
  else if entity = wide "quot" then [quote]
  else if entity = wide "apos" then [apostrophe]
  else
    match entity with
    | c :: c' :: rest =>
      if c = numberSign then
        let value := if c' = 0x78 ∨ c' = 0x58 then wcstoul rest 16 else wcstoul (c' :: rest) 10
        if 0 < value ∧ value ≤ 0xFFFF then [value.toUInt16]
        else if 0xFFFF < value ∧ value ≤ 0x10FFFF then
          [(0xD800 + (value - 0x10000) / 0x400).toUInt16,
            (0xDC00 + (value - 0x10000) % 0x400).toUInt16]
        else []
      else ampersand :: entity ++ [semicolon]
    | _ => ampersand :: entity ++ [semicolon]

/-- `DecodeText`: the references replaced, the tags dropped. -/
def decodeText : WString → WString
  | [] => []
  | c :: rest =>
    if c = less then
      match find [greater] (c :: rest) with
      | none => []
      | some stop => decodeText (rest.drop stop)
    else if c ≠ ampersand then c :: decodeText rest
    else
      match find [semicolon] (c :: rest) with
      | none => c :: decodeText rest
      | some semi =>
        if 10 < semi then c :: decodeText rest
        else decodeEntity (rest.take (semi - 1)) ++ decodeText (rest.drop semi)
termination_by text => text.length
decreasing_by all_goals simp only [List.length_cons, List.length_drop]; omega

/-! ## tags -/

/-- An attribute's value where its name stands in a tag; none if no attribute of the name is
there. -/
def attributeAt (tag name : WString) (pos : ℕ) : Option WString :=
  if pos = 0 ∨ ¬ tag[pos - 1]?.any iswspace then none
  else
    match (tag.drop (pos + name.length)).dropWhile iswspace with
    | [] => none
    | c :: rest =>
      if c ≠ equalSign then none
      else
        match rest.dropWhile iswspace with
        | [] => none
        | q :: value =>
          if q ≠ apostrophe ∧ q ≠ quote then none
          else
            match find [q] value with
            | none => some []
            | some stop => some (decodeText (value.take stop))

/-- `Attribute`: the value of the first attribute of the name, from a position on. -/
def attributeOf (tag name : WString) (start : ℕ) : WString :=
  match _ : findFrom name tag start with
  | none => []
  | some pos =>
    match attributeAt tag name pos with
    | none => attributeOf tag name (pos + 1)
    | some value => value
termination_by tag.length + 1 - start
decreasing_by
  have := findFrom_le (by assumption)
  omega

structure Element where
  name : WString
  tag : WString
  contentStart : ℕ
  empty : Bool
deriving DecidableEq, Repr

/-- No character of a name in a tag, for some notion of white space. -/
def endsName (space : WChar → Bool) (c : WChar) : Bool := space c || c = slash || c = greater

/-- `ReadElement`: the start tag at a position. -/
def readElement (xml : WString) (pos : ℕ) : Option Element :=
  match xml.drop pos with
  | c :: next :: _ =>
    if c ≠ less ∨ next = slash ∨ next = 0x3F ∨ next = 0x21 then none
    else
      match findFrom [greater] xml pos with
      | none => none
      | some stop => some
        { name := (substr xml (pos + 1) (stop - pos - 1)).takeWhile fun c => !endsName iswspace c
          tag := substr xml pos (stop - pos + 1)
          contentStart := stop + 1
          empty := xml[stop - 1]? = some slash }
  | _ => none

def closeTag (name : WString) : WString := less :: slash :: name ++ [greater]

/-- Whether a start tag at a position opens another element of the name. -/
def opensAt (xml name : WString) (pos : ℕ) : Bool :=
  (readElement xml pos).any fun inner => inner.name = name && !inner.empty

/-- `ContentEnd`, from a position inside so many elements of the name. -/
def contentEnd (xml name : WString) (pos depth : ℕ) : Option ℕ :=
  if pos < xml.length then
    match _ : findFrom [less] xml pos with
    | none => none
    | some next =>
      if substr xml next (closeTag name).length = closeTag name then
        if depth = 1 then some next
        else contentEnd xml name (next + (closeTag name).length) (depth - 1)
      else contentEnd xml name (next + 1) (if opensAt xml name next then depth + 1 else depth)
  else none
termination_by xml.length - pos
decreasing_by
  · have := findFrom_lt (by assumption)
    rw [closeTag, List.cons_append, List.length_cons]
    omega
  · have := findFrom_lt (by assumption)
    omega

/-- `FindElement`: the first element of the name, from a position on. -/
def findElement (xml name : WString) (start : ℕ) : Option Element :=
  match _ : findFrom (less :: name) xml start with
  | none => none
  | some pos =>
    match (readElement xml pos).filter fun element => element.name = name with
    | some element => some element
    | none => findElement xml name (pos + 1)
termination_by xml.length - start
decreasing_by
  have := findFrom_lt (by assumption)
  omega

theorem contentEnd_ge {xml name : WString} {pos depth stop : ℕ}
    (h : contentEnd xml name pos depth = some stop) : pos ≤ stop := by
  fun_induction contentEnd xml name pos depth with
  | case1 => cases h
  | case2 pos hpos next hfind =>
    cases h
    exact (findFrom_lt hfind).1
  | case3 pos depth hpos next hfind hclose hdepth ih =>
    have := findFrom_lt hfind
    have := ih h
    omega
  | case4 pos depth hpos next hfind hclose ih =>
    have := findFrom_lt hfind
    have := ih h
    omega
  | case5 => cases h

theorem readElement_contentStart {xml : WString} {pos : ℕ} {element : Element}
    (h : readElement xml pos = some element) : pos < element.contentStart := by
  unfold readElement at h
  split at h
  · split at h
    · cases h
    · split at h
      · cases h
      · next hfind =>
        cases h
        exact Nat.lt_succ_of_le (findFrom_lt hfind).1
  · cases h

/-- `ForEachChild`: the child elements up to a position, each with its decoded content. -/
def forEachChild (xml : WString) (start stop : ℕ) : List (Element × WString) :=
  match _ : findFrom [less] xml start with
  | none => []
  | some pos =>
    if stop ≤ pos then []
    else
      match _ : readElement xml pos with
      | none => forEachChild xml (pos + 1) stop
      | some child =>
        if child.empty then (child, []) :: forEachChild xml child.contentStart stop
        else
          match _ : contentEnd xml child.name child.contentStart 1 with
          | none => []
          | some childEnd =>
            if stop < childEnd then []
            else
              (child, decodeText (substr xml child.contentStart (childEnd - child.contentStart)))
                :: forEachChild xml (childEnd + child.name.length + 3) stop
termination_by xml.length - start
decreasing_by
  all_goals
    have := findFrom_lt (by assumption)
  · omega
  · have := readElement_contentStart (by assumption)
    omega
  · have := readElement_contentStart (by assumption)
    have := contentEnd_ge (by assumption)
    omega

/-! ## the data -/

structure EventDataItem where
  name : WString
  value : WString
deriving DecidableEq, Repr

def parseData (xml : WString) : List EventDataItem :=
  match findElement xml (wide "EventData") 0 with
  | some element =>
    if element.empty then []
    else
      match contentEnd xml element.name element.contentStart 1 with
      | none => []
      | some stop =>
        (forEachChild xml element.contentStart stop).filterMap fun (child, value) =>
          if child.name = wide "Data" then some ⟨attributeOf child.tag (wide "Name") 0, value⟩
          else none
  | none =>
    match findElement xml (wide "UserData") 0 with
    | none => []
    | some element =>
      if element.empty then []
      else
        match contentEnd xml element.name element.contentStart 1,
          findFrom [less] xml element.contentStart with
        | some stop, some first =>
          if stop ≤ first then []
          else
            match readElement xml first with
            | none => []
            | some root =>
              if root.empty then []
              else
                match contentEnd xml root.name root.contentStart 1 with
                | none => []
                | some rootEnd =>
                  if stop < rootEnd then []
                  else
                    (forEachChild xml root.contentStart rootEnd).map fun (child, value) =>
                      ⟨child.name, value⟩
        | _, _ => []

end WinSys.EventLog
