import WinSys.EventLog.Elements

/-!
# The round trip

`parseData` gives back the items of an event, however it is rendered.
-/

namespace WinSys.EventLog

open Infra CLibrary

/-! ## names -/

theorem isNameChar_of_start {c : Char} (h : isNameStartChar c = true) : isNameChar c = true := by
  rw [isNameChar, h]
  rfl

/-- No mark of a tag is in a character of a name. -/
theorem isNameChar_ne {c : Char} (h : isNameChar c = true) {d : WChar}
    (hd : d = less ∨ d = 0x21 ∨ d = 0x3F ∨ d = slash ∨ d = greater) : d ∉ utf16 c := by
  intro hm
  have hval : d.toNat = 0x21 ∨ d.toNat = 0x2F ∨ d.toNat = 0x3C ∨ d.toNat = 0x3E ∨
      d.toNat = 0x3F := by
    rcases hd with rfl | rfl | rfl | rfl | rfl <;> decide
  have hc : d.toNat = c.toNat := by
    cases mem_utf16 hm with
    | inl h => exact h
    | inr h => omega
  simp only [isNameChar, isNameStartChar, nameStartRanges, nameRanges, inRange, List.any_cons,
    List.any_nil, Bool.or_eq_true, Bool.and_eq_true, decide_eq_true_eq, Bool.or_false] at h
  omega

variable [CLibrary]

theorem isXmlSpace_iswspace {c : WChar} (h : isXmlSpace c = true) : iswspace c = true := by
  simp only [isXmlSpace, Bool.or_eq_true, decide_eq_true_eq] at h
  rcases h with ((rfl | rfl) | rfl) | rfl <;> exact iswspace_ascii _ (by decide)

/-- A name of XML can name a tag. -/
def XmlName.toName (n : XmlName iswspace) : Name iswspace where
  text := n.text
  named := by
    intro d hd
    have hspace := n.unspaced d hd
    obtain ⟨c, hc, hd⟩ := List.mem_flatMap.mp hd
    have hname : isNameChar c = true := by
      cases List.mem_cons.mp hc with
      | inl h => exact h ▸ isNameChar_of_start n.starts
      | inr h => exact n.continues c h
    constructor
    · have hslash : d ≠ slash := fun h => isNameChar_ne hname (.inr (.inr (.inr (.inl h)))) hd
      have hgreater : d ≠ greater := fun h => isNameChar_ne hname (.inr (.inr (.inr (.inr h)))) hd
      simp [endsName, hspace, hslash, hgreater]
    · rintro rfl
      exact isNameChar_ne hname (.inl rfl) hd
  starts := by
    intro d hd
    have hmem : d ∈ utf16 n.first := by
      have hne : utf16 n.first ≠ [] := by
        unfold utf16
        split
        · simp
        · simp
      obtain ⟨a, as, has⟩ := List.exists_cons_of_ne_nil hne
      rw [XmlName.text, encode, List.flatMap_cons, has, List.cons_append, List.head?_cons] at hd
      cases hd
      rw [has]
      exact List.mem_cons_self
    have hname := isNameChar_of_start n.starts
    constructor
    · rintro rfl
      exact isNameChar_ne hname (.inr (.inr (.inl rfl))) hmem
    · rintro rfl
      exact isNameChar_ne hname (.inr (.inl rfl)) hmem
  nonempty := by
    unfold XmlName.text encode utf16
    rw [List.flatMap_cons]
    split
    · simp
    · simp

/-- A name in ASCII. -/
def asciiName (text : WString)
    (h : ∀ c ∈ text, c < 0x80 ∧ endsName asciiSpace c = false ∧ c ≠ less)
    (hstarts : ∀ c ∈ text.head?, c ≠ 0x3F ∧ c ≠ 0x21) (hne : text ≠ []) : Name iswspace where
  text := text
  named c hc := by
    obtain ⟨hlt, hends, hless⟩ := h c hc
    rw [endsName, iswspace_ascii c hlt]
    exact ⟨hends, hless⟩
  starts := hstarts
  nonempty := hne

def eventDataName : Name iswspace := asciiName (wide "EventData") (by decide) (by decide) (by decide)

def userDataName : Name iswspace := asciiName (wide "UserData") (by decide) (by decide) (by decide)

def dataName : Name iswspace := asciiName (wide "Data") (by decide) (by decide) (by decide)

/-! ## the name in a tag -/

section NameAttribute

variable (d : DataItem)

/-- What follows `<Data`. -/
def DataItem.tagRest : Rest iswspace where
  text := d.nameAttribute ++ d.trail.val
  separated := by
    unfold DataItem.nameAttribute
    split
    · intro c hc
      rw [List.nil_append] at hc
      exact isXmlSpace_iswspace (d.trail.property c (List.mem_of_head? hc))
    · intro c hc
      cases hc
      exact iswspace_ascii 0x20 (by decide)
  plain := by
    intro c hc
    cases List.mem_append.mp hc with
    | inl hc =>
      unfold DataItem.nameAttribute at hc
      split at hc
      · cases hc
      · next q pieces hname =>
        obtain ⟨hless, hgreater, -⟩ := notMem_written_attribute pieces
        have hconst : ∀ c ∈ wide " Name=", c ≠ less ∧ c ≠ greater := by decide
        have hquote : q.unit ≠ less ∧ q.unit ≠ greater := by cases q <;> decide
        rw [List.mem_append, List.mem_cons, List.mem_append, List.mem_singleton] at hc
        rcases hc with hc | rfl | hc | rfl
        · exact hconst c hc
        · exact hquote
        · exact ⟨fun h => hless (h ▸ hc), fun h => hgreater (h ▸ hc)⟩
        · exact hquote
    | inr hc =>
      have hspace := d.trail.property c hc
      constructor
      · rintro rfl
        cases hspace
      · rintro rfl
        cases hspace
  notSlash := by
    rw [List.getLast?_append]
    cases hlast : d.trail.val.getLast? with
    | some c =>
      have hspace := d.trail.property c (List.mem_of_getLast? hlast)
      rw [Option.some_or]
      rintro ⟨⟩
      cases hspace
    | none =>
      rw [Option.none_or]
      unfold DataItem.nameAttribute
      split
      · simp
      · next q pieces hname =>
        rw [← List.cons_append, ← List.append_assoc, List.getLast?_concat]
        cases q <;> decide

/-- The attribute is found where it is. -/
theorem attributeOf_found {tag name value : WString} {q : Quote} {pre rest : WString} {n : WChar}
    (hn : n ∉ pre) (hlast : pre.getLast?.any iswspace) (hvalue : q.unit ∉ value)
    (htag : tag = pre ++ ((n :: name) ++ (equalSign :: q.unit :: (value ++ q.unit :: rest)))) :
    attributeOf tag (n :: name) 0 = decodeText value := by
  have hfind : findFrom (n :: name) tag 0 = some pre.length := by
    rw [findFrom_drop, List.drop_zero, htag, find_append_self hn]
    rfl
  have hat : attributeAt tag (n :: name) pre.length = some (decodeText value) := by
    have hpre : pre ≠ [] := by
      rintro rfl
      cases hlast
    have hlast' : tag[pre.length - 1]? = pre.getLast? := by
      have hlen := List.length_pos_iff.mpr hpre
      rw [htag, List.getElem?_append_left (by omega), List.getLast?_eq_getElem?]
    have hdrop : tag.drop (pre.length + (n :: name).length)
        = equalSign :: q.unit :: (value ++ q.unit :: rest) := by
      rw [← List.drop_drop, htag, List.drop_left, List.drop_left]
    have hstops : ∀ c < 0x80, asciiSpace c = false → ∀ as : WString,
        (c :: as).dropWhile iswspace = c :: as := by
      intro c hc hspace as
      rw [List.dropWhile_cons, iswspace_ascii c hc, hspace]
      rfl
    have hequal := hstops equalSign (by decide) (by decide)
    have hquote := hstops q.unit (by cases q <;> decide) (by cases q <;> decide)
    unfold attributeAt
    rw [if_neg (by simp [hpre, hlast', hlast]), hdrop, hequal]
    simp only
    rw [if_neg (by simp), hquote]
    simp only
    rw [if_neg (by cases q <;> simp [Quote.unit]), find_single hvalue]
    simp only
    rw [List.take_left]
  rw [attributeOf]
  split
  · next h =>
    rw [hfind] at h
    cases h
  · next pos h =>
    rw [hfind] at h
    cases h
    rw [hat]

/-- No attribute of a name that the tag does not have. -/
theorem attributeOf_none {tag name : WString} {n : WChar} (h : n ∉ tag) :
    attributeOf tag (n :: name) 0 = [] := by
  have hfind : findFrom (n :: name) tag 0 = none := by
    rw [findFrom_eq_none]
    intro j _ _ hp
    exact h (List.mem_of_mem_drop (hp.subset List.mem_cons_self))
  rw [attributeOf]
  split
  · rfl
  · next h =>
    rw [hfind] at h
    cases h

theorem attributeOf_dataItem :
    attributeOf (startTag (wide "Data") d.tagRest.text d.content.text) (wide "Name") 0
      = d.item.name := by
  obtain ⟨close, hclose, hnotMem⟩ : ∃ close : WString,
      startTag (wide "Data") d.tagRest.text d.content.text
        = wide "<Data" ++ d.nameAttribute ++ (d.trail.val ++ close) ∧ (0x4E : WChar) ∉ close := by
    cases d.content.text with
    | none => exact ⟨[slash, greater], by simp [startTag, emptyTag, DataItem.tagRest]; rfl, by decide⟩
    | some content =>
      exact ⟨[greater], by simp [startTag, openTag, DataItem.tagRest]; rfl, by decide⟩
  rw [hclose]
  unfold DataItem.nameAttribute DataItem.item
  cases d.name with
  | none =>
    apply attributeOf_none
    rw [List.append_nil, List.mem_append, List.mem_append, not_or, not_or]
    refine ⟨by decide, ?_, hnotMem⟩
    intro h
    exact absurd (d.trail.property _ h) (by decide)
  | some name =>
    obtain ⟨q, pieces⟩ := name
    have hname := @attributeOf_found _
      (wide "<Data" ++ (wide " Name=" ++ q.unit :: (written pieces ++ [q.unit]))
        ++ (d.trail.val ++ close))
      (wide "ame") (written pieces) q (wide "<Data ") (d.trail.val ++ close) 0x4E
      (by decide) (iswspace_ascii 0x20 (by decide)) (notMem_written_attribute pieces).2.2
      (by simp; rfl)
    rw [decodeText_written pieces (by cases q <;> rfl) (by cases q <;> rfl)] at hname
    exact hname

end NameAttribute

/-! ## children -/

/-- A child element as it is written, whatever it is a child of. -/
structure Child where
  gap : Gap
  name : Name iswspace
  rest : Rest iswspace
  content : Content

namespace Child

variable (c : Child)

def text : WString := c.gap.val ++ elementText c.name.text c.rest.text c.content.text

/-- The name, the start tag and the value. -/
def read : WString × WString × WString :=
  (c.name.text, startTag c.name.text c.rest.text c.content.text, c.content.value)

theorem less_notMem_content : ∀ text ∈ c.content.text, less ∉ text := by
  intro text htext
  obtain ⟨pieces, -, rfl⟩ := Option.map_eq_some_iff.mp htext
  exact less_notMem_written pieces

theorem decodeText_content : decodeText (c.content.text.getD []) = c.content.value := by
  unfold Content.text Content.value
  cases c.content with
  | none => simp [decodeText]
  | some pieces => exact decodeText_written pieces rfl rfl

theorem passed (m : Name iswspace) : Passed m.text c.text :=
  (Passed.of_notMem c.gap.property).append
    (passed_elementText m c.name c.rest _ fun text htext =>
      Passed.of_notMem (c.less_notMem_content text htext))

theorem noElement {name : WString} (h : c.name.text ≠ name) (hnil : name ≠ []) :
    NoElement iswspace name c.text :=
  (NoElement.of_notMem c.gap.property).append
    (noElement_elementText c.name c.rest _ h hnil fun text htext =>
      NoElement.of_notMem (c.less_notMem_content text htext))

end Child

theorem passed_children (m : Name iswspace) (cs : List Child) (last : Gap) :
    Passed m.text (cs.flatMap Child.text ++ last.val) := by
  induction cs with
  | nil => exact Passed.of_notMem last.property
  | cons c cs ih =>
    rw [List.flatMap_cons, List.append_assoc]
    exact (c.passed m).append ih

theorem noElement_children {name : WString} {cs : List Child} (h : ∀ c ∈ cs, c.name.text ≠ name)
    (hnil : name ≠ []) : NoElement iswspace name (cs.flatMap Child.text) := by
  induction cs with
  | nil => exact NoElement.of_notMem List.not_mem_nil
  | cons c cs ih =>
    rw [List.flatMap_cons]
    exact (c.noElement (h c List.mem_cons_self) hnil).append
      (ih fun c' hc' => h c' (List.mem_cons_of_mem _ hc'))

/-- The children of an element are read one after the other. -/
theorem forEachChild_children (cs : List Child) (last : Gap) {xml rest : WString} {pos : ℕ}
    (h : xml.drop pos = cs.flatMap Child.text ++ last.val ++ less :: rest) :
    (forEachChild xml pos (pos + (cs.flatMap Child.text ++ last.val).length)).map
        (fun p => (p.1.name, p.1.tag, p.2)) = cs.map Child.read := by
  induction cs generalizing pos with
  | nil =>
    have hnil := forEachChild_nil h last.property
    exact congrArg _ hnil
  | cons c cs ih =>
    rw [List.flatMap_cons] at h ⊢
    have hc : xml.drop pos = c.gap.val ++ (elementText c.name.text c.rest.text c.content.text ++
        (cs.flatMap Child.text ++ last.val ++ less :: rest)) := by
      rw [h, Child.text]
      simp only [List.append_assoc]
    have hlen : (c.text ++ cs.flatMap Child.text ++ last.val).length
        = c.gap.val.length + (elementText c.name.text c.rest.text c.content.text).length
          + (cs.flatMap Child.text ++ last.val).length := by
      simp only [Child.text, List.length_append, Nat.add_assoc]
    obtain ⟨child, hname, htag, hchild⟩ := @forEachChild_cons _ _ _ _ c.name c.rest c.content.text _
      (pos + (c.text ++ cs.flatMap Child.text ++ last.val).length) hc
      c.gap.property c.less_notMem_content
      (by rw [hlen]; omega)
    rw [hchild, List.map_cons, List.map_cons, hname, htag, c.decodeText_content]
    congr 1
    rw [hlen, ← Nat.add_assoc, ← Nat.add_assoc]
    exact ih (drop_add_length (drop_add_length hc))

def DataItem.child (d : DataItem) : Child := ⟨d.gap, dataName, d.tagRest, d.content⟩

def Field.child (f : Field iswspace) : Child := ⟨f.gap, f.name.toName, f.rest, f.content⟩

theorem flatMap_dataItem (items : List DataItem) :
    items.flatMap DataItem.text = (items.map DataItem.child).flatMap Child.text := by
  rw [List.flatMap_map]
  rfl

theorem flatMap_field (fields : List (Field iswspace)) :
    fields.flatMap Field.text = (fields.map Field.child).flatMap Child.text := by
  rw [List.flatMap_map]
  rfl

/-! ## events -/

theorem parseData_eventData (x : EventDataXml iswspace) : parseData x.text = x.items := by
  obtain ⟨content, hcontent⟩ : ∃ content, content = x.content.map fun c =>
    c.1.flatMap DataItem.text ++ c.2.val := ⟨_, rfl⟩
  have htext : x.text = x.before.val ++ (elementText eventDataName.text x.rest.text content
      ++ x.after) := by
    rw [hcontent]
    rfl
  have hfound := findElement_elementText eventDataName x.rest content
    (x.before.property _ List.mem_cons_self) x.after
  rw [← htext] at hfound
  unfold parseData EventDataXml.items
  rw [show wide "EventData" = eventDataName.text from rfl, hfound]
  cases hx : x.content with
  | none =>
    rw [hcontent, hx]
    rfl
  | some c =>
    obtain ⟨items, last⟩ := c
    rw [hx, Option.map_some, flatMap_dataItem] at hcontent
    rw [hcontent] at htext ⊢
    have hinside := @drop_content _ x.text x.after x.before.val.length eventDataName x.rest _
      (by rw [htext, List.drop_left])
    have hchildren := forEachChild_children (items.map DataItem.child) last hinside
    simp only [Option.isNone_some]
    rw [if_neg (by simp), contentEnd_of_passed (passed_children _ _ last) hinside]
    simp only
    have hread : ∀ found : List (Element × WString),
        (found.filterMap fun p => if p.1.name = wide "Data"
          then some (EventDataItem.mk (attributeOf p.1.tag (wide "Name") 0) p.2) else none)
        = (found.map fun p => (p.1.name, p.1.tag, p.2)).filterMap fun p =>
          if p.1 = wide "Data" then some ⟨attributeOf p.2.1 (wide "Name") 0, p.2.2⟩ else none := by
      intro found
      rw [List.filterMap_map]
      rfl
    rw [hread, hchildren, List.map_map, List.filterMap_map, Option.map_some, Option.getD_some,
      ← List.filterMap_eq_map]
    refine List.filterMap_congr fun d _ => ?_
    have hitem : (⟨attributeOf (startTag (wide "Data") d.tagRest.text d.content.text)
        (wide "Name") 0, d.content.value⟩ : EventDataItem) = d.item := by
      rw [attributeOf_dataItem]
      rfl
    have hname : d.child.read.1 = wide "Data" := rfl
    simp only [Function.comp_apply]
    rw [if_pos hname]
    exact congrArg some hitem

namespace UserDataXml

section Space

variable {space : WChar → Bool} (x : UserDataXml space)

/-- What the element in `<UserData>` has. -/
def inner : Option WString := x.content.map fun c => c.1.flatMap Field.text ++ c.2.val

/-- What `<UserData>` has. -/
def outer : WString := x.lead.val ++ (x.rootText ++ x.last.val)

end Space

variable (x : UserDataXml iswspace)

theorem inner_cases : x.inner = none ∧ x.items = [] ∨ ∃ (fields : List (Field iswspace)) (last : Gap),
    x.inner = some ((fields.map Field.child).flatMap Child.text ++ last.val) ∧
      x.items = fields.map Field.item := by
  unfold inner items
  cases x.content with
  | none => exact .inl ⟨rfl, rfl⟩
  | some c =>
    refine .inr ⟨c.1, c.2, ?_, rfl⟩
    rw [Option.map_some, flatMap_field]

theorem inner_passed (m : Name iswspace) : ∀ text ∈ x.inner, Passed m.text text := by
  intro text htext
  obtain ⟨hnone, -⟩ | ⟨fields, last, hsome, -⟩ := x.inner_cases
  · rw [hnone] at htext
    cases htext
  · rw [hsome] at htext
    cases htext
    exact passed_children m _ last

theorem inner_noElement : ∀ text ∈ x.inner, NoElement iswspace (wide "EventData") text := by
  intro text htext
  obtain ⟨hnone, -⟩ | ⟨fields, last, hsome, -⟩ := x.inner_cases
  · rw [hnone] at htext
    cases htext
  · rw [hsome] at htext
    cases htext
    refine (noElement_children ?_ (by decide)).append (NoElement.of_notMem last.property)
    intro c hc
    obtain ⟨f, -, rfl⟩ := List.mem_map.mp hc
    exact f.name_ne

theorem outer_passed (m : Name iswspace) : Passed m.text x.outer :=
  (Passed.of_notMem x.lead.property).append
    ((passed_elementText m x.root.toName x.rootRest x.inner (x.inner_passed m)).append
      (Passed.of_notMem x.last.property))

/-- The whole text has no `EventData`. -/
theorem noElement : NoElement iswspace (wide "EventData") x.text := by
  have hroot : NoElement iswspace (wide "EventData") x.rootText :=
    noElement_elementText x.root.toName x.rootRest x.inner x.root_ne (by decide) x.inner_noElement
  have houter : NoElement iswspace (wide "EventData") x.outer :=
    (NoElement.of_notMem x.lead.property).append
      (hroot.append (NoElement.of_notMem x.last.property))
  refine (x.before.property _ List.mem_cons_self).append (NoElement.append ?_
    (x.after.property _ List.mem_cons_self))
  refine noElement_elementText userDataName x.rest (some x.outer)
    (show wide "UserData" ≠ wide "EventData" from by decide) (by decide) ?_
  intro text htext
  cases htext
  exact houter

end UserDataXml

/-- The items of `<UserData>`, whatever comes after it. -/
theorem UserDataXml.parseData_append (x : UserDataXml iswspace) {xml after : WString}
    (htext : xml = x.before.val ++ (elementText userDataName.text x.rest.text (some x.outer)
      ++ after))
    (hnone : findElement xml (wide "EventData") 0 = none) : parseData xml = x.items := by
  have hfound := findElement_elementText userDataName x.rest (some x.outer)
    (x.before.property _ (by simp [userDataName, asciiName])) after
  rw [← htext] at hfound
  have hinside := @drop_content _ xml after x.before.val.length userDataName x.rest x.outer
    (by rw [htext, List.drop_left])
  have hend := contentEnd_of_passed (x.outer_passed userDataName) hinside
  unfold parseData
  rw [hnone, show wide "UserData" = userDataName.text from rfl, hfound]
  simp only [Option.isNone_some]
  generalize x.before.val.length + (startTag userDataName.text x.rest.text (some x.outer)).length
    = start at hinside hend ⊢
  rw [if_neg (by simp), hend]
  have hlead : xml.drop start = x.lead.val ++ (elementText x.root.toName.text x.rootRest.text
      x.inner ++ (x.last.val ++ (closeTag userDataName.text ++ after))) := by
    rw [hinside, UserDataXml.outer, UserDataXml.rootText]
    simp only [List.append_assoc]
    rfl
  have hfirst : findFrom [less] xml start = some (start + x.lead.val.length) := by
    rw [findFrom_drop, hlead, elementText_eq, startTag_eq, List.cons_append, List.cons_append,
      find_single x.lead.property, Option.map_some, Nat.add_comm]
  have hroot := readElement_elementText x.root.toName x.rootRest x.inner (drop_add_length hlead)
  have hlen : x.outer.length = x.lead.val.length
      + (elementText x.root.toName.text x.rootRest.text x.inner).length + x.last.val.length := by
    simp only [UserDataXml.outer, List.length_append, ← Nat.add_assoc]
    rfl
  have hpos : 0 < (elementText x.root.toName.text x.rootRest.text x.inner).length := by
    rw [elementText_eq, startTag_eq]
    simp
  rw [hfirst]
  simp only
  rw [if_neg (by omega), hroot]
  simp only
  obtain ⟨hnone, hitems⟩ | ⟨fields, last, hsome, hitems⟩ := x.inner_cases
  · rw [hnone, hitems]
    rfl
  · have hroot' := drop_add_length hlead
    rw [hsome] at hroot' hlen ⊢
    have hfields := drop_content x.root.toName x.rootRest _ hroot'
    have hchildren := forEachChild_children (fields.map Field.child) last hfields
    have hrootEnd := contentEnd_of_passed (passed_children x.root.toName _ last) hfields
    rw [elementText_eq, afterTag, List.length_append, List.length_append] at hlen
    rw [if_neg (by simp), hrootEnd]
    simp only
    rw [if_neg (by omega), hitems]
    have hread : ∀ found : List (Element × WString),
        (found.map fun p => EventDataItem.mk p.1.name p.2)
        = (found.map fun p => (p.1.name, p.1.tag, p.2)).map fun p => ⟨p.1, p.2.2⟩ := by
      intro found
      rw [List.map_map]
      rfl
    rw [hread, hchildren, List.map_map, List.map_map]
    rfl

theorem parseData_userData (x : UserDataXml iswspace) : parseData x.text = x.items :=
  x.parseData_append rfl (findElement_noElement x.noElement)

/-- **The items of an event are what its text is read as**, when its names and the tags before its
data are named without what the C library takes for white space. -/
theorem parseData_text (x : EventXml iswspace) : parseData x.text = x.items := by
  cases x with
  | eventData x => exact parseData_eventData x
  | userData x => exact parseData_userData x

/-- `<UserData>` with one field without content, whatever its name and its tag have. -/
def oneField {space : WChar → Bool} (name : XmlName space)
    (hne : name.text ≠ wide "EventData") (rest : Rest space) (root : XmlName space)
    (hroot : root.text ≠ wide "EventData") : UserDataXml space where
  before := ⟨[], by intro name _ pre post h; cases pre <;> cases h⟩
  rest := ⟨[], by simp, by simp, by simp⟩
  lead := ⟨[], by simp⟩
  root := root
  root_ne := hroot
  rootRest := ⟨[], by simp, by simp, by simp⟩
  content := some ([⟨⟨[], by simp⟩, name, hne, rest, none⟩], ⟨[], by simp⟩)
  last := ⟨[], by simp⟩
  after := ⟨[], by intro name _ pre post h; cases pre <;> cases h⟩

/-- The Ogham space mark, a character of XML's names. -/
def oghamSpace : Char := Char.ofNat 0x1680

/-- The name `a b`, with that space. -/
def spacedName : XmlName isXmlSpace := ⟨'a', [oghamSpace, 'b'], by decide, by decide, by decide⟩

omit [CLibrary] in
theorem spaced_name_cut :
    ¬ ∀ [CLibrary] (x : EventXml isXmlSpace), parseData x.text = x.items := by
  intro h
  have hread := @h unicode (.userData (oneField spacedName (by decide)
    ⟨[], by simp, by simp, by simp⟩ ⟨'R', [], by decide, by decide, by decide⟩ (by decide)))
  -- what the code reads in the text: a field `a` with a `b` in its tag
  have hcut := @parseData_userData unicode (oneField ⟨'a', [], by decide, by decide, by decide⟩
    (by decide) ⟨encode [oghamSpace, 'b'], by decide, by decide, by decide⟩
    ⟨'R', [], by decide, by decide, by decide⟩ (by decide))
  have hitems := hread.symm.trans hcut
  revert hitems
  decide

end WinSys.EventLog
