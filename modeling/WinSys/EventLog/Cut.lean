import WinSys.EventLog.Roundtrip

/-!
# Text that breaks off

What `parseData` gives for the start of an event's text: the items when the section is whole in it,
else nothing.
-/

namespace WinSys.EventLog

open Infra CLibrary

variable {cut rest name : WString} {pos : ℕ}

/-! ## reading the start of a text -/

theorem findFrom_cut {c : WChar} {pat : WString} {i : ℕ}
    (h : findFrom (c :: pat) cut pos = some i) (rest : WString)
    (hfits : i + pat.length < cut.length) : findFrom (c :: pat) (cut ++ rest) pos = some i := by
  obtain ⟨hle, hlen, hp, hfirst⟩ := findFrom_eq_some.mp h
  refine findFrom_eq_some.mpr ⟨hle, ?_, ?_, ?_⟩
  · rw [List.length_append]
    omega
  · rw [List.drop_append_of_le_length hlen]
    exact hp.trans (List.prefix_append _ _)
  · intro j hj hji hpj
    refine hfirst j hj hji ?_
    rw [List.drop_append_of_le_length (by omega)] at hpj
    refine List.prefix_of_prefix_length_le hpj (List.prefix_append _ _) ?_
    rw [List.length_cons, List.length_drop]
    omega

theorem substr_cut {count : ℕ} (h : pos + count ≤ cut.length) (rest : WString) :
    substr (cut ++ rest) pos count = substr cut pos count := by
  unfold substr
  rw [List.drop_append_of_le_length (by omega), List.take_append_of_le_length]
  rw [List.length_drop]
  omega

theorem findFrom_single_cut {c : WChar} {i : ℕ} (h : findFrom [c] cut pos = some i)
    (rest : WString) : findFrom [c] (cut ++ rest) pos = some i :=
  findFrom_cut h rest (findFrom_lt h).2

section Cut

variable [CLibrary]

/-- A start tag that is whole is read as it is in the whole text. -/
theorem readElement_cut (h : greater ∈ cut.drop (pos + 1)) (rest : WString) :
    readElement (cut ++ rest) pos = readElement cut pos := by
  obtain ⟨c, next, tail, hdrop⟩ : ∃ c next tail, cut.drop pos = c :: next :: tail := by
    cases hdrop : cut.drop pos with
    | nil => simp [← List.drop_drop, hdrop] at h
    | cons c tail =>
      cases tail with
      | nil => simp [← List.drop_drop, hdrop] at h
      | cons next tail => exact ⟨c, next, tail, rfl⟩
  have hpos : pos < cut.length := by
    by_contra hpos
    rw [List.drop_eq_nil_of_le (by omega)] at hdrop
    cases hdrop
  obtain ⟨stop, hfind⟩ : ∃ stop, findFrom [greater] cut pos = some stop := by
    cases hfind : findFrom [greater] cut pos with
    | some stop => exact ⟨stop, rfl⟩
    | none =>
      obtain ⟨before, after, hsplit⟩ := List.append_of_mem h
      have hat : cut.drop (pos + 1 + before.length) = greater :: after :=
        drop_add_length hsplit
      refine absurd ?_ (findFrom_eq_none.mp hfind (pos + 1 + before.length) (by omega) ?_)
      · rw [hat]
        simp
      · by_contra hlen
        rw [List.drop_eq_nil_of_le (by omega)] at hat
        cases hat
  obtain ⟨hle, hstop⟩ := findFrom_lt hfind
  unfold readElement
  rw [List.drop_append_of_le_length (by omega), hdrop]
  simp only [List.cons_append]
  rw [hfind, findFrom_single_cut hfind]
  simp only
  rw [substr_cut (by omega), substr_cut (by omega), List.getElem?_append_left (by omega)]

theorem greater_mem_of_readElement {element : Element} (h : readElement cut pos = some element) :
    greater ∈ cut.drop (pos + 1) := by
  obtain ⟨tail, htail⟩ := readElement_less h
  unfold readElement at h
  split at h
  · split at h
    · cases h
    · split at h
      · cases h
      · next stop hfind =>
        obtain ⟨hle, -, hp, -⟩ := findFrom_eq_some.mp hfind
        have hlt : pos < stop := by
          refine Nat.lt_of_le_of_ne hle fun heq => ?_
          rw [← heq, htail] at hp
          exact absurd (List.cons_prefix_cons.mp hp).1 (by decide)
        have hdrop : cut.drop stop = (cut.drop (pos + 1)).drop (stop - (pos + 1)) := by
          rw [List.drop_drop, Nat.add_sub_cancel' hlt]
        rw [hdrop] at hp
        exact List.mem_of_mem_drop (hp.subset List.mem_cons_self)
  · cases h

/-- An element that the start of a text has, the text has. -/
theorem readElement_append {element : Element} (h : readElement cut pos = some element)
    (rest : WString) : readElement (cut ++ rest) pos = some element := by
  rw [readElement_cut (greater_mem_of_readElement h), h]

theorem findElement_spec {xml name : WString} {start : ℕ} {element : Element}
    (h : findElement xml name start = some element) :
    ∃ i, start ≤ i ∧ readElement xml i = some element ∧ element.name = name ∧
      ∀ j, start ≤ j → j < i → ∀ other, readElement xml j = some other → other.name ≠ name := by
  have hbefore : ∀ {start pos : ℕ}, findFrom (less :: name) xml start = some pos →
      ∀ j, start ≤ j → j < pos → ∀ other, readElement xml j = some other → other.name ≠ name := by
    rintro start pos hfind j hj hji other hother rfl
    obtain ⟨-, -, -, hfirst⟩ := findFrom_eq_some.mp hfind
    exact hfirst j hj hji (prefix_of_readElement hother)
  fun_induction findElement xml name start with
  | case1 => cases h
  | case2 start pos hfind found hfound =>
    cases h
    obtain ⟨hread, hname⟩ := Option.filter_eq_some_iff.mp hfound
    exact ⟨pos, (findFrom_lt hfind).1, hread, of_decide_eq_true hname, hbefore hfind⟩
  | case3 start pos hfind hnot ih =>
    obtain ⟨i, hi, hread, hname, hfirst⟩ := ih h
    have hpos := (findFrom_lt hfind).1
    refine ⟨i, by omega, hread, hname, fun j hj hji other hother => ?_⟩
    rcases Nat.lt_trichotomy j pos with hlt | rfl | hgt
    · exact hbefore hfind j hj hlt other hother
    · rw [hother, Option.filter_eq_none_iff] at hnot
      exact fun heq => hnot other rfl (decide_eq_true heq)
    · exact hfirst j hgt hji other hother

/-- An element found in the start of a text is the one that the text has. -/
theorem findElement_append {element : Element} (h : findElement cut name 0 = some element)
    (rest : WString) : findElement (cut ++ rest) name 0 = some element := by
  obtain ⟨i, -, hread, rfl, hfirst⟩ := findElement_spec h
  refine findElement_eq_some (readElement_append hread rest) (Nat.zero_le _) ?_
  intro j hj hji other hother
  have hgreater : greater ∈ cut.drop (j + 1) := by
    have hmem := greater_mem_of_readElement hread
    have hdrop : cut.drop (i + 1) = (cut.drop (j + 1)).drop (i - j) := by
      rw [List.drop_drop]
      congr 1
      omega
    rw [hdrop] at hmem
    exact List.mem_of_mem_drop hmem
  rw [readElement_cut hgreater] at hother
  exact hfirst j hj hji other hother

/-! ## where an element ends -/

theorem closeTag_start {xml : WString} {depth stop : ℕ}
    (h : contentEnd xml name pos depth = some stop) : closeTag name <+: xml.drop stop := by
  fun_induction contentEnd xml name pos depth with
  | case1 => cases h
  | case2 pos hpos next hfind hclose =>
    cases h
    exact substr_eq_iff.mp hclose
  | case3 pos depth hpos next hfind hclose hdepth ih => exact ih h
  | case4 pos depth hpos next hfind hclose ih => exact ih h
  | case5 => cases h

/-- An end found in the start of a text is the one that the text has. -/
theorem contentEnd_append {depth stop : ℕ} (h : contentEnd cut name pos depth = some stop)
    (rest : WString) : contentEnd (cut ++ rest) name pos depth = some stop := by
  have hend := closeTag_start h
  have hlen := hend.length_le
  rw [List.length_drop] at hlen
  have hthree : 3 ≤ (closeTag name).length := by simp [closeTag]
  fun_induction contentEnd cut name pos depth with
  | case1 => cases h
  | case2 pos hpos next hfind hclose =>
    cases h
    rw [contentEnd_eq, findFrom_single_cut hfind]
    simp only
    rw [substr_cut (by omega), if_pos hclose, if_pos trivial]
  | case3 pos depth hpos next hfind hclose hdepth ih =>
    have hge := contentEnd_ge h
    rw [contentEnd_eq, findFrom_single_cut hfind]
    simp only
    rw [substr_cut (by omega), if_pos hclose, if_neg hdepth]
    exact ih h
  | case4 pos depth hpos next hfind hclose ih =>
    have hge := contentEnd_ge h
    have hgreater : greater ∈ cut.drop (next + 1) := by
      have hmem : greater ∈ cut.drop stop := hend.subset (by simp [closeTag])
      have hdrop : cut.drop stop = (cut.drop (next + 1)).drop (stop - (next + 1)) := by
        rw [List.drop_drop]
        congr 1
        omega
      rw [hdrop] at hmem
      exact List.mem_of_mem_drop hmem
    rw [contentEnd_eq, findFrom_single_cut hfind]
    simp only
    rw [substr_cut (by omega), if_neg hclose, opensAt, readElement_cut hgreater]
    exact ih h
  | case5 => cases h

/-! ## events that break off -/

/-- How many texts, one after the other, are whole in so many characters. -/
def wholeTexts : List WString → ℕ → ℕ
  | [], _ => 0
  | text :: texts, count =>
    if text.length ≤ count then wholeTexts texts (count - text.length) + 1 else 0

namespace EventXml

variable {space : WChar → Bool}

/-- The text of `<EventData>` or `<UserData>`. -/
def sectionText : EventXml space → WString
  | eventData x => elementText (wide "EventData") x.rest.text
      (x.content.map fun c => c.1.flatMap DataItem.text ++ c.2.val)
  | userData x => elementText (wide "UserData") x.rest.text (some x.outer)

def before : EventXml space → WString
  | eventData x => x.before.val
  | userData x => x.before.val

def after : EventXml space → WString
  | eventData x => x.after
  | userData x => x.after.val

/-- The items' elements, each with the text before it. -/
def itemTexts : EventXml space → List WString
  | eventData x => (x.content.map fun c => c.1.map DataItem.text).getD []
  | userData x => (x.content.map fun c => c.1.map Field.text).getD []

/-- Where the items begin. -/
def itemsStart : EventXml space → ℕ
  | eventData x => x.before.val.length + (openTag (wide "EventData") x.rest.text).length
  | userData x => x.before.val.length + (openTag (wide "UserData") x.rest.text).length
      + x.lead.val.length + (openTag x.root.text x.rootRest.text).length

/-- Where the section ends. -/
def sectionEnd (x : EventXml space) : ℕ := x.before.length + x.sectionText.length

/-- How many items are whole in the first so many characters. -/
def completeItems (x : EventXml space) (count : ℕ) : ℕ := wholeTexts x.itemTexts (count - x.itemsStart)

/-- The first characters give the first items, all that are whole among them. -/
def ReadsBeforeBreak (x : EventXml space) (count : ℕ) : Prop :=
  parseData (x.text.take count) <+: x.items ∧
    x.items.take (x.completeItems count) <+: parseData (x.text.take count)

omit [CLibrary] in
theorem text_eq (x : EventXml space) : x.text = x.before ++ (x.sectionText ++ x.after) := by
  cases x with
  | eventData x => rfl
  | userData x => rfl

end EventXml

theorem parseData_of_findElement_eq_none (hdata : findElement cut (wide "EventData") 0 = none)
    (huser : findElement cut (wide "UserData") 0 = none) : parseData cut = [] := by
  unfold parseData
  rw [hdata, huser]

/-- No element is found in the start of text that has none. -/
theorem findElement_cut_eq_none {text : WString} (htext : NoElement iswspace name text)
    (hcut : cut.length ≤ text.length) {tail : WString} (hsplit : cut ++ rest = text ++ tail) :
    findElement cut name 0 = none := by
  apply findElement_eq_none
  intro j _ other hother
  have hj : j < cut.length := by
    by_contra hj
    obtain ⟨tail, htail⟩ := readElement_less hother
    rw [List.drop_eq_nil_of_le (by omega)] at htail
    cases htail
  exact htext.readElement_ne hsplit (by omega) (readElement_append hother rest)

/-- The end of an element that breaks off is not found. -/
theorem contentEnd_cut_eq_none {depth stop : ℕ}
    (hstop : contentEnd (cut ++ rest) name pos depth = some stop)
    (hcut : cut.length < stop + (closeTag name).length) :
    contentEnd cut name pos depth = none := by
  cases h : contentEnd cut name pos depth with
  | none => rfl
  | some stop' =>
    have hwhole := contentEnd_append h rest
    rw [hstop] at hwhole
    cases hwhole
    have hlen := (closeTag_start h).length_le
    have hpos : 0 < (closeTag name).length := by simp [closeTag]
    rw [List.length_drop] at hlen
    omega

theorem take_text (x : EventXml iswspace) {count : ℕ} (h : x.sectionEnd ≤ count) :
    x.text.take count = x.before ++ (x.sectionText ++ x.after.take (count - x.sectionEnd)) := by
  unfold EventXml.sectionEnd at h ⊢
  rw [x.text_eq, List.take_append, List.take_of_length_le (by omega), List.take_append,
    List.take_of_length_le (by omega), Nat.sub_sub]

/-- A whole section gives all the items. -/
theorem parseData_whole (x : EventXml iswspace) {count : ℕ} (h : x.sectionEnd ≤ count) :
    parseData (x.text.take count) = x.items := by
  have htake := take_text x h
  cases x with
  | eventData x =>
    rw [htake]
    exact parseData_eventData
      { x with after := x.after.take (count - (EventXml.eventData x).sectionEnd) }
  | userData x =>
    refine x.parseData_append htake ?_
    refine @findElement_cut_eq_none _ (x.text.drop count) _ _ _ x.noElement ?_ [] ?_
    · exact List.length_take_le' _ _
    · rw [List.append_nil]
      exact List.take_append_drop count x.text

/-- A section that breaks off is not found, or its end is not. -/
theorem section_cut (n : Name iswspace) (r : Rest iswspace) (content : Option WString) {xml before after : WString}
    (hxml : xml = before ++ (elementText n.text r.text content ++ after))
    (hbefore : NoElement iswspace n.text before) (hpassed : ∀ text ∈ content, Passed n.text text) {count : ℕ}
    (h : count < before.length + (elementText n.text r.text content).length) :
    findElement (xml.take count) n.text 0 = none ∨
      ∃ element, findElement (xml.take count) n.text 0 = some element ∧
        (element.empty = true ∨
          contentEnd (xml.take count) element.name element.contentStart 1 = none) := by
  have hsplit : xml.take count ++ xml.drop count = xml := List.take_append_drop _ _
  cases hfind : findElement (xml.take count) n.text 0 with
  | none => exact .inl rfl
  | some element =>
    refine .inr ⟨element, rfl, ?_⟩
    have hwhole := findElement_append hfind (xml.drop count)
    rw [hsplit, hxml, findElement_elementText n r content hbefore] at hwhole
    cases hwhole
    cases content with
    | none => exact .inl rfl
    | some content =>
      right
      have hinside := @drop_content _ xml after before.length n r content
        (by rw [hxml, List.drop_left])
      have hend := contentEnd_of_passed (hpassed content rfl) hinside
      rw [← hsplit] at hend
      refine contentEnd_cut_eq_none hend ?_
      have hlen : (xml.take count).length ≤ count := List.length_take_le _ _
      rw [elementText_eq, afterTag, List.length_append, List.length_append] at h
      simp only
      omega

theorem parseData_eventData_cut (x : EventDataXml iswspace) {count : ℕ}
    (h : count < (EventXml.eventData x).sectionEnd) : parseData (x.text.take count) = [] := by
  obtain ⟨content, hcontent⟩ : ∃ content, content = x.content.map fun c =>
    (c.1.map DataItem.child).flatMap Child.text ++ c.2.val := ⟨_, rfl⟩
  have hsection : (EventXml.eventData x).sectionText
      = elementText eventDataName.text x.rest.text content := by
    rw [hcontent]
    simp only [← flatMap_dataItem]
    rfl
  have htext : x.text = x.before.val ++ (elementText eventDataName.text x.rest.text content
      ++ x.after) := by
    rw [← hsection]
    rfl
  rw [EventXml.sectionEnd, hsection] at h
  have huser : findElement (x.text.take count) (wide "UserData") 0 = none := by
    refine @findElement_cut_eq_none _ (x.text.drop count) _ _
      (x.before.val ++ elementText eventDataName.text x.rest.text content) ?_ ?_
      x.after (by rw [List.take_append_drop, htext, List.append_assoc])
    · refine (x.before.property _ (by simp)).append
        (noElement_elementText eventDataName x.rest content
          (show wide "EventData" ≠ wide "UserData" from by decide) (by decide) ?_)
      intro text hm
      rw [hcontent] at hm
      obtain ⟨c, -, rfl⟩ := Option.map_eq_some_iff.mp hm
      refine (noElement_children ?_ (by decide)).append (NoElement.of_notMem c.2.property)
      intro child hchild
      obtain ⟨d, -, rfl⟩ := List.mem_map.mp hchild
      exact show wide "Data" ≠ wide "UserData" from by decide
    · rw [List.length_append]
      exact (List.length_take_le _ _).trans h.le
  have hpassed : ∀ text ∈ content, Passed eventDataName.text text := by
    intro text hm
    rw [hcontent] at hm
    obtain ⟨c, -, rfl⟩ := Option.map_eq_some_iff.mp hm
    exact passed_children eventDataName _ c.2
  have hcut := section_cut eventDataName x.rest content htext
    (x.before.property _ List.mem_cons_self) hpassed h
  obtain hnone | ⟨element, hfound, hend⟩ := hcut
  · exact parseData_of_findElement_eq_none hnone huser
  · unfold parseData
    rw [show wide "EventData" = eventDataName.text from rfl, hfound]
    simp only
    split
    · rfl
    · next hempty =>
      rw [hend.resolve_left hempty]

theorem parseData_userData_cut (x : UserDataXml iswspace) {count : ℕ}
    (h : count < (EventXml.userData x).sectionEnd) : parseData (x.text.take count) = [] := by
  have hdata : findElement (x.text.take count) (wide "EventData") 0 = none := by
    refine @findElement_cut_eq_none _ (x.text.drop count) _ _ _ x.noElement ?_ [] ?_
    · exact List.length_take_le' _ _
    · rw [List.append_nil]
      exact List.take_append_drop count x.text
  have hcut := @section_cut _ userDataName x.rest (some x.outer) x.text _ _ rfl
    (x.before.property _ (by simp [userDataName, asciiName]))
    (by rintro text ⟨⟩; exact x.outer_passed userDataName) _ h
  obtain hnone | ⟨element, hfound, hend⟩ := hcut
  · exact parseData_of_findElement_eq_none hdata hnone
  · unfold parseData
    rw [hdata, show wide "UserData" = userDataName.text from rfl, hfound]
    simp only
    split
    · rfl
    · next hempty =>
      rw [hend.resolve_left hempty]

/-- A section that breaks off gives nothing. -/
theorem parseData_cut (x : EventXml iswspace) {count : ℕ} (h : count < x.sectionEnd) :
    parseData (x.text.take count) = [] := by
  cases x with
  | eventData x => exact parseData_eventData_cut x h
  | userData x => exact parseData_userData_cut x h

omit [CLibrary] in
theorem wholeTexts_le (texts : List WString) (count : ℕ) :
    wholeTexts texts count ≤ texts.length := by
  induction texts generalizing count with
  | nil => exact Nat.zero_le _
  | cons text texts ih =>
    rw [wholeTexts]
    split
    · exact Nat.succ_le_succ (ih _)
    · exact Nat.zero_le _

theorem EventXml.length_itemTexts (x : EventXml iswspace) : x.itemTexts.length = x.items.length := by
  cases x with
  | eventData x =>
    simp only [itemTexts, items, EventDataXml.items]
    cases x.content with
    | none => rfl
    | some c => simp
  | userData x =>
    simp only [itemTexts, items, UserDataXml.items]
    cases x.content with
    | none => rfl
    | some c => simp

end Cut

/-! Nothing before a section, in a tag and between elements. -/

theorem noSection_nil (space : WChar → Bool) :
    ∀ name ∈ [wide "EventData", wide "UserData"], NoElement space name [] := by
  intro name _ before after h
  cases before <;> cases h

theorem separated_nil (space : WChar → Bool) : ∀ c ∈ ([] : WString).head?, space c = true :=
  fun _ h => (Option.not_mem_none _ h).elim

theorem plain_nil : ∀ c ∈ ([] : WString), c ≠ less ∧ c ≠ greater :=
  fun _ h => (List.not_mem_nil h).elim

theorem notSlash_nil : ([] : WString).getLast? ≠ some slash := (Option.some_ne_none _).symm

theorem blank_nil : ∀ c ∈ ([] : WString), isXmlSpace c = true :=
  fun _ h => (List.not_mem_nil h).elim

/-- One item, whole in a text that breaks off in the end tag of its section. -/
def brokenEvent (space : WChar → Bool) : EventXml space :=
  .eventData
    { before := ⟨[], noSection_nil space⟩
      rest := ⟨[], separated_nil space, plain_nil, notSlash_nil⟩
      content := some
        ([{ gap := ⟨[], List.not_mem_nil⟩, name := none, trail := ⟨[], blank_nil⟩
            content := none }], ⟨[], List.not_mem_nil⟩)
      after := [] }

end WinSys.EventLog
