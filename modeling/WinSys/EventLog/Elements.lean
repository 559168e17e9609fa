import WinSys.EventLog.Tags
import WinSys.EventLog.Characters

/-!
# Elements read

A rendered element: its start tag, where its content ends, and what it is as a child of another.
-/

namespace WinSys.EventLog

open Infra CLibrary

variable [CLibrary] {xml rest : WString} {pos : ℕ}

/-! ## names -/

namespace Name

variable (n : Name iswspace)

theorem greater_notMem : greater ∉ n.text := fun h => absurd (n.named _ h).1 (by simp)

theorem slash_notMem : slash ∉ n.text := fun h => absurd (n.named _ h).1 (by simp)

theorem less_notMem : less ∉ n.text := fun h => (n.named _ h).2 rfl

theorem ne_slash_cons (text text' : WString) : n.text ++ text ≠ slash :: text' := by
  intro h
  obtain ⟨c, name, hname⟩ := List.exists_cons_of_ne_nil n.nonempty
  rw [hname, List.cons_append] at h
  exact n.slash_notMem (by rw [hname, (List.cons.inj h).1]; exact List.mem_cons_self)

/-- What a name starts with, a start tag starts with. -/
theorem starts_append (text : WString) :
    ∀ c ∈ (n.text ++ text).head?, c ≠ slash ∧ c ≠ 0x3F ∧ c ≠ 0x21 := by
  obtain ⟨c, name, hname⟩ := List.exists_cons_of_ne_nil n.nonempty
  rw [hname, List.cons_append, List.head?_cons]
  intro c' hc'
  cases hc'
  refine ⟨?_, n.starts c (by rw [hname]; rfl)⟩
  rintro rfl
  exact n.slash_notMem (by rw [hname]; exact List.mem_cons_self)

theorem tagName_eq {text : WString} (h : ∀ c ∈ text.head?, endsName iswspace c = true) :
    tagName iswspace (n.text ++ text) = n.text := by
  rw [tagName_append fun c hc => (n.named c hc).1]
  cases text with
  | nil => exact List.append_nil _
  | cons c text => rw [tagName_of_ends (h c rfl), List.append_nil]

end Name

/-! ## start tags -/

/-- An element's start tag. -/
def startTag (name rest : WString) : Option WString → WString
  | none => emptyTag name rest
  | some _ => openTag name rest

/-- What stands between `<` and `>`. -/
def tagBody (name rest : WString) : Option WString → WString
  | none => name ++ (rest ++ [slash])
  | some _ => name ++ rest

/-- What follows the start tag in an element. -/
def afterTag (name : WString) : Option WString → WString
  | none => []
  | some content => content ++ closeTag name

section Element

variable (n : Name iswspace) (r : Rest iswspace) (content : Option WString)

theorem startTag_eq : startTag n.text r.text content
    = less :: (tagBody n.text r.text content ++ [greater]) := by
  cases content with
  | none => simp [startTag, tagBody, emptyTag]
  | some content => rfl

theorem elementText_eq : elementText n.text r.text content
    = startTag n.text r.text content ++ afterTag n.text content := by
  cases content with
  | none => simp [elementText, startTag, afterTag]
  | some content => rfl

theorem Rest.endsName_head : ∀ c ∈ r.text.head?, endsName iswspace c = true := by
  intro c hc
  rw [endsName, r.separated c hc]
  rfl

theorem tagName_tagBody : tagName iswspace (tagBody n.text r.text content) = n.text := by
  cases content with
  | some content => exact n.tagName_eq r.endsName_head
  | none =>
    apply n.tagName_eq
    have hrest := r.endsName_head
    cases hr : r.text with
    | nil =>
      intro c hc
      cases hc
      exact endsName_slash
    | cons c rest =>
      rw [hr] at hrest
      exact hrest

theorem notMem_tagBody {c : WChar} (hname : c ∉ n.text) (hrest : c ∉ r.text) (hslash : c ≠ slash) :
    c ∉ tagBody n.text r.text content := by
  cases content with
  | none =>
    rw [tagBody, List.mem_append, List.mem_append, List.mem_singleton, not_or, not_or]
    exact ⟨hname, hrest, hslash⟩
  | some content =>
    rw [tagBody, List.mem_append, not_or]
    exact ⟨hname, hrest⟩

theorem less_notMem_tagBody : less ∉ tagBody n.text r.text content :=
  notMem_tagBody n r content n.less_notMem (fun h => (r.plain _ h).1 rfl) (by decide)

theorem greater_notMem_tagBody : greater ∉ tagBody n.text r.text content :=
  notMem_tagBody n r content n.greater_notMem (fun h => (r.plain _ h).2 rfl) (by decide)

theorem tagBody_ne (name : WString) : tagBody n.text r.text content ≠ slash :: name := by
  cases content with
  | none => exact n.ne_slash_cons _ _
  | some content => exact n.ne_slash_cons _ _

/-- Only the tag of an element without content ends with a slash. -/
theorem getLast?_tagBody :
    (decide ((tagBody n.text r.text content).getLast? = some slash)) = content.isNone := by
  cases content with
  | none => simp [tagBody]
  | some content =>
    rw [Option.isNone_some, decide_eq_false_iff_not, tagBody, List.getLast?_append]
    cases hlast : r.text.getLast? with
    | some c =>
      rw [Option.some_or]
      intro h
      exact r.notSlash (hlast.trans h)
    | none =>
      rw [Option.none_or]
      intro h
      exact n.slash_notMem (List.mem_of_getLast? h)

/-- An element is read as what it was written as. -/
theorem readElement_elementText
    (h : xml.drop pos = elementText n.text r.text content ++ rest) :
    readElement xml pos = some
      { name := n.text
        tag := startTag n.text r.text content
        contentStart := pos + (startTag n.text r.text content).length
        empty := content.isNone } := by
  rw [elementText_eq, startTag_eq] at h
  have hbody : tagBody n.text r.text content ≠ [] := by
    intro hnil
    cases content with
    | none => simp [tagBody] at hnil
    | some content => exact n.nonempty (List.append_eq_nil_iff.mp hnil).1
  have hstart : ∀ c ∈ (tagBody n.text r.text content).head?, c ≠ slash ∧ c ≠ 0x3F ∧ c ≠ 0x21 := by
    cases content with
    | none => exact n.starts_append _
    | some content => exact n.starts_append _
  rw [@readElement_at _ _ (afterTag n.text content ++ rest) _ _ (by simpa using h)
    (greater_notMem_tagBody n r content) hbody hstart, tagName_tagBody, getLast?_tagBody,
    startTag_eq]
  simp only [List.length_cons, List.length_append, List.length_nil]
  rfl

end Element

/-! ## where elements end -/

theorem readElement_closeTag {text : WString} (h : xml.drop pos = less :: slash :: text) :
    readElement xml pos = none := by
  rw [readElement, h]
  simp

/-- Text that leaves the number of open elements of a name as it is. -/
def Passed (name text : WString) : Prop :=
  ∀ (xml rest : WString) (pos depth : ℕ), xml.drop pos = text ++ rest → 0 < depth →
    contentEnd xml name pos depth = contentEnd xml name (pos + text.length) depth

namespace Passed

variable {name text text' : WString}

theorem of_notMem (h : less ∉ text) : Passed name text :=
  fun _ _ _ _ hdrop _ => contentEnd_plain hdrop h

theorem append (h : Passed name text) (h' : Passed name text') : Passed name (text ++ text') := by
  intro xml rest pos depth hdrop hdepth
  rw [List.append_assoc] at hdrop
  rw [h xml _ pos depth hdrop hdepth, h' xml _ _ depth (drop_add_length hdrop) hdepth,
    List.length_append, Nat.add_assoc]

end Passed

/-- The end of an element is where its content ends. -/
theorem contentEnd_of_passed {name content : WString} (hcontent : Passed name content)
    (h : xml.drop pos = content ++ (closeTag name ++ rest)) :
    contentEnd xml name pos 1 = some (pos + content.length) := by
  rw [hcontent xml _ pos 1 h Nat.one_pos, contentEnd_close (drop_add_length h), if_pos rfl]

/-- An element is passed, also in one of its name. -/
theorem passed_elementText (m n : Name iswspace) (r : Rest iswspace) (content : Option WString)
    (hcontent : ∀ text ∈ content, Passed m.text text) :
    Passed m.text (elementText n.text r.text content) := by
  intro xml rest pos depth h hdepth
  have hread := readElement_elementText n r content h
  have htag : xml.drop pos
      = less :: (tagBody n.text r.text content ++ greater :: (afterTag n.text content ++ rest)) := by
    rw [h, elementText_eq, startTag_eq]
    simp
  have hlen : (startTag n.text r.text content).length
      = (tagBody n.text r.text content).length + 2 := by
    rw [startTag_eq, List.length_cons, List.length_append, List.length_singleton]
  rw [contentEnd_tag htag (less_notMem_tagBody n r content) (greater_notMem_tagBody n r content)
    m.greater_notMem (tagBody_ne n r content _), Nat.add_assoc, ← hlen]
  have hafter : xml.drop (pos + (startTag n.text r.text content).length)
      = afterTag n.text content ++ rest := by
    apply drop_add_length
    rw [h, elementText_eq, List.append_assoc]
  rw [elementText_eq, List.length_append, ← Nat.add_assoc]
  cases content with
  | none =>
    have hopens : opensAt xml m.text pos = false := by
      rw [opensAt, hread]
      simp
    rw [hopens]
    rfl
  | some content =>
    have hopens : opensAt xml m.text pos = decide (n.text = m.text) := by
      rw [opensAt, hread]
      simp
    rw [hopens]
    generalize pos + (startTag n.text r.text (some content)).length = inner at hafter ⊢
    rw [afterTag, List.append_assoc] at hafter
    have hclose := drop_add_length hafter
    have hpass := fun d hd => hcontent content rfl xml _ inner d hafter hd
    rw [afterTag, List.length_append, ← Nat.add_assoc]
    by_cases hname : n.text = m.text
    · -- its start tag counts, and so does its end tag
      rw [if_pos (decide_eq_true hname), hpass _ (Nat.succ_pos _)]
      rw [hname] at hclose ⊢
      rw [contentEnd_close hclose, if_neg (by omega)]
      rfl
    · rw [if_neg (by simp [hname]), hpass _ hdepth]
      have hend : xml.drop (inner + content.length) = less :: (slash :: n.text ++ greater :: rest) := by
        rw [hclose, closeTag]
        simp
      have hread' := readElement_closeTag hend
      have hslash : slash :: n.text ≠ slash :: m.text := fun h => hname (List.cons.inj h).2
      have hless : less ∉ slash :: n.text := by
        rw [List.mem_cons, not_or]
        exact ⟨by decide, n.less_notMem⟩
      have hgreater : greater ∉ slash :: n.text := by
        rw [List.mem_cons, not_or]
        exact ⟨by decide, n.greater_notMem⟩
      rw [contentEnd_tag hend hless hgreater m.greater_notMem hslash, opensAt, hread']
      have hclen : (closeTag n.text).length = (slash :: n.text).length + 2 := by
        simp [closeTag]
      rw [hclen]
      rfl

/-! ## finding an element -/

/-- An element of another name, with none of a name in it. -/
theorem noElement_elementText {name : WString} (n : Name iswspace) (r : Rest iswspace) (content : Option WString)
    (hne : n.text ≠ name) (hnil : name ≠ []) (hcontent : ∀ text ∈ content, NoElement iswspace name text) :
    NoElement iswspace name (elementText n.text r.text content) := by
  have htag : NoElement iswspace name (startTag n.text r.text content) := by
    rw [startTag_eq]
    exact NoElement.tag (less_notMem_tagBody n r content) (by rwa [tagName_tagBody])
  rw [elementText_eq]
  refine htag.append ?_
  cases content with
  | none => exact NoElement.of_notMem List.not_mem_nil
  | some content =>
    refine (hcontent content rfl).append (@NoElement.tag _ _ (slash :: n.text) ?_ ?_)
    · rw [List.mem_cons, not_or]
      exact ⟨by decide, n.less_notMem⟩
    · rw [tagName_of_ends endsName_slash]
      exact hnil.symm

/-- An element is found after text without one of its name. -/
theorem findElement_elementText (n : Name iswspace) (r : Rest iswspace) (content : Option WString)
    {before : WString} (hbefore : NoElement iswspace n.text before) (after : WString) :
    findElement (before ++ (elementText n.text r.text content ++ after)) n.text 0 = some
      { name := n.text
        tag := startTag n.text r.text content
        contentStart := before.length + (startTag n.text r.text content).length
        empty := content.isNone } :=
  findElement_eq_some (readElement_elementText n r content List.drop_left) (Nat.zero_le _)
    fun _ _ hj _ hother => hbefore.readElement_ne rfl hj hother

/-- Where an element's start tag ends, its content starts. -/
theorem drop_content (n : Name iswspace) (r : Rest iswspace) (content : WString)
    (h : xml.drop pos = elementText n.text r.text (some content) ++ rest) :
    xml.drop (pos + (startTag n.text r.text (some content)).length)
      = content ++ (closeTag n.text ++ rest) := by
  apply drop_add_length
  rw [h, elementText_eq, afterTag, List.append_assoc, List.append_assoc]

theorem findElement_noElement {name text : WString} (h : NoElement iswspace name text) :
    findElement text name 0 = none := by
  apply findElement_eq_none
  intro j _ other hother
  obtain ⟨tail, htail⟩ := readElement_less hother
  have hj : j < text.length := by
    by_contra hj
    rw [List.drop_eq_nil_of_le (by omega)] at htail
    cases htail
  exact h.readElement_ne (List.append_nil text).symm hj hother

/-! ## the children of an element -/

theorem forEachChild_eq (xml : WString) (start stop : ℕ) :
    forEachChild xml start stop =
      match findFrom [less] xml start with
      | none => []
      | some pos =>
        if stop ≤ pos then []
        else
          match readElement xml pos with
          | none => forEachChild xml (pos + 1) stop
          | some child =>
            if child.empty then (child, []) :: forEachChild xml child.contentStart stop
            else
              match contentEnd xml child.name child.contentStart 1 with
              | none => []
              | some childEnd =>
                if stop < childEnd then []
                else
                  (child, decodeText (substr xml child.contentStart (childEnd - child.contentStart)))
                    :: forEachChild xml (childEnd + child.name.length + 3) stop := by
  rw [forEachChild]
  split
  · next h => rw [h]
  · next pos h =>
    rw [h]
    simp only
    split
    · rfl
    · split
      · next h => rw [h]
      · next child h =>
        rw [h]
        simp only
        split
        · rfl
        · split
          · next h => rw [h]
          · next h => rw [h]

/-- Past the last child. -/
theorem forEachChild_nil {gap : WString} (h : xml.drop pos = gap ++ less :: rest)
    (hgap : less ∉ gap) : forEachChild xml pos (pos + gap.length) = [] := by
  have hfind : findFrom [less] xml pos = some (pos + gap.length) := by
    rw [findFrom_drop, h, find_single hgap, Option.map_some, Nat.add_comm]
  rw [forEachChild_eq, hfind]
  simp only
  rw [if_pos (Nat.le_refl _)]

/-- A child with what it has between its tags. -/
theorem forEachChild_cons (n : Name iswspace) (r : Rest iswspace) (content : Option WString) {gap : WString}
    {stop : ℕ} (h : xml.drop pos = gap ++ (elementText n.text r.text content ++ rest))
    (hgap : less ∉ gap) (hcontent : ∀ text ∈ content, less ∉ text)
    (hstop : pos + gap.length + (elementText n.text r.text content).length ≤ stop) :
    ∃ child : Element, child.name = n.text ∧ child.tag = startTag n.text r.text content ∧
      forEachChild xml pos stop = (child, decodeText (content.getD [])) ::
        forEachChild xml (pos + gap.length + (elementText n.text r.text content).length) stop := by
  have hdrop := drop_add_length h
  have hread := readElement_elementText n r content hdrop
  have hfind : findFrom [less] xml pos = some (pos + gap.length) := by
    rw [findFrom_drop, h, elementText_eq, startTag_eq, List.cons_append, List.cons_append,
      find_single hgap, Option.map_some, Nat.add_comm]
  have hpos : ¬ stop ≤ pos + gap.length := by
    rw [elementText_eq, startTag_eq, List.length_append, List.length_cons] at hstop
    omega
  refine ⟨⟨n.text, startTag n.text r.text content,
    pos + gap.length + (startTag n.text r.text content).length, content.isNone⟩, rfl, rfl, ?_⟩
  rw [forEachChild_eq, hfind]
  simp only
  rw [if_neg hpos, hread]
  simp only
  rw [elementText_eq, List.length_append, ← Nat.add_assoc] at hstop ⊢
  generalize hinner : pos + gap.length + (startTag n.text r.text content).length = inner at hstop ⊢
  cases content with
  | none =>
    rw [if_pos (by simp), Option.getD_none, decodeText]
    rfl
  | some content =>
    have hafter : xml.drop inner = content ++ (closeTag n.text ++ rest) := by
      rw [← hinner]
      exact drop_content n r content hdrop
    have hclose : (closeTag n.text).length = n.text.length + 3 := by
      simp [closeTag]
    rw [if_neg (by simp), contentEnd_of_passed (Passed.of_notMem (hcontent content rfl)) hafter]
    simp only
    rw [afterTag, List.length_append, hclose] at hstop ⊢
    rw [if_neg (by omega), Nat.add_sub_cancel_left, substr, hafter, List.take_left,
      Option.getD_some, Nat.add_assoc, Nat.add_assoc]

end WinSys.EventLog
