import WinSys.EventLog.Markup
import Mathlib.Data.List.TakeWhile

/-!
# Tags read

What the searches find in rendered text: the start tags, where an element ends, and the children of
one.
-/

namespace WinSys.EventLog

open Infra CLibrary

variable {space : WChar → Bool} {xml name body rest : WString} {pos : ℕ}

/-! ## searching from a position -/

/-- A search from a position depends on what is there. -/
theorem findFrom_drop (c : WChar) (pat xml : WString) (pos : ℕ) :
    findFrom (c :: pat) xml pos = (find (c :: pat) (xml.drop pos)).map (· + pos) := by
  unfold findFrom
  split
  · next h =>
    rw [List.drop_eq_nil_of_le (by omega), find, if_neg (by simp)]
    rfl
  · rfl

theorem find_single {c : WChar} {text : WString} (h : c ∉ text) (rest : WString) :
    find [c] (text ++ c :: rest) = some text.length :=
  find_append_self h rest

theorem drop_add_length {text : WString} (h : xml.drop pos = text ++ rest) :
    xml.drop (pos + text.length) = rest := by
  rw [← List.drop_drop, h, List.drop_left]

/-! ## start tags -/

@[simp] theorem endsName_slash : endsName space slash = true := by simp [endsName]

@[simp] theorem endsName_greater : endsName space greater = true := by simp [endsName]

theorem tagName_append {text : WString} (h : ∀ c ∈ text, endsName space c = false)
    (tail : WString) : tagName space (text ++ tail) = text ++ tagName space tail := by
  unfold tagName
  rw [List.takeWhile_append_of_pos]
  intro c hc
  rw [h c hc]
  rfl

theorem tagName_of_ends {c : WChar} (h : endsName space c = true) (tail : WString) :
    tagName space (c :: tail) = [] := by
  rw [tagName, List.takeWhile_cons, h]
  rfl

theorem tagName_greater (text rest : WString) :
    tagName space (text ++ greater :: rest) = tagName space text := by
  induction text with
  | nil => exact tagName_of_ends endsName_greater rest
  | cons c text ih =>
    unfold tagName at ih ⊢
    rw [List.cons_append, List.takeWhile_cons, List.takeWhile_cons, ih]

/-- The name of a tag is in the tag. -/
theorem tagName_of_greater (h : greater ∈ body) (rest : WString) :
    tagName space (body ++ rest) = tagName space body := by
  obtain ⟨text, after, rfl⟩ := List.append_of_mem h
  rw [List.append_assoc, List.cons_append, tagName_greater, tagName_greater]

variable [CLibrary]

/-- The start tag at a position. -/
theorem readElement_at (h : xml.drop pos = less :: (body ++ greater :: rest))
    (hbody : greater ∉ body) (hne : body ≠ [])
    (hstart : ∀ c ∈ body.head?, c ≠ slash ∧ c ≠ 0x3F ∧ c ≠ 0x21) :
    readElement xml pos = some
      { name := tagName iswspace body
        tag := less :: (body ++ [greater])
        contentStart := pos + body.length + 2
        empty := body.getLast? = some slash } := by
  cases body with
  | nil => exact absurd rfl hne
  | cons next body =>
    obtain ⟨hslash, hquestion, hmark⟩ := hstart next rfl
    have hfind : findFrom [greater] xml pos = some (pos + body.length + 2) := by
      have hnot : greater ∉ less :: next :: body := by
        rw [List.mem_cons, not_or]
        exact ⟨by decide, hbody⟩
      rw [findFrom_drop, h, ← List.cons_append, find_single hnot]
      simp only [Option.map_some, List.length_cons]
      congr 1
      omega
    have hinside : xml.drop (pos + 1) = next :: body ++ greater :: rest := by
      rw [← List.drop_drop, h]
      rfl
    have hlast : xml[pos + body.length + 1]? = (next :: body).getLast? := by
      rw [List.getLast?_eq_getElem?, List.length_cons, Nat.add_sub_cancel, Nat.add_right_comm,
        ← List.getElem?_drop, hinside, List.getElem?_append_left (by simp)]
    unfold readElement
    rw [h]
    simp only [List.cons_append]
    rw [if_neg (by simp [hslash, hquestion, hmark]), hfind]
    simp only [Option.some.injEq, Element.mk.injEq]
    refine ⟨?_, ?_, ?_, ?_⟩
    · have hlen : pos + body.length + 2 - pos - 1 = (next :: body).length := by
        rw [List.length_cons]
        omega
      rw [substr, hinside, hlen, List.take_left]
      rfl
    · have hlen : pos + body.length + 2 - pos + 1 = (less :: next :: (body ++ [greater])).length := by
        simp only [List.length_cons, List.length_append, List.length_nil]
        omega
      have hsplit : less :: (next :: body ++ greater :: rest)
          = less :: next :: (body ++ [greater]) ++ rest := by simp
      rw [substr, h, hlen, hsplit, List.take_left]
    · simp only [List.length_cons]
      omega
    · rw [show pos + body.length + 2 - 1 = pos + body.length + 1 from by omega, hlast]

/-- An element's name is what follows its `<`. -/
theorem readElement_name {element : Element} (h : readElement xml pos = some element) :
    element.name = tagName iswspace (xml.drop (pos + 1)) := by
  unfold readElement at h
  split at h
  · next c next tail hdrop =>
    split at h
    · cases h
    · next hc =>
      split at h
      · cases h
      · next stop hfind =>
        cases h
        obtain ⟨hle, -, hp, -⟩ := findFrom_eq_some.mp hfind
        have hlt : pos < stop := by
          refine Nat.lt_of_le_of_ne hle fun heq => ?_
          rw [← heq, hdrop] at hp
          have hgreater := (List.cons_prefix_cons.mp hp).1
          simp only [not_or, not_not, ← hgreater] at hc
          exact absurd hc.1 (by decide)
        obtain ⟨after, hafter⟩ := hp
        have hinside : xml.drop (pos + 1)
            = substr xml (pos + 1) (stop - pos - 1) ++ greater :: after := by
          rw [← List.singleton_append, hafter, substr]
          conv_lhs => rw [← List.take_append_drop (stop - pos - 1) (xml.drop (pos + 1))]
          rw [List.drop_drop, show pos + 1 + (stop - pos - 1) = stop from by omega]
        rw [hinside, tagName_greater]
        rfl
  · cases h

theorem readElement_less {element : Element} (h : readElement xml pos = some element) :
    ∃ tail, xml.drop pos = less :: tail := by
  unfold readElement at h
  split at h
  · next c next tail hdrop =>
    split at h
    · cases h
    · next hc =>
      simp only [not_or, not_not] at hc
      rw [hc.1] at hdrop
      exact ⟨_, hdrop⟩
  · cases h

/-! ## text without an element -/

namespace NoElement

variable {text : WString}

omit [CLibrary] in
theorem of_notMem (h : less ∉ text) : NoElement space name text := by
  rintro pre post rfl
  exact absurd (by simp) h

omit [CLibrary] in
theorem append {text' : WString} (h : NoElement space name text)
    (h' : NoElement space name text') : NoElement space name (text ++ text') := by
  intro pre post heq
  obtain ⟨mid, rfl, hmid⟩ | ⟨mid, hmid, hpost⟩ := List.append_eq_append_iff.mp heq
  · exact h' mid post hmid
  · cases mid with
    | nil => exact h' [] post hpost.symm
    | cons c mid =>
      rw [List.cons_append] at hpost
      obtain ⟨rfl, rfl⟩ := List.cons.inj hpost
      obtain ⟨hgreater, hname⟩ := h pre mid hmid
      refine ⟨List.mem_append_left _ hgreater, ?_⟩
      rwa [tagName_of_greater hgreater]

omit [CLibrary] in
/-- A tag of another name. -/
theorem tag (hbody : less ∉ body) (hname : tagName space body ≠ name) :
    NoElement space name (less :: (body ++ [greater])) := by
  intro pre post heq
  cases pre with
  | nil =>
    obtain ⟨-, rfl⟩ := List.cons.inj heq
    refine ⟨by simp, ?_⟩
    rwa [tagName_greater]
  | cons c pre =>
    obtain ⟨-, hbody'⟩ := List.cons.inj heq
    have hmem : less ∈ body ++ [greater] := by
      rw [hbody']
      simp
    rw [List.mem_append, List.mem_singleton] at hmem
    exact hmem.elim (fun h => absurd h hbody) (fun h => absurd h (by decide))

/-- Text has no element that it is said to have none of. -/
theorem readElement_ne (h : NoElement iswspace name text) (htext : xml = text ++ rest)
    (hpos : pos < text.length) {element : Element} (hread : readElement xml pos = some element) :
    element.name ≠ name := by
  obtain ⟨tail, htail⟩ := readElement_less hread
  rw [htext, List.drop_append_of_le_length (by omega)] at htail
  obtain ⟨post, hpost⟩ : ∃ post, text.drop pos = less :: post := by
    cases hdrop : text.drop pos with
    | nil =>
      rw [List.drop_eq_nil_iff] at hdrop
      omega
    | cons c post =>
      rw [hdrop, List.cons_append] at htail
      exact ⟨post, by rw [(List.cons.inj htail).1]⟩
  have hsplit : text = text.take pos ++ less :: post := by
    rw [← hpost, List.take_append_drop]
  obtain ⟨hgreater, hname⟩ := h _ _ hsplit
  have hinside : xml.drop (pos + 1) = post ++ rest := by
    rw [htext, ← List.drop_drop, List.drop_append_of_le_length (by omega), hpost]
    rfl
  rw [readElement_name hread, hinside, tagName_of_greater hgreater]
  exact hname

end NoElement

/-! ## finding an element -/

theorem prefix_of_readElement {element : Element} (h : readElement xml pos = some element) :
    less :: element.name <+: xml.drop pos := by
  obtain ⟨tail, htail⟩ := readElement_less h
  have hinside : xml.drop (pos + 1) = tail := by
    rw [← List.drop_drop, htail]
    rfl
  rw [readElement_name h, htail, hinside, List.cons_prefix_cons]
  exact ⟨rfl, List.takeWhile_prefix _⟩

/-- The first element of a name is found. -/
theorem findElement_eq_some {i start : ℕ} {element : Element}
    (h : readElement xml i = some element) (hle : start ≤ i)
    (hfirst : ∀ j, start ≤ j → j < i → ∀ other, readElement xml j = some other →
      other.name ≠ element.name) :
    findElement xml element.name start = some element := by
  obtain ⟨name, hname⟩ : ∃ name, name = element.name := ⟨_, rfl⟩
  rw [← hname] at hfirst ⊢
  have hplace : less :: name <+: xml.drop i := hname ▸ prefix_of_readElement h
  have hi : i ≤ xml.length := by
    have hlen := hplace.length_le
    rw [List.length_drop, List.length_cons] at hlen
    omega
  fun_induction findElement xml name start with
  | case1 start hfind => exact absurd hplace (findFrom_eq_none.mp hfind i hle hi)
  | case2 start pos hfind other hother =>
    obtain ⟨hread, hother⟩ := Option.filter_eq_some_iff.mp hother
    obtain ⟨hpos, -, -, hmin⟩ := findFrom_eq_some.mp hfind
    rcases Nat.lt_trichotomy pos i with hlt | rfl | hgt
    · exact absurd (of_decide_eq_true hother) (hfirst pos hpos hlt other hread)
    · rw [← hread, h]
    · exact absurd hplace (hmin i hle hgt)
  | case3 start pos hfind hother ih =>
    obtain ⟨hpos, -, -, hmin⟩ := findFrom_eq_some.mp hfind
    rcases Nat.lt_trichotomy pos i with hlt | rfl | hgt
    · exact ih hlt fun j hj => hfirst j (by omega)
    · rw [h, Option.filter_eq_none_iff] at hother
      exact absurd (decide_eq_true hname.symm) (hother element rfl)
    · exact absurd hplace (hmin i hle hgt)

theorem findElement_eq_none {start : ℕ}
    (h : ∀ j, start ≤ j → ∀ other, readElement xml j = some other → other.name ≠ name) :
    findElement xml name start = none := by
  fun_induction findElement xml name start with
  | case1 => rfl
  | case2 start pos hfind other hother =>
    obtain ⟨hread, hother⟩ := Option.filter_eq_some_iff.mp hother
    exact absurd (of_decide_eq_true hother) (h pos (findFrom_lt hfind).1 other hread)
  | case3 start pos hfind hother ih =>
    have := findFrom_lt hfind
    exact ih fun j hj => h j (by omega)

/-! ## where an element ends -/

theorem contentEnd_eq (xml name : WString) (pos depth : ℕ) :
    contentEnd xml name pos depth =
      match findFrom [less] xml pos with
      | none => none
      | some next =>
        if substr xml next (closeTag name).length = closeTag name then
          if depth = 1 then some next
          else contentEnd xml name (next + (closeTag name).length) (depth - 1)
        else
          contentEnd xml name (next + 1) (if opensAt xml name next then depth + 1 else depth) := by
  rw [contentEnd]
  split
  · split
    · next h => rw [h]
    · next h => rw [h]
  · next hpos =>
    have hfind : findFrom [less] xml pos = none := by
      cases h : findFrom [less] xml pos with
      | none => rfl
      | some next =>
        have := findFrom_lt h
        omega
    rw [hfind]

section Depth

variable {depth : ℕ}

/-- Text without a tag is passed. -/
theorem contentEnd_plain {text : WString} (h : xml.drop pos = text ++ rest) (htext : less ∉ text) :
    contentEnd xml name pos depth = contentEnd xml name (pos + text.length) depth := by
  have hfind : findFrom [less] xml pos = findFrom [less] xml (pos + text.length) := by
    rw [findFrom_drop, findFrom_drop, drop_add_length h, h, find_append_of_notMem htext,
      Option.map_map]
    congr 1
    funext i
    simp only [Function.comp_apply]
    omega
  rw [contentEnd_eq, contentEnd_eq, hfind]

omit [CLibrary] in
theorem findFrom_less {tail : WString} (h : xml.drop pos = less :: tail) :
    findFrom [less] xml pos = some pos := by
  rw [findFrom_drop, h, find_of_prefix (by simp)]
  simp

omit [CLibrary] in
theorem substr_eq_iff {text : WString} :
    substr xml pos text.length = text ↔ text <+: xml.drop pos := by
  rw [substr, List.prefix_iff_eq_take, eq_comm]

theorem contentEnd_close (h : xml.drop pos = closeTag name ++ rest) :
    contentEnd xml name pos depth =
      if depth = 1 then some pos
      else contentEnd xml name (pos + (closeTag name).length) (depth - 1) := by
  rw [contentEnd_eq, findFrom_less h]
  simp only
  rw [if_pos (substr_eq_iff.mpr (h ▸ List.prefix_append _ _))]

/-- Another tag is passed, one level deeper when it opens an element of the name. -/
theorem contentEnd_tag (h : xml.drop pos = less :: (body ++ greater :: rest)) (hless : less ∉ body)
    (hbody : greater ∉ body) (hname : greater ∉ name) (hne : body ≠ slash :: name) :
    contentEnd xml name pos depth =
      contentEnd xml name (pos + body.length + 2)
        (if opensAt xml name pos then depth + 1 else depth) := by
  have hclose : ¬ closeTag name <+: xml.drop pos := by
    rw [h, closeTag, List.cons_append, List.cons_prefix_cons]
    rintro ⟨-, after, hafter⟩
    have htake : ∀ {text : WString} (tail : WString), greater ∉ text →
        (text ++ greater :: tail).takeWhile (· ≠ greater) = text := by
      intro text tail htext
      rw [List.takeWhile_append_of_pos]
      · simp
      · intro c hc
        exact decide_eq_true fun heq => htext (heq ▸ hc)
    have heq := congrArg (List.takeWhile (· ≠ greater)) hafter
    rw [List.append_assoc, List.singleton_append, htake rest hbody, htake after] at heq
    · exact hne heq.symm
    · rw [List.mem_cons, not_or]
      exact ⟨by decide, hname⟩
  have hinside : xml.drop (pos + 1) = body ++ [greater] ++ rest := by
    rw [← List.drop_drop, h]
    simp
  rw [contentEnd_eq, findFrom_less h]
  simp only
  rw [if_neg (mt substr_eq_iff.mp hclose), contentEnd_plain hinside]
  · rw [List.length_append, List.length_singleton, Nat.add_right_comm, ← Nat.add_assoc,
      Nat.add_right_comm]
  · rw [List.mem_append, List.mem_singleton, not_or]
    exact ⟨hless, by decide⟩

end Depth

end WinSys.EventLog
