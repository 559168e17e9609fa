import WinSys.Infra.Blanks
import WinSys.Infra.MultiSz
import WinSys.Infra.Split

/-!
# The services a service depends on

`Install` takes them as a text, "a;b;+Group", and gives them to the service manager as a list with
NULs; `GetServiceConfiguration` reads such a list.

* `createDependencies`, `getDependencies`: the two directions
* `dependencyNames`: what a text means
* `getDependencies_createDependencies`: what was installed is read back
-/

namespace WinSys.Services

open Infra Reads

/-! ## the source -/

def semicolon : WChar := 0x3B

/-- `L" \t"` -/
def isBlank (c : WChar) : Bool := c == 0x20 || c == 0x09

/-- `find_first_not_of` -/
def firstNotBlank (name : WString) : Option ℕ := name.findIdx? (!isBlank ·)

/-- `find_last_not_of` -/
def lastNotBlank (name : WString) : Option ℕ :=
  (name.reverse.findIdx? (!isBlank ·)).map (name.length - 1 - ·)

/-- What a part of the text adds to the list. -/
def addDependency (name : WString) : WString :=
  match firstNotBlank name, lastNotBlank name with
  | some first, some last => substr name first (last - first + 1) ++ [0]
  | _, _ => []

/-- The list `Install` builds. -/
def dependencyList (text : WString) : WString :=
  (pieces (· == semicolon) text (text.length + 1) 0).flatMap addDependency ++ [0]

/-- What `CreateService` is given. -/
def createDependencies (text : WString) : Option WString :=
  if (dependencyList text).length < 2 then none else some (dependencyList text)

/-- The dependencies in `GetServiceConfiguration`, from `lpDependencies` on. -/
def getDependencies : Option WString → Reads (List WString)
  | none => pure []
  | some list => trustingStrings list

/-! ## what a text means -/

/-- The names between the semicolons; empty ones are left out. -/
def dependencyNames (text : WString) : List WString :=
  ((text.splitOn semicolon).map (trimmed isBlank)).filter (· ≠ [])

/-- Names as a text. -/
def joinNames (names : List WString) : WString := [semicolon].intercalate names

variable {name text : WString} {names : List WString}

/-! ## what is installed -/

theorem findIdx?_append_of_head (p : WChar → Bool) {front : WString} (middle back : WString)
    (hfront : ∀ c ∈ front, p c = false) (hne : middle ≠ [])
    (hhead : ∀ c ∈ middle.head?, p c = true) :
    (front ++ middle ++ back).findIdx? p = some front.length := by
  induction front with
  | nil =>
    cases middle with
    | nil => exact absurd rfl hne
    | cons c middle =>
      rw [List.nil_append, List.cons_append, List.findIdx?_cons, if_pos (hhead c rfl)]
      rfl
  | cons c front ih =>
    rw [List.cons_append, List.cons_append, List.findIdx?_cons,
      ih fun c hc => hfront c (List.mem_cons_of_mem _ hc)]
    simp [hfront c List.mem_cons_self]

/-- A part adds what it is without the blanks at its ends. -/
theorem addDependency_eq (name : WString) :
    addDependency name = if trimmed isBlank name = [] then []
      else trimmed isBlank name ++ [0] := by
  obtain ⟨hblank, htrim⟩ | ⟨front, middle, back, rfl, htrim, hne, hfront, hback, hhead, hlast⟩ :=
    trimmed_cases isBlank name
  · have hfirst : firstNotBlank name = none :=
      List.findIdx?_eq_none_iff.mpr fun c hc => by rw [hblank c hc]; rfl
    rw [addDependency, hfirst, if_pos htrim]
  · have hfirst : firstNotBlank (front ++ middle ++ back) = some front.length :=
      findIdx?_append_of_head _ _ back (fun c hc => by rw [hfront c hc]; rfl) hne
        fun c hc => by rw [hhead c hc]; rfl
    have hend : lastNotBlank (front ++ middle ++ back)
        = some ((front ++ middle ++ back).length - 1 - back.length) := by
      have hfind := findIdx?_append_of_head (!isBlank ·) middle.reverse front.reverse
        (fun c (hc : c ∈ back.reverse) => by rw [hback c (List.mem_reverse.mp hc)]; rfl)
        (fun h => hne (List.reverse_eq_nil_iff.mp h))
        fun c hc => by
          rw [List.head?_reverse] at hc
          rw [hlast c hc]
          rfl
      rw [lastNotBlank, List.reverse_append, List.reverse_append, ← List.append_assoc, hfind,
        List.length_reverse]
      rfl
    have hpos := List.length_pos_iff.mpr hne
    have hcount : (front ++ middle ++ back).length - 1 - back.length - front.length + 1
        = middle.length := by
      rw [List.length_append, List.length_append]
      omega
    rw [addDependency, hfirst, hend, if_neg (by rwa [htrim]), htrim]
    show substr _ _ _ ++ [0] = _
    rw [hcount, substr, List.append_assoc, List.drop_left, List.take_left]

/-- **The list is the one of the names.** -/
theorem dependencyList_eq (text : WString) :
    dependencyList text = multiSz (dependencyNames text) := by
  have hsplit : pieces (· == semicolon) text (text.length + 1) 0 = text.splitOn semicolon := by
    rw [pieces_eq (by omega) (Nat.zero_le _), List.drop_zero, List.splitOn_eq_splitOnP]
  rw [dependencyList, multiSz, dependencyNames, hsplit]
  congr 1
  induction text.splitOn semicolon with
  | nil => rfl
  | cons name names ih =>
    rw [List.flatMap_cons, addDependency_eq, List.map_cons, List.filter_cons, ih]
    by_cases hname : trimmed isBlank name = []
    · rw [if_pos hname, if_neg (by simp [hname]), List.nil_append]
    · rw [if_neg hname, if_pos (by simp [hname]), List.flatMap_cons]

/-- What a name is: not empty, without semicolons, and without blanks at its ends. -/
structure Name (name : WString) : Prop where
  ne_nil : name ≠ []
  semicolon : semicolon ∉ name
  trimmed : trimmed isBlank name = name

theorem name_of_mem (h : name ∈ dependencyNames text) : Name name := by
  obtain ⟨hmem, hne⟩ := List.mem_filter.mp h
  obtain ⟨part, hpart, rfl⟩ := List.mem_map.mp hmem
  exact ⟨by simpa using hne, fun hsemi => notMem_of_mem_splitOn hpart
    ((trimmed_sublist part).subset hsemi), trimmed_trimmed part⟩

theorem mem_of_mem_splitOn {part : WString} (h : part ∈ text.splitOn semicolon) {c : WChar}
    (hc : c ∈ part) : c ∈ text := by
  have hunlines := unlines_splitOn semicolon text
  have hmem : c ∈ unlines semicolon (text.splitOn semicolon) :=
    List.mem_flatMap.mpr ⟨part, h, List.mem_append_left _ hc⟩
  rw [hunlines, List.mem_append, List.mem_singleton] at hmem
  obtain hmem | rfl := hmem
  · exact hmem
  · exact absurd hc (notMem_of_mem_splitOn h)

theorem item_of_mem (hnul : 0 ∉ text) (h : name ∈ dependencyNames text) : Item name := by
  refine ⟨(name_of_mem h).ne_nil, fun hmem => hnul ?_⟩
  obtain ⟨part, hpart, rfl⟩ := List.mem_map.mp (List.mem_filter.mp h).1
  exact mem_of_mem_splitOn hpart ((trimmed_sublist part).subset hmem)

/-- Names as a text mean themselves. -/
theorem dependencyNames_joinNames (h : ∀ name ∈ names, Name name) :
    dependencyNames (joinNames names) = names := by
  cases hnames : names with
  | nil => rfl
  | cons first rest =>
    rw [← hnames]
    have hsplit : (joinNames names).splitOn semicolon = names :=
      List.splitOn_intercalate semicolon (fun name hname => (h name hname).semicolon)
        (hnames ▸ List.cons_ne_nil _ _)
    rw [dependencyNames, hsplit]
    have hmap : names.map (trimmed isBlank) = names := by
      conv_rhs => rw [← List.map_id names]
      exact List.map_congr_left fun name hname => (h name hname).trimmed
    rw [hmap]
    exact List.filter_eq_self.mpr fun name hname => by simpa using (h name hname).ne_nil

/-! ## what is read back -/

/-- What the service manager has for a service: the list it was given, or none. There may be more
behind the list. -/
def Keeps (given stored : Option WString) : Prop :=
  match given, stored with
  | none, none => True
  | none, some list => ∃ rest, list = 0 :: rest
  | some given, some list => ∃ rest, list = given ++ rest
  | some _, none => False

/-- No list is given exactly for a text without names. -/
theorem createDependencies_eq_none_iff (hnul : 0 ∉ text) :
    createDependencies text = none ↔ dependencyNames text = [] := by
  unfold createDependencies
  rw [dependencyList_eq]
  cases hnames : dependencyNames text with
  | nil => exact iff_of_true rfl rfl
  | cons name names =>
    have hpos := List.length_pos_iff.mpr
      (item_of_mem hnul (hnames ▸ List.mem_cons_self : name ∈ dependencyNames text)).1
    rw [multiSz_cons, if_neg]
    · exact iff_of_false (Option.some_ne_none _) (List.cons_ne_nil _ _)
    · have hlast : 1 ≤ (multiSz names).length := by simp [multiSz]
      rw [List.length_append, List.length_append, List.length_singleton]
      omega

theorem createDependencies_of_ne_nil (hnul : 0 ∉ text) (h : dependencyNames text ≠ []) :
    createDependencies text = some (dependencyList text) := by
  have hsome := mt (createDependencies_eq_none_iff hnul).mp h
  unfold createDependencies at hsome ⊢
  split
  · next hshort => exact absurd (if_pos hshort) hsome
  · rfl

/-- **What was installed is read back**: the names of the text, whatever is behind the list; no list
is given exactly if there are none. The names as a text give the same list again. -/
theorem getDependencies_createDependencies (hnul : 0 ∉ text) {stored : Option WString}
    (h : Keeps (createDependencies text) stored) :
    (getDependencies stored).Safe ∧ (getDependencies stored).value = dependencyNames text
      ∧ (createDependencies text = none ↔ dependencyNames text = [])
      ∧ dependencyList (joinNames (dependencyNames text)) = dependencyList text := by
  have hitems : ∀ name ∈ dependencyNames text, Item name := fun name => item_of_mem hnul
  have hagain : dependencyList (joinNames (dependencyNames text)) = dependencyList text := by
    rw [dependencyList_eq, dependencyNames_joinNames fun name => name_of_mem, dependencyList_eq]
  have hnone := createDependencies_eq_none_iff hnul
  by_cases hnames : dependencyNames text = []
  · rw [hnone.mpr hnames] at h
    cases stored with
    | none => exact ⟨safe_pure _, hnames.symm, hnone, hagain⟩
    | some list =>
      obtain ⟨rest, rfl⟩ := h
      obtain ⟨hsafe, hvalue⟩ := trustingStrings_multiSz hitems rest
      rw [hnames] at hsafe hvalue
      exact ⟨hsafe, hvalue.trans hnames.symm, hnone, hagain⟩
  · rw [createDependencies_of_ne_nil hnul hnames] at h
    cases stored with
    | none => cases h
    | some list =>
      obtain ⟨rest, rfl⟩ := h
      obtain ⟨hsafe, hvalue⟩ := trustingStrings_multiSz hitems rest
      rw [← dependencyList_eq] at hsafe hvalue
      exact ⟨hsafe, hvalue, hnone, hagain⟩

/-- A text with an empty part, a blank one and a group. -/
def someText : WString := wide " RpcSs ;;\t; +TDI"

theorem keeps_someText : Keeps (createDependencies someText)
    (some (wide "RpcSs\x00+TDI\x00\x00more")) := by
  have hgiven : createDependencies someText = some (wide "RpcSs\x00+TDI\x00\x00") := by decide
  rw [hgiven]
  exact ⟨wide "more", by decide⟩

theorem getDependencies_someText :
    (getDependencies (some (wide "RpcSs\x00+TDI\x00\x00more"))).value = dependencyNames someText
      ∧ dependencyNames someText = [wide "RpcSs", wide "+TDI"] :=
  ⟨(getDependencies_createDependencies (by decide) keeps_someText).2.1, by decide⟩

end WinSys.Services
