import WinSys.Autoruns.Image

/-!
# Which file is found for a command line

* `DrivePath`, `Written`: a path that names a file, and how a command line has it
* `DllCommand`, `Hosts`: a command line of `rundll32`, and what it is started as
* `firstPath_written`, `rundllTarget_written`: the first path, and the DLL
* `resolveImage_command`: the file of both, for every text behind them
-/

namespace WinSys.Autoruns

open Infra Texts

def space : WChar := 0x20

def comma : WChar := 0x2C

def percent : WChar := 0x25

/-! ## paths in a command line -/

/-- A full path from a drive. -/
structure DrivePath where
  drive : WChar
  names : WString
  letter : 0x41 ≤ drive ∧ drive ≤ 0x5A ∨ 0x61 ≤ drive ∧ drive ≤ 0x7A
  plain : ∀ c ∈ names, c ≠ 0 ∧ c ≠ quote ∧ c ≠ percent ∧ c ≠ comma
  last : ∀ c ∈ names.getLast?, blank c = false

def DrivePath.text (path : DrivePath) : WString := path.drive :: 0x3A :: backslash :: path.names

/-- The file a path names: itself, or with an extension where the path is no file. -/
def Names (isFile : WString → Bool) (extension path file : WString) : Prop :=
  isFile file = true ∧ (file = path ∨ isFile path = false ∧ file = path ++ extension)

/-- A run of words names a file, with or without an extension. -/
def Named (isFile : WString → Bool) (extension run : WString) : Prop :=
  isFile run = true ∨ isFile (run ++ extension) = true

instance (isFile : WString → Bool) (extension run : WString) :
    Decidable (Named isFile extension run) := inferInstanceAs (Decidable (_ ∨ _))

/-- The runs of words a text starts with, up to all of it. -/
def wordRuns (text : WString) : List WString :=
  (text.idxsOf space ++ [text.length]).map fun stop => text.take stop

/-- A path that names a file, in quotes or so that none of its first words does. -/
structure Written (isFile : WString → Bool) (extension : WString) (inQuotes : Bool)
    (path : DrivePath) (file : WString) : Prop where
  names : Names isFile extension path.text file
  words : inQuotes = false →
    ∀ run ∈ wordRuns path.text, run.length < path.text.length → ¬Named isFile extension run

/-- What a text goes on with, if it does. -/
def GoesOn (starts : List WChar) (tail : WString) : Prop := ∀ c ∈ tail.head?, c ∈ starts

instance (starts : List WChar) (tail : WString) : Decidable (GoesOn starts tail) :=
  inferInstanceAs (Decidable (∀ c ∈ tail.head?, c ∈ starts))

/-! ## command lines of `rundll32` -/

/-- A space, and what else is blank. -/
structure Gap where
  text : WString
  space_first : text.head? = some space
  blank_all : ∀ c ∈ text, blank c = true

structure Switch where
  word : WString
  gap : Gap
  sign : word.head? = some 0x2F ∨ word.head? = some 0x2D
  plain : ∀ c ∈ word, c ≠ 0 ∧ c ≠ space ∧ c ≠ percent

def Switch.text (switch : Switch) : WString := switch.word ++ switch.gap.text

/-- Switches and blanks, and nothing else: each word, up to the next space, starts as a switch. -/
inductive OnlySwitches : WString → Prop
  | nil : OnlySwitches []
  | gap {c : WChar} {text : WString} (hc : blank c = true) (htext : OnlySwitches text) :
      OnlySwitches (c :: text)
  | word {word text : WString} (hsign : word.head? = some 0x2F ∨ word.head? = some 0x2D)
      (hspace : space ∉ word) (hgoes : GoesOn [space] text) (htext : OnlySwitches text) :
      OnlySwitches (word ++ text)

/-- What `rundll32` is started as by name, without a folder. -/
structure BareName where
  text : WString
  ne_nil : text ≠ []
  plain : ∀ c ∈ text, c ≠ 0 ∧ blank c = false ∧ c ≠ quote ∧ c ≠ percent ∧ c ≠ comma ∧
    c ≠ backslash ∧ c ≠ 0x2F ∧ c ≠ 0x3A

/-- A command line of `rundll32`. -/
structure DllCommand where
  hostInQuotes : Bool
  host : BareName ⊕ DrivePath
  gap : Gap
  switches : List Switch
  dllInQuotes : Bool
  dll : DrivePath
  /-- The entry and what it is given. -/
  call : WString
  goesOn : GoesOn [comma, space] call

def hostText : BareName ⊕ DrivePath → WString
  | .inl name => name.text
  | .inr path => path.text

namespace DllCommand

variable (line : DllCommand)

/-- All before the call. -/
def front : WString :=
  quoted line.hostInQuotes (hostText line.host) ++ (line.gap.text ++
    (line.switches.flatMap Switch.text ++ quoted line.dllInQuotes line.dll.text))

def text : WString := line.front ++ line.call

end DllCommand

/-- `rundll32` by the name of its file. -/
def IsRundll (file : WString) : Prop :=
  sameFold (fileName file) (wide "rundll32.exe") = true ∨
    sameFold (fileName file) (wide "rundll32") = true

instance (file : WString) : Decidable (IsRundll file) := inferInstanceAs (Decidable (_ ∨ _))

/-- The command line as `resolveImage` reads it. -/
def commandText (env : Env) (command : WString) : WString :=
  (trim (expand env command)).rdropWhile (· == comma)

/-- What the first word or path of a command line runs: a path, or a name that is a file here or,
where no longer run of words names one, on the search path. -/
inductive Hosts (env : Env) (isFile : WString → Bool) (line : DllCommand) : WString → Prop
  | path {path : DrivePath} {file : WString} (hhost : line.host = .inr path)
      (hpath : Written isFile (wide ".exe") line.hostInQuotes path file) :
      Hosts env isFile line file
  | here {name : BareName} {file : WString} (hhost : line.host = .inl name)
      (hname : Names isFile (wide ".exe") name.text file) : Hosts env isFile line file
  | searched {name : BareName} {file : WString} (hhost : line.host = .inl name)
      (hname : ¬Named isFile (wide ".exe") name.text)
      (hsearch : env.searchPath isFile name.text (some (wide ".exe")) = some file)
      (hwords : line.hostInQuotes = false → ∀ run ∈ wordRuns (commandText env line.text),
        name.text.length < run.length → ¬Named isFile (wide ".exe") run) :
      Hosts env isFile line file

/-- `ExpandEnvironmentStringsW` leaves what is before the first percent sign. -/
def LeavesFront (env : Env) : Prop :=
  ∀ text result, env.expandEnvironment text = some result →
    text.takeWhile (· ≠ percent) <+: result

/-! ## trimming -/

variable {p : WChar → Bool} {head tail text : WString} {starts : List WChar}

theorem GoesOn.cut {tail' : WString} (h : GoesOn starts tail) (hp : tail' <+: tail) :
    GoesOn starts tail' := by
  obtain ⟨more, rfl⟩ := hp
  cases tail' with
  | nil => exact fun c hc => by cases hc
  | cons c tail' => exact h

theorem GoesOn.mono {more : List WChar} (h : GoesOn starts tail) (hsub : starts ⊆ more) :
    GoesOn more tail := fun c hc => hsub (h c hc)

/-- A text that nothing is cut off, at its front or before what follows. -/
structure Tight (text : WString) : Prop where
  ne_nil : text ≠ []
  first : ∀ c ∈ text.head?, blank c = false
  last : ∀ c ∈ text.getLast?, blank c = false ∧ c ≠ comma

theorem Tight.append {more : WString} (h : Tight text) (hmore : Tight more) (mid : WString) :
    Tight (text ++ (mid ++ more)) where
  ne_nil := by simp [h.ne_nil]
  first := by
    intro c hc
    rw [List.head?_append_of_ne_nil _ h.ne_nil] at hc
    exact h.first c hc
  last := by
    intro c hc
    rw [List.getLast?_append_of_ne_nil _ (by simp [hmore.ne_nil]),
      List.getLast?_append_of_ne_nil _ hmore.ne_nil] at hc
    exact hmore.last c hc

theorem Tight.trim_append (h : Tight head) (tail : WString) :
    trim (head ++ tail) = head ++ tail.rdropWhile blank := by
  rw [trim, trimmed, dropWhile_append_of_head h.first h.ne_nil,
    rdropWhile_append fun c hc => (h.last c hc).1]

/-- What is blank before a text is cut off too. -/
theorem Tight.trim_gap {gap : WString} (h : Tight head) (hgap : ∀ c ∈ gap, blank c = true)
    (tail : WString) : trim (gap ++ (head ++ tail)) = head ++ tail.rdropWhile blank := by
  rw [← h.trim_append, trim, trimmed, List.dropWhile_append_of_pos hgap, trim, trimmed]

theorem quoted_tight (inQuotes : Bool) (h : Tight text) : Tight (quoted inQuotes text) := by
  cases inQuotes with
  | false => exact h
  | true =>
    refine ⟨List.cons_ne_nil _ _, ?_, ?_⟩
    · intro c hc
      cases hc
      rfl
    · intro c hc
      rw [quoted, if_pos rfl, List.getLast?_cons, List.getLast?_append] at hc
      cases hc
      exact (by decide : blank quote = false ∧ quote ≠ comma)

/-! ## the parts of a command line -/

namespace DrivePath

variable (path : DrivePath)

theorem drive_ne {c : WChar} (h : ¬(0x41 ≤ c ∧ c ≤ 0x5A ∨ 0x61 ≤ c ∧ c ≤ 0x7A)) :
    path.drive ≠ c := by
  rintro rfl
  exact h path.letter

theorem text_ne_nil : path.text ≠ [] := List.cons_ne_nil _ _

theorem mem_text {c : WChar} (h : c ∈ path.text) :
    c ≠ 0 ∧ c ≠ quote ∧ c ≠ percent ∧ c ≠ comma := by
  rw [text, List.mem_cons, List.mem_cons, List.mem_cons] at h
  rcases h with rfl | rfl | rfl | hc
  · exact ⟨path.drive_ne (by decide), path.drive_ne (by decide), path.drive_ne (by decide),
      path.drive_ne (by decide)⟩
  · decide
  · decide
  · exact path.plain c hc

theorem text_plain {c : WChar} (h : c ∈ path.text) : c ≠ 0 ∧ c ≠ percent :=
  ⟨(path.mem_text h).1, (path.mem_text h).2.2.1⟩

theorem drive_blank : blank path.drive = false := by
  simp [blank, path.drive_ne (c := 0x20) (by decide), path.drive_ne (c := 0x09) (by decide),
    path.drive_ne (c := 0x0D) (by decide), path.drive_ne (c := 0x0A) (by decide)]

theorem last_blank {c : WChar} (h : c ∈ path.text.getLast?) : blank c = false := by
  have hsplit : path.text = [path.drive, 0x3A, backslash] ++ path.names := rfl
  by_cases hnil : path.names = []
  · rw [hsplit, hnil] at h
    cases h
    rfl
  · rw [hsplit, List.getLast?_append_of_ne_nil _ hnil] at h
    exact path.last c h

theorem tight : Tight path.text where
  ne_nil := path.text_ne_nil
  first := by
    intro c hc
    cases hc
    exact path.drive_blank
  last := fun c hc => ⟨path.last_blank hc, (path.mem_text (List.mem_of_getLast? hc)).2.2.2⟩

/-- The words of a path end behind its root. -/
theorem three_le_of_mem_idxsOf {stop : ℕ} (h : stop ∈ path.text.idxsOf space) : 3 ≤ stop := by
  have hsplit : path.text = [path.drive, 0x3A, backslash] ++ path.names := rfl
  have hroot : [path.drive, 0x3A, backslash].idxsOf space = [] := by
    rw [List.idxsOf_eq_nil_iff]
    intro c hc
    refine beq_false_of_ne ?_
    simp only [List.mem_cons, List.not_mem_nil, or_false] at hc
    rcases hc with rfl | rfl | rfl
    · exact path.drive_ne (by decide)
    · decide
    · decide
  rw [hsplit, List.idxsOf_append, hroot, List.nil_append] at h
  exact List.ge_of_mem_idxsOf stop h

end DrivePath

theorem BareName.tight (name : BareName) : Tight name.text where
  ne_nil := name.ne_nil
  first := fun c hc => (name.plain c (List.mem_of_head? hc)).2.1
  last := fun c hc =>
    have hplain := name.plain c (List.mem_of_getLast? hc)
    ⟨hplain.2.1, hplain.2.2.2.2.1⟩

theorem BareName.space_notMem (name : BareName) : space ∉ name.text := fun hmem =>
  absurd (name.plain _ hmem).2.1 (by decide)

theorem BareName.quote_notMem (name : BareName) : quote ∉ name.text := fun hmem =>
  (name.plain _ hmem).2.2.1 rfl

/-- Behind the name there is a space at the earliest. -/
theorem BareName.second_ne (name : BareName) (htail : GoesOn [space] tail) :
    (name.text ++ tail)[1]? ≠ some 0x3A := by
  obtain ⟨c, rest, htext⟩ := List.exists_cons_of_ne_nil name.ne_nil
  rw [htext, List.cons_append, List.getElem?_cons_succ, ← List.head?_eq_getElem?]
  intro heq
  cases rest with
  | nil => exact absurd (htail _ heq) (by decide)
  | cons d rest =>
    have hd : d ∈ name.text := by simp [htext]
    exact (name.plain d hd).2.2.2.2.2.2.2 (Option.some.inj heq)

theorem hostText_tight : (host : BareName ⊕ DrivePath) → Tight (hostText host)
  | .inl name => name.tight
  | .inr path => path.tight

theorem Switch.word_blank (switch : Switch) : ∀ c ∈ switch.word.head?, blank c = false := by
  intro c hc
  have hsign := switch.sign
  rw [hc] at hsign
  rcases hsign with h | h <;> cases h <;> rfl

theorem Switch.word_ne_nil (switch : Switch) : switch.word ≠ [] := by
  intro hnil
  have hsign := switch.sign
  rw [hnil] at hsign
  rcases hsign with h | h <;> cases h

theorem quoted_plain (inQuotes : Bool) (h : ∀ c ∈ text, c ≠ 0 ∧ c ≠ percent) :
    ∀ c ∈ quoted inQuotes text, c ≠ 0 ∧ c ≠ percent := by
  cases inQuotes with
  | false => exact h
  | true =>
    intro c hc
    rw [quoted, if_pos rfl, List.mem_cons, List.mem_append, List.mem_singleton] at hc
    rcases hc with rfl | hc | rfl
    · decide
    · exact h c hc
    · decide

theorem hostText_plain : (host : BareName ⊕ DrivePath) →
    ∀ c ∈ hostText host, c ≠ 0 ∧ c ≠ percent
  | .inl name => fun c hc => ⟨(name.plain c hc).1, (name.plain c hc).2.2.2.1⟩
  | .inr path => fun _ hc => path.text_plain hc

theorem Gap.plain (gap : Gap) : ∀ c ∈ gap.text, c ≠ 0 ∧ c ≠ percent := by
  intro c hc
  have hblank := gap.blank_all c hc
  constructor <;>
  · rintro rfl
    exact absurd hblank (by decide)

theorem Switch.text_plain (switch : Switch) : ∀ c ∈ switch.text, c ≠ 0 ∧ c ≠ percent := by
  intro c hc
  rcases List.mem_append.mp hc with hc | hc
  · exact ⟨(switch.plain c hc).1, (switch.plain c hc).2.2⟩
  · exact switch.gap.plain c hc

/-- Up to the call there is nothing to expand. -/
theorem DllCommand.front_plain (line : DllCommand) : ∀ c ∈ line.front, c ≠ 0 ∧ c ≠ percent := by
  intro c hc
  rw [front, List.mem_append, List.mem_append, List.mem_append] at hc
  rcases hc with hc | hc | hc | hc
  · exact quoted_plain _ (hostText_plain line.host) c hc
  · exact line.gap.plain c hc
  · obtain ⟨switch, -, hc⟩ := List.mem_flatMap.mp hc
    exact switch.text_plain c hc
  · exact quoted_plain _ (fun _ => line.dll.text_plain) c hc

theorem switches_tight (switches : List Switch) (h : Tight text) :
    Tight (switches.flatMap Switch.text ++ text) := by
  cases switches with
  | nil => exact h
  | cons switch switches =>
    refine ⟨by simp [h.ne_nil], ?_, ?_⟩
    · rw [List.flatMap_cons, Switch.text, List.append_assoc, List.append_assoc,
        List.head?_append_of_ne_nil _ switch.word_ne_nil]
      exact switch.word_blank
    · rw [List.getLast?_append_of_ne_nil _ h.ne_nil]
      exact h.last

/-! ## finding a word's file -/

section Words

variable {env : Env} {isFile : WString → Bool} {extension word file : WString}

theorem names_named (h : Names isFile extension word file) : Named isFile extension word := by
  obtain ⟨hfile, rfl | ⟨-, rfl⟩⟩ := h
  · exact .inl hfile
  · exact .inr hfile

theorem Names.ne_nil {path : DrivePath} (h : Names isFile extension path.text file) :
    file ≠ [] := by
  obtain ⟨-, rfl | ⟨-, rfl⟩⟩ := h
  · exact path.text_ne_nil
  · simp [path.text_ne_nil]

theorem namesFile_of_named (h : Named isFile extension word) :
    namesFile env isFile word (some extension) = true := by
  unfold namesFile
  rcases h with h | h <;> simp [h]

/-- What does not start with a backslash has no prefix of the object manager's. -/
theorem findFile_eq (hne : word ≠ []) (hhead : word.head? ≠ some backslash) :
    findFile env isFile word (some extension) =
      if isFile word then word
      else if isFile (word ++ extension) then word ++ extension
      else if ¬ word[1]? = some 0x3A ∧ backslash ∈ word ∧
        isFile (env.systemRoot ++ backslash :: word) then env.systemRoot ++ backslash :: word
      else if backslash ∉ word then (env.searchPath isFile (cstr word) (some extension)).getD word
      else word := by
  obtain ⟨c, word, rfl⟩ := List.exists_cons_of_ne_nil hne
  have hc : c ≠ backslash := fun heq => hhead (heq ▸ rfl)
  have hroot : startsWithFold (c :: word) (wide "\\SystemRoot\\") = false := by
    rw [startsWithFold, beq_eq_false_iff_ne]
    intro h
    have hhead := congrArg List.head? h
    rw [List.head?_map, List.head?_take, if_neg (by decide), List.head?_map] at hhead
    exact hc ((foldCase_eq_iff (by decide) c).mp (Option.some.inj hhead))
  have hnt : ¬ wide "\\??\\" <+: c :: word := by
    intro h
    exact hc (List.cons_prefix_cons.mp h).1.symm
  simp [findFile, hroot, hnt, hc]

theorem findFile_of_names (hne : word ≠ []) (hhead : word.head? ≠ some backslash)
    (h : Names isFile extension word file) :
    findFile env isFile word (some extension) = file := by
  rw [findFile_eq hne hhead]
  obtain ⟨hfile, rfl | ⟨hword, rfl⟩⟩ := h
  · rw [if_pos hfile]
  · rw [if_neg (by simp [hword]), if_pos hfile]

/-- A name that is no file here is looked for on the search path. -/
theorem findFile_searched (name : BareName) (hname : ¬Named isFile extension name.text)
    (h : env.searchPath isFile name.text (some extension) = some file) :
    findFile env isFile name.text (some extension) = file := by
  obtain ⟨hfile, hext⟩ := not_or.mp hname
  have hback : backslash ∉ name.text := fun hmem => (name.plain _ hmem).2.2.2.2.2.1 rfl
  have hcstr : cstr name.text = name.text :=
    List.takeWhile_eq_self_iff.mpr fun c hc => decide_eq_true (name.plain c hc).1
  have hhead : name.text.head? ≠ some backslash := fun heq => hback (List.mem_of_head? heq)
  rw [findFile_eq name.ne_nil hhead, if_neg hfile, if_neg hext, if_neg (fun h => hback h.2.1),
    if_pos hback, hcstr, h, Option.getD_some]

/-- A run of a path's words that names no file is none of the files looked for either. -/
theorem namesFile_drive (path : DrivePath) {stop : ℕ} (hstop : 3 ≤ stop)
    (h : ¬Named isFile extension (path.text.take stop)) :
    namesFile env isFile (path.text.take stop) (some extension) = false := by
  obtain ⟨hfile, hext⟩ := not_or.mp h
  obtain ⟨n, rfl⟩ := Nat.exists_eq_add_of_le' hstop
  have htake : path.text.take (n + 3) = path.drive :: 0x3A :: backslash :: path.names.take n := rfl
  -- it is rooted and has a backslash: neither the Windows folder nor the search path is tried
  have hfind : findFile env isFile (path.text.take (n + 3)) (some extension) =
      path.text.take (n + 3) := by
    rw [findFile_eq (by rw [htake]; exact List.cons_ne_nil _ _) ?_, if_neg hfile, if_neg hext,
      if_neg, if_neg]
    · rw [htake]
      simp
    · rw [htake]
      simp
    · rw [htake]
      simpa using path.drive_ne (by decide)
  simp [namesFile, hfind, hfile, hext]

/-- A run without a colon at the second place. -/
theorem namesFile_other (hcolon : word[1]? ≠ some 0x3A) (h : ¬Named isFile extension word) :
    namesFile env isFile word (some extension) = false := by
  obtain ⟨hfile, hext⟩ := not_or.mp h
  simp [namesFile, hfile, hext, hcolon]

end Words

/-! ## the first word or path -/

section First

variable {env : Env} {isFile : WString → Bool} {extension : Option WString} {word : WString}

/-- The first run that names a file is the one. -/
theorem firstRun_found {stops later : List ℕ} {stop : ℕ}
    (hstops : ∀ s ∈ stops, namesFile env isFile (text.take s) extension = false)
    (hstop : namesFile env isFile (text.take stop) extension = true) (first : WString)
    (firstEnd : ℕ) :
    firstRun env isFile text extension (stops ++ stop :: later) first firstEnd =
      (findFile env isFile (text.take stop) extension, stop) := by
  induction stops generalizing first firstEnd with
  | nil => simp [firstRun, hstop]
  | cons s stops ih =>
    have hs := hstops s List.mem_cons_self
    rw [List.cons_append, firstRun]
    simp only [hs]
    exact ih (fun s' hs' => hstops s' (List.mem_cons_of_mem s hs')) _ _

/-- Where no run names a file, it is the first run. -/
theorem firstRun_none {stops : List ℕ} {first : WString} (hfirst : first ≠ [])
    (hstops : ∀ s ∈ stops, namesFile env isFile (text.take s) extension = false) (firstEnd : ℕ) :
    firstRun env isFile text extension stops first firstEnd =
      (findFile env isFile first extension, firstEnd) := by
  induction stops with
  | nil => rfl
  | cons s stops ih =>
    have hs := hstops s List.mem_cons_self
    rw [firstRun, if_neg hfirst]
    simp only [hs]
    exact ih fun s' hs' => hstops s' (List.mem_cons_of_mem s hs')

theorem firstPath_quoted (hword : quote ∉ word) (tail : WString) :
    firstPath env isFile (quoted true word ++ tail) extension =
      (findFile env isFile word extension, (quoted true word).length) := by
  have htext : quoted true word ++ tail = quote :: (word ++ quote :: tail) := by
    simp [quoted]
  have hidx : (word ++ quote :: tail).idxOf quote = word.length := by
    rw [List.idxOf_append_of_notMem hword, List.idxOf_cons_self, Nat.add_zero]
  rw [htext, firstPath, if_pos rfl]
  simp only [hidx, List.take_left]
  rw [Prod.mk.injEq]
  refine ⟨rfl, ?_⟩
  simp [quoted]

/-- The ends of the runs of words: those of the first part, its own, and later ones. -/
theorem stops_append (word : WString) (htail : GoesOn [space] tail) :
    ∃ later, (word ++ tail).idxsOf space ++ [(word ++ tail).length] =
        word.idxsOf space ++ word.length :: later ∧
      ∀ stop ∈ later, word.length < stop ∧ stop ≤ (word ++ tail).length := by
  cases tail with
  | nil => exact ⟨[], by simp, fun stop hstop => by cases hstop⟩
  | cons c tail =>
    obtain rfl : c = space := List.mem_singleton.mp (htail c rfl)
    refine ⟨tail.idxsOf space (word.length + 1) ++ [(word ++ space :: tail).length], ?_, ?_⟩
    · simp
    · intro stop hstop
      rw [List.mem_append, List.mem_singleton] at hstop
      rw [List.length_append, List.length_cons] at hstop ⊢
      rcases hstop with hstop | rfl
      · have hge := List.ge_of_mem_idxsOf stop hstop
        have hlt := List.lt_add_of_mem_idxsOf stop hstop
        omega
      · omega

theorem firstPath_unquoted (hne : word ≠ []) (hhead : word.head? ≠ some quote) (tail : WString) :
    firstPath env isFile (word ++ tail) extension =
      firstRun env isFile (word ++ tail) extension
        ((word ++ tail).idxsOf space ++ [(word ++ tail).length]) [] (word ++ tail).length := by
  obtain ⟨c, word, rfl⟩ := List.exists_cons_of_ne_nil hne
  have hc : c ≠ quote := fun heq => hhead (heq ▸ rfl)
  rw [List.cons_append, firstPath, if_neg hc]
  rfl

/-- An unquoted word or path that names a file, when no fewer of its words do. -/
theorem firstPath_found (hne : word ≠ []) (hhead : word.head? ≠ some quote)
    (htail : GoesOn [space] tail)
    (hwords : ∀ stop ∈ word.idxsOf space, namesFile env isFile (word.take stop) extension = false)
    (hword : namesFile env isFile word extension = true) :
    firstPath env isFile (word ++ tail) extension =
      (findFile env isFile word extension, word.length) := by
  -- the stops within the word come first, then its end
  obtain ⟨later, hstops, -⟩ := stops_append word htail
  rw [firstPath_unquoted hne hhead, hstops, firstRun_found, List.take_left]
  · intro stop hstop
    have hlt : stop < word.length := List.lt_add_of_mem_idxsOf stop hstop
    rw [List.take_append_of_le_length (by omega)]
    exact hwords stop hstop
  · rwa [List.take_left]

/-- An unquoted word, when neither it nor a longer run names a file. -/
theorem firstPath_none (hne : word ≠ []) (hhead : word.head? ≠ some quote) (hword : space ∉ word)
    (htail : GoesOn [space] tail)
    (hruns : ∀ stop, word.length ≤ stop → (word ++ tail).take stop ∈ wordRuns (word ++ tail) →
      namesFile env isFile ((word ++ tail).take stop) extension = false) :
    firstPath env isFile (word ++ tail) extension =
      (findFile env isFile word extension, word.length) := by
  obtain ⟨later, hstops, hlater⟩ := stops_append word htail
  have hnone : word.idxsOf space = [] := by
    rw [List.idxsOf_eq_nil_iff]
    exact fun c hc => beq_false_of_ne (ne_of_mem_of_not_mem hc hword)
  rw [hnone, List.nil_append] at hstops
  have hmem : ∀ stop ∈ word.length :: later,
      (word ++ tail).take stop ∈ wordRuns (word ++ tail) := by
    intro stop hstop
    rw [wordRuns, hstops]
    exact List.mem_map_of_mem (f := fun stop => (word ++ tail).take stop) hstop
  have hfirst := hruns word.length le_rfl (hmem _ List.mem_cons_self)
  rw [firstPath_unquoted hne hhead, hstops]
  simp only [firstRun, List.take_left] at hfirst ⊢
  simp only [hfirst]
  refine firstRun_none hne (fun stop hstop => ?_) _
  exact hruns stop (hlater stop hstop).1.le (hmem stop (List.mem_cons_of_mem _ hstop))

end First

section Hosts

variable {env : Env} {isFile : WString → Bool}

theorem firstPath_written (env : Env) {extension file : WString} {inQuotes : Bool}
    {path : DrivePath} (h : Written isFile extension inQuotes path file)
    (htail : inQuotes = false → GoesOn [space] tail) :
    firstPath env isFile (quoted inQuotes path.text ++ tail) (some extension) =
      (file, (quoted inQuotes path.text).length) := by
  have hhead : path.text.head? ≠ some backslash := by
    intro hdrive
    exact path.drive_ne (by decide) (Option.some.inj hdrive)
  have hfile : findFile env isFile path.text (some extension) = file :=
    findFile_of_names path.text_ne_nil hhead h.names
  cases inQuotes with
  | true =>
    rw [firstPath_quoted fun hmem => (path.mem_text hmem).2.1 rfl, hfile]
  | false =>
    have hquote : path.text.head? ≠ some quote := fun heq =>
      (path.mem_text (List.mem_of_head? heq)).2.1 rfl
    change firstPath env isFile (path.text ++ tail) (some extension) = (file, path.text.length)
    rw [firstPath_found path.text_ne_nil hquote (htail rfl) ?_ (namesFile_of_named
      (names_named h.names)), hfile]
    intro stop hstop
    have hlt := List.lt_add_of_mem_idxsOf stop hstop
    have hlen : (path.text.take stop).length < path.text.length := by
      rw [List.length_take]
      omega
    have hrun : path.text.take stop ∈ wordRuns path.text :=
      List.mem_map_of_mem (List.mem_append_left _ hstop)
    exact namesFile_drive path (path.three_le_of_mem_idxsOf hstop) (h.words rfl _ hrun hlen)

theorem firstPath_host {line : DllCommand} {image : WString} (h : Hosts env isFile line image)
    (htail : GoesOn [space] tail)
    (htext : commandText env line.text =
      quoted line.hostInQuotes (hostText line.host) ++ tail) :
    firstPath env isFile (quoted line.hostInQuotes (hostText line.host) ++ tail)
        (some (wide ".exe")) =
      (image, (quoted line.hostInQuotes (hostText line.host)).length) := by
  cases h with
  | path hhost hpath =>
    rw [hhost]
    exact firstPath_written env hpath fun _ => htail
  | @here name _ hhost hname =>
    have hhead : name.text.head? ≠ some backslash := fun heq =>
      (name.plain _ (List.mem_of_head? heq)).2.2.2.2.2.1 rfl
    have hfile : findFile env isFile name.text (some (wide ".exe")) = image :=
      findFile_of_names name.ne_nil hhead hname
    rw [hhost]
    cases line.hostInQuotes with
    | true => rw [hostText, firstPath_quoted name.quote_notMem, hfile]
    | false =>
      have hnone : name.text.idxsOf space = [] := by
        rw [List.idxsOf_eq_nil_iff]
        exact fun c hc => beq_false_of_ne (ne_of_mem_of_not_mem hc name.space_notMem)
      change firstPath env isFile (name.text ++ tail) _ = (image, name.text.length)
      rw [firstPath_found name.ne_nil ?_ htail ?_ (namesFile_of_named (names_named hname)), hfile]
      · exact fun heq => name.quote_notMem (List.mem_of_head? heq)
      · rw [hnone]
        exact fun stop hstop => absurd hstop List.not_mem_nil
  | @searched name _ hhost hname hsearch hwords =>
    have hfile := findFile_searched name hname hsearch
    rw [hhost] at htext ⊢
    cases hquotes : line.hostInQuotes with
    | true => rw [hostText, firstPath_quoted name.quote_notMem, hfile]
    | false =>
      have hruns := hwords hquotes
      rw [htext, hquotes] at hruns
      change firstPath env isFile (name.text ++ tail) _ = (image, name.text.length)
      rw [firstPath_none name.ne_nil ?_ name.space_notMem htail ?_, hfile]
      · exact fun heq => name.quote_notMem (List.mem_of_head? heq)
      -- a run is the name itself or a longer one
      · intro stop hstop hrun
        have htake : (name.text ++ tail).take stop =
            name.text ++ tail.take (stop - name.text.length) := by
          rw [List.take_append, List.take_of_length_le hstop]
        have hgoes := htail.cut (List.take_prefix (stop - name.text.length) tail)
        refine namesFile_other (htake ▸ name.second_ne hgoes) ?_
        cases hmore : tail.take (stop - name.text.length) with
        | nil => rwa [htake, hmore, List.append_nil]
        | cons c more =>
          refine hruns _ hrun ?_
          rw [htake, hmore, List.length_append, List.length_cons]
          omega

end Hosts

/-! ## the text of a command line -/

section Text

variable {env : Env}

theorem expand_plain (env : Env) (h : percent ∉ text) : expand env text = text := if_neg h

theorem expand_percent (h : percent ∈ text) :
    expand env text = ((env.expandEnvironment (cstr text)).map cstr).getD text := by
  refine (if_pos h).trans ?_
  cases env.expandEnvironment (cstr text) <;> rfl

theorem cstr_append (h : ∀ c ∈ head, c ≠ 0) (tail : WString) :
    cstr (head ++ tail) = head ++ cstr tail :=
  List.takeWhile_append_of_pos fun c hc => decide_eq_true (h c hc)

/-- What an expansion leaves: a text without a percent sign, and the character behind it. -/
theorem expand_front (henv : LeavesFront env) (hhead : ∀ c ∈ head, c ≠ 0 ∧ c ≠ percent)
    (htail : ∀ c ∈ tail.head?, c ≠ 0 ∧ c ≠ percent) :
    ∃ tail', expand env (head ++ tail) = head ++ tail' ∧
      ∀ starts, GoesOn starts tail → GoesOn starts tail' := by
  by_cases hpercent : percent ∈ head ++ tail
  · rw [expand_percent hpercent]
    cases hresult : env.expandEnvironment (cstr (head ++ tail)) with
    | none => exact ⟨tail, rfl, fun _ h => h⟩
    | some result =>
      obtain _ | ⟨c, tail⟩ := tail
      · rw [List.append_nil] at hpercent
        exact absurd rfl (hhead _ hpercent).2
      -- the character behind it is kept too, so the text goes on as it did
      have hfront : ∀ a ∈ head ++ [c], a ≠ 0 ∧ a ≠ percent := by
        intro a ha
        rcases List.mem_append.mp ha with ha | ha
        · exact hhead a ha
        · exact List.mem_singleton.mp ha ▸ htail c rfl
      have hsplit : head ++ c :: tail = (head ++ [c]) ++ tail := by simp
      have hkept : head ++ [c] <+: result := by
        refine List.IsPrefix.trans ?_ (henv _ _ hresult)
        rw [hsplit, cstr_append fun a ha => (hfront a ha).1, List.takeWhile_append_of_pos]
        · exact List.prefix_append _ _
        · exact fun a ha => decide_eq_true (hfront a ha).2
      obtain ⟨more, rfl⟩ := hkept
      refine ⟨c :: cstr more, ?_, fun _ h => h⟩
      rw [Option.map_some, Option.getD_some, cstr_append fun a ha => (hfront a ha).1]
      simp
  · exact ⟨tail, expand_plain env hpercent, fun _ h => h⟩

theorem commandText_append {command : WString} (h : Tight head)
    (hcommand : expand env command = head ++ tail) :
    commandText env command = head ++ (tail.rdropWhile blank).rdropWhile (· == comma) := by
  rw [commandText, hcommand, h.trim_append, rdropWhile_append]
  exact fun c hc => beq_false_of_ne (h.last c hc).2

end Text

/-! ## the DLL -/

/-- A gap starts with its space. -/
theorem Gap.exists_text (gap : Gap) : ∃ more, gap.text = space :: more := by
  have hfirst := gap.space_first
  cases htext : gap.text with
  | nil =>
    rw [htext] at hfirst
    cases hfirst
  | cons c more =>
    rw [htext] at hfirst
    exact ⟨more, congrArg (· :: more) (Option.some.inj hfirst)⟩

/-- One switch and the gap behind it. -/
theorem dropSwitches_cons (switch : Switch) (fuel : ℕ) (rest : WString) :
    dropSwitches (fuel + 1) (switch.text ++ rest) =
      dropSwitches fuel (trim (switch.gap.text ++ rest)) := by
  have hhead : (switch.text ++ rest).head? = switch.word.head? := by
    rw [Switch.text, List.append_assoc, List.head?_append_of_ne_nil _ switch.word_ne_nil]
  have hspace : space ∉ switch.word := fun hmem => (switch.plain _ hmem).2.1 rfl
  have hfind : find [space] (switch.text ++ rest) = some switch.word.length := by
    obtain ⟨more, hgap⟩ := switch.gap.exists_text
    have hsplit : switch.text ++ rest = switch.word ++ ([space] ++ (more ++ rest)) := by
      simp [Switch.text, hgap]
    rw [hsplit, find_append_self hspace]
  have hdrop : (switch.text ++ rest).drop switch.word.length = switch.gap.text ++ rest := by
    rw [Switch.text, List.append_assoc, List.drop_left]
  rw [dropSwitches, hhead, if_pos switch.sign, show ([0x20] : WString) = [space] from rfl, hfind]
  exact congrArg (dropSwitches fuel <| trim ·) hdrop

/-- All switches, to a text that is none. -/
theorem dropSwitches_append {switches : List Switch} (h : Tight head)
    (hhead : ¬(head.head? = some 0x2F ∨ head.head? = some 0x2D)) {fuel : ℕ}
    (hfuel : switches.length ≤ fuel) (tail : WString) :
    ∃ tail', tail' <+: tail ∧
      dropSwitches fuel (switches.flatMap Switch.text ++ (head ++ tail)) = head ++ tail' := by
  induction switches generalizing fuel tail with
  | nil =>
    refine ⟨tail, List.prefix_rfl, ?_⟩
    cases fuel with
    | zero => rfl
    | succ fuel =>
      rw [List.flatMap_nil, List.nil_append, dropSwitches, List.head?_append_of_ne_nil _ h.ne_nil,
        if_neg hhead]
  | cons switch switches ih =>
    obtain ⟨fuel, rfl⟩ : ∃ n, fuel = n + 1 := Nat.exists_eq_succ_of_ne_zero (by
      rw [List.length_cons] at hfuel
      omega)
    -- each turn cuts blanks off the whole of what is left, its end included
    have hkept := switches_tight switches h
    obtain ⟨tail', htail', hdrop⟩ :=
      ih (Nat.le_of_succ_le_succ hfuel) (tail.rdropWhile blank)
    refine ⟨tail', htail'.trans (List.rdropWhile_prefix _ _), ?_⟩
    rw [List.flatMap_cons, List.append_assoc, dropSwitches_cons, ← List.append_assoc _ head,
      hkept.trim_gap switch.gap.blank_all, List.append_assoc, hdrop]

theorem switches_length_le (switches : List Switch) (rest : WString) :
    switches.length ≤ (switches.flatMap Switch.text ++ rest).length := by
  induction switches with
  | nil => exact Nat.zero_le _
  | cons switch switches ih =>
    have hword := List.length_pos_iff.mpr switch.word_ne_nil
    rw [List.flatMap_cons, Switch.text, List.append_assoc, List.append_assoc, List.length_append,
      List.length_append, List.length_cons]
    omega

theorem take_find (c : WChar) (text : WString) :
    text.take ((find [c] text).getD text.length) = text.takeWhile (· ≠ c) := by
  induction text with
  | nil => rfl
  | cons a text ih =>
    rw [find]
    by_cases ha : a = c
    · subst ha
      simp
    · have hne : ¬[c] <+: a :: text := fun h => ha (List.cons_prefix_cons.mp h).1.symm
      rw [if_neg hne, List.takeWhile_cons_of_pos (by simpa using ha), ← ih]
      cases find [c] text <;> rfl

/-- The place of the comma that ends a DLL's path. -/
def dllEnd (args : WString) : ℕ :=
  (if args.head? = some quote then
    (findFrom [quote] args 1).bind fun stop => findFrom [comma] args stop
  else find [comma] args).getD args.length

/-- It is behind the path, in quotes or not. -/
theorem dllEnd_append (inQuotes : Bool) (dll : DrivePath) (tail : WString) :
    dllEnd (quoted inQuotes dll.text ++ tail) =
      ((find [comma] tail).map (· + (quoted inQuotes dll.text).length)).getD
        (quoted inQuotes dll.text ++ tail).length := by
  have hcomma : comma ∉ dll.text := fun hmem => (dll.mem_text hmem).2.2.2 rfl
  have hquote : quote ∉ dll.text := fun hmem => (dll.mem_text hmem).2.1 rfl
  unfold dllEnd
  congr 1
  cases inQuotes with
  | false =>
    have hhead : (quoted false dll.text ++ tail).head? ≠ some quote := fun heq =>
      hquote (List.mem_of_head? heq)
    rw [if_neg hhead]
    exact find_append_of_notMem hcomma tail
  | true =>
    have hhead : (quoted true dll.text ++ tail).head? = some quote := rfl
    have hfront : quoted true dll.text ++ tail = [quote] ++ (dll.text ++ ([quote] ++ tail)) := by
      simp [quoted]
    have hback : quoted true dll.text ++ tail = (quote :: dll.text) ++ ([quote] ++ tail) := by
      simp [quoted]
    have hstop : findFrom [quote] (quoted true dll.text ++ tail) 1 =
        some (quote :: dll.text).length := by
      rw [hfront]
      refine (findFrom_append [quote] _).trans ?_
      rw [find_append_self hquote]
      rfl
    rw [if_pos hhead, hstop, Option.bind_some, hback, findFrom_append,
      find_append_of_notMem (by decide), Option.map_map]
    congr 1
    funext n
    simp [quoted]
    omega

namespace OnlySwitches

/-- A text cut off, even inside a switch, still has only switches. -/
theorem of_front {front : WString} (h : OnlySwitches text) (hp : front <+: text) :
    OnlySwitches front := by
  induction h generalizing front with
  | nil =>
    rw [List.prefix_nil.mp hp]
    exact .nil
  | @gap c text hc _ ih =>
    cases front with
    | nil => exact .nil
    | cons a front =>
      obtain ⟨rfl, hrest⟩ := List.cons_prefix_cons.mp hp
      exact .gap hc (ih hrest)
  | @word word text hsign hspace hgoes _ ih =>
    rcases le_total front.length word.length with hle | hle
    · have hword := List.prefix_of_prefix_length_le hp (List.prefix_append word text) hle
      cases front with
      | nil => exact .nil
      | cons a front =>
        have hsign' : (a :: front).head? = some 0x2F ∨ (a :: front).head? = some 0x2D := by
          obtain ⟨more, rfl⟩ := hword
          exact hsign
        have hspace' : space ∉ a :: front := fun hmem => hspace (hword.subset hmem)
        have hgoes' : GoesOn [space] [] := fun _ h => (Option.not_mem_none _ h).elim
        have hcut := OnlySwitches.word hsign' hspace' hgoes' .nil
        rwa [List.append_nil] at hcut
    · obtain ⟨more, rfl⟩ := List.prefix_of_prefix_length_le (List.prefix_append word text) hp hle
      have hmore : more <+: text := (List.prefix_append_right_inj word).mp hp
      exact .word hsign hspace (hgoes.cut hmore) (ih hmore)

theorem dropWhile_blank (h : OnlySwitches text) : OnlySwitches (text.dropWhile blank) := by
  induction h with
  | nil => exact .nil
  | gap hc _ ih =>
    rw [List.dropWhile_cons_of_pos hc]
    exact ih
  | @word word text hsign hspace hgoes htext _ =>
    have hne : word ≠ [] := by
      rintro rfl
      rcases hsign with h | h <;> cases h
    have hfirst : ∀ c ∈ word.head?, blank c = false := by
      intro c hc
      rcases hsign with h | h <;> cases h.symm.trans hc <;> decide
    rw [dropWhile_append_of_head hfirst hne]
    exact .word hsign hspace hgoes htext

theorem trim_blank (h : OnlySwitches text) : OnlySwitches (trim text) :=
  h.dropWhile_blank.of_front (List.rdropWhile_prefix _ _)

/-- Each turn drops one of the switches, the last one too. -/
theorem dropSwitches_eq {fuel : ℕ} (h : OnlySwitches text)
    (hfuel : (trim text).length ≤ fuel) : dropSwitches fuel (trim text) = [] := by
  induction fuel generalizing text with
  | zero =>
    rw [List.length_eq_zero_iff.mp (Nat.le_zero.mp hfuel)]
    rfl
  | succ fuel ih =>
    have hfirst : ∀ c ∈ (trim text).head?, blank c = false := trimmed_head text
    have honly := h.trim_blank
    generalize trim text = args at hfuel hfirst honly
    cases honly with
    | nil => rfl
    | gap hc _ =>
      rw [hfirst _ rfl] at hc
      cases hc
    | @word word rest hsign hspace hgoes hrest =>
      have hne : word ≠ [] := by
        rintro rfl
        rcases hsign with h | h <;> cases h
      have hpos := List.length_pos_of_ne_nil hne
      rw [dropSwitches, List.head?_append_of_ne_nil _ hne, if_pos hsign]
      cases rest with
      | nil =>
        have hnone : find [0x20] (word ++ []) = none :=
          find_append_of_notMem hspace []
        rw [hnone]
      | cons c rest =>
        obtain rfl := List.mem_singleton.mp (hgoes c rfl)
        have hfind : find [0x20] (word ++ space :: rest) = some word.length :=
          find_append_self hspace rest
        rw [hfind]
        show dropSwitches fuel (trim ((word ++ space :: rest).drop word.length)) = []
        rw [List.drop_left]
        refine ih hrest ?_
        have hle : (trim (space :: rest)).length ≤ (space :: rest).length :=
          (trimmed_sublist _).length_le
        rw [List.length_append] at hfuel
        omega

end OnlySwitches

theorem take_dllEnd (inQuotes : Bool) (dll : DrivePath) (tail : WString) :
    (quoted inQuotes dll.text ++ tail).take (dllEnd (quoted inQuotes dll.text ++ tail)) =
      quoted inQuotes dll.text ++ tail.takeWhile (· ≠ comma) := by
  rw [dllEnd_append, ← take_find, List.length_append]
  cases find [comma] tail with
  | none =>
    rw [Option.map_none, Option.getD_none, Option.getD_none, ← List.length_append,
      List.take_length, List.take_length]
  | some n =>
    rw [Option.map_some, Option.getD_some, Option.getD_some, Nat.add_comm,
      List.take_length_add_append]

theorem quoted_no_switch (inQuotes : Bool) (dll : DrivePath) :
    ¬((quoted inQuotes dll.text).head? = some 0x2F ∨
      (quoted inQuotes dll.text).head? = some 0x2D) := by
  cases inQuotes with
  | true => exact (by decide : ¬(some quote = some 0x2F ∨ some quote = some 0x2D))
  | false =>
    rintro (h | h)
    · exact dll.drive_ne (by decide) (Option.some.inj h)
    · exact dll.drive_ne (by decide) (Option.some.inj h)

section Target

variable {env : Env} {isFile : WString → Bool}

theorem rundllTarget_eq (args : WString) :
    rundllTarget env isFile args =
      if dropSwitches args.length args = [] then []
      else
        (firstPath env isFile
          (trim ((dropSwitches args.length args).take (dllEnd (dropSwitches args.length args))))
          (some (wide ".dll"))).1 := rfl

/-- Behind the switches, the DLL up to its comma or space. -/
theorem rundllTarget_written {switches : List Switch} {inQuotes : Bool} {dll : DrivePath}
    {file : WString} (h : Written isFile (wide ".dll") inQuotes dll file)
    (htail : GoesOn [comma, space] tail) :
    rundllTarget env isFile
      (switches.flatMap Switch.text ++ (quoted inQuotes dll.text ++ tail)) = file := by
  have htight := quoted_tight inQuotes dll.tight
  have hfuel := switches_length_le switches (quoted inQuotes dll.text ++ tail)
  obtain ⟨tail', htail', hdrop⟩ :=
    dropSwitches_append htight (quoted_no_switch inQuotes dll) hfuel tail
  have hne : quoted inQuotes dll.text ++ tail' ≠ [] := by
    simp [htight.ne_nil]
  -- up to the comma only a space can be behind the path
  have hgoes : GoesOn [space] (tail'.takeWhile (· ≠ comma)) := by
    intro c hc
    have hcomma : c ≠ comma := by
      simpa using List.mem_takeWhile_imp (List.mem_of_head? hc)
    have hmem := (htail.cut htail').cut (List.takeWhile_prefix _) c hc
    simpa [hcomma] using hmem
  have hpath := firstPath_written env h fun _ =>
    hgoes.cut (List.rdropWhile_prefix blank _)
  rw [rundllTarget_eq, hdrop, if_neg hne, take_dllEnd, htight.trim_append, hpath]

/-! ## the file -/

theorem resolveImage_eq {command image : WString} (hne : head ≠ [])
    (htext : commandText env command = head ++ tail)
    (hfirst : firstPath env isFile (head ++ tail) (some (wide ".exe")) = (image, head.length)) :
    resolveImage env isFile command =
      if IsRundll image then
        if rundllTarget env isFile (trim tail) = [] then image
        else rundllTarget env isFile (trim tail)
      else image := by
  have htext' : (trim (expand env command)).rdropWhile (· == 0x2C) = head ++ tail := htext
  unfold resolveImage
  simp only [htext', hfirst, List.drop_left, Bool.or_eq_true, List.append_eq_nil_iff, hne,
    false_and, if_false]
  rfl

/-- A path's file, whatever is behind it; behind `rundll32` only switches are. -/
theorem resolveImage_written {inQuotes : Bool} {path : DrivePath} {file arguments : WString}
    (h : Written isFile (wide ".exe") inQuotes path file) (hpercent : percent ∉ arguments)
    (hgoes : inQuotes = false → GoesOn [space] arguments)
    (hrundll : ¬IsRundll file ∨ OnlySwitches arguments) :
    resolveImage env isFile (quoted inQuotes path.text ++ arguments) = file := by
  have htight := quoted_tight inQuotes path.tight
  have hplain : percent ∉ quoted inQuotes path.text ++ arguments := by
    rw [List.mem_append, not_or]
    exact ⟨fun hmem => (quoted_plain inQuotes (fun c hc => path.text_plain hc) _ hmem).2 rfl,
      hpercent⟩
  have htext := commandText_append htight (expand_plain env hplain)
  have hprefix : (arguments.rdropWhile blank).rdropWhile (· == comma) <+: arguments :=
    (List.rdropWhile_prefix _ _).trans (List.rdropWhile_prefix _ _)
  have hpath := firstPath_written env h fun hq => (hgoes hq).cut hprefix
  rw [resolveImage_eq htight.ne_nil htext hpath]
  split
  -- with no DLL behind it `rundll32` itself is the file
  · next himage =>
    have honly := (hrundll.resolve_left (not_not.mpr himage)).of_front hprefix
    rw [rundllTarget_eq, if_pos (honly.dropSwitches_eq le_rfl), if_pos rfl]
  · rfl

/-- The DLL of a command line of `rundll32`. -/
theorem resolveImage_dll (henv : LeavesFront env) {line : DllCommand} {image file : WString}
    (hhost : Hosts env isFile line image) (hrundll : IsRundll image)
    (h : Written isFile (wide ".dll") line.dllInQuotes line.dll file) :
    resolveImage env isFile line.text = file := by
  have hdll := quoted_tight line.dllInQuotes line.dll.tight
  have hrest := switches_tight line.switches hdll
  have hfront : Tight line.front :=
    (quoted_tight line.hostInQuotes (hostText_tight line.host)).append hrest line.gap.text
  have hcall : ∀ c ∈ line.call.head?, c ≠ 0 ∧ c ≠ percent := by
    intro c hc
    have hmem := line.goesOn c hc
    simp only [List.mem_cons, List.not_mem_nil, or_false] at hmem
    rcases hmem with rfl | rfl <;> decide
  -- all up to the call is left by the expansion and by the cuts at both ends
  obtain ⟨call, hexpand, hcall'⟩ := expand_front henv line.front_plain hcall
  have htext : commandText env line.text = _ := commandText_append hfront hexpand
  have hgoes := (hcall' _ line.goesOn).cut ((List.rdropWhile_prefix (· == comma) _).trans
    (List.rdropWhile_prefix blank call))
  generalize (call.rdropWhile blank).rdropWhile (· == comma) = tail at htext hgoes
  have hsplit : line.front ++ tail = quoted line.hostInQuotes (hostText line.host) ++
      (line.gap.text ++
        ((line.switches.flatMap Switch.text ++ quoted line.dllInQuotes line.dll.text) ++
          tail)) := by
    simp [DllCommand.front]
  have hgap : GoesOn [space] (line.gap.text ++
      ((line.switches.flatMap Switch.text ++ quoted line.dllInQuotes line.dll.text) ++ tail)) := by
    obtain ⟨more, hmore⟩ := line.gap.exists_text
    rw [hmore]
    rintro c hc
    cases hc
    exact List.mem_singleton_self _
  rw [hsplit] at htext
  have htarget : rundllTarget env isFile (trim (line.gap.text ++
      ((line.switches.flatMap Switch.text ++ quoted line.dllInQuotes line.dll.text) ++ tail))) =
      file := by
    rw [hrest.trim_gap line.gap.blank_all, List.append_assoc]
    exact rundllTarget_written h (hgoes.cut (List.rdropWhile_prefix blank _))
  have hne := (quoted_tight line.hostInQuotes (hostText_tight line.host)).ne_nil
  rw [resolveImage_eq hne htext (firstPath_host hhost hgap htext), if_pos hrundll, htarget,
    if_neg h.names.ne_nil]

end Target

/-- A command line's file is what it names: a path, in quotes or by its first words that name a
file, whatever is behind it; and what `rundll32` is given, behind its switches. -/
theorem resolveImage_command (env : Env) (isFile : WString → Bool) (henv : LeavesFront env) :
    (∀ (inQuotes : Bool) (path : DrivePath) (file arguments : WString),
      Written isFile (wide ".exe") inQuotes path file → percent ∉ arguments →
      (inQuotes = false → GoesOn [space] arguments) →
      (¬IsRundll file ∨ OnlySwitches arguments) →
      resolveImage env isFile (quoted inQuotes path.text ++ arguments) = file) ∧
    ∀ (line : DllCommand) (image file : WString),
      Hosts env isFile line image → IsRundll image →
      Written isFile (wide ".dll") line.dllInQuotes line.dll file →
      resolveImage env isFile line.text = file :=
  ⟨fun _ _ _ _ h hpercent hgoes hrundll => resolveImage_written h hpercent hgoes hrundll,
    fun _ _ _ hhost hrundll h => resolveImage_dll henv hhost hrundll h⟩

/-! ## one file system -/

namespace Example

def notepad : DrivePath where
  drive := 0x43
  names := wide "Tools\\Note Pad"
  letter := by decide
  plain := by decide
  last := by decide

def library : DrivePath where
  drive := 0x43
  names := wide "my lib"
  letter := by decide
  plain := by decide
  last := by decide

def host : DrivePath where
  drive := 0x43
  names := wide "Windows\\rundll32.exe"
  letter := by decide
  plain := by decide
  last := by decide

def isFile (path : WString) : Bool :=
  path == notepad.text ++ wide ".exe" || path == library.text ++ wide ".dll" || path == host.text

/-- No variable is set, and only the Windows folder is searched. -/
def env : Env where
  upcase c := c
  expandEnvironment text := some text
  systemRoot := wide "C:\\Windows"
  searchPath isFile name extension :=
    let path := wide "C:\\Windows\\" ++ name
    if isFile path then some path
    else if isFile (path ++ extension.getD []) then some (path ++ extension.getD [])
    else none

end Example

theorem Example.leavesFront : LeavesFront Example.env := by
  rintro text result h
  cases h
  exact List.takeWhile_prefix _

/-- `rundll32` as it is called. -/
def Example.line : DllCommand where
  hostInQuotes := false
  host := .inl { text := wide "rundll32", ne_nil := by decide, plain := by decide }
  gap := { text := wide " ", space_first := by decide, blank_all := by decide }
  switches := [{
    word := wide "/d"
    gap := { text := wide " ", space_first := by decide, blank_all := by decide }
    sign := by decide
    plain := by decide }]
  dllInQuotes := false
  dll := Example.library
  call := wide ",Start %y%"
  goesOn := by decide

theorem Example.written (inQuotes : Bool) :
    Written Example.isFile (wide ".exe") inQuotes Example.notepad
      (Example.notepad.text ++ wide ".exe") where
  names := ⟨by decide, .inr ⟨by decide, rfl⟩⟩
  words := fun _ => by decide

theorem Example.library_written : Written Example.isFile (wide ".dll") Example.line.dllInQuotes
    Example.line.dll (Example.library.text ++ wide ".dll") where
  names := ⟨by decide, .inr ⟨by decide, rfl⟩⟩
  words := fun _ => by decide

theorem Example.hosts : Hosts Example.env Example.isFile Example.line Example.host.text :=
  .searched rfl (by decide) (by decide) (by decide)

theorem resolveImage_command_example :
    resolveImage Example.env Example.isFile (quoted true Example.notepad.text ++ wide "-x, y") =
        Example.notepad.text ++ wide ".exe" ∧
      resolveImage Example.env Example.isFile (quoted false Example.notepad.text ++ wide " -x") =
        Example.notepad.text ++ wide ".exe" ∧
      resolveImage Example.env Example.isFile Example.line.text =
        Example.library.text ++ wide ".dll" := by
  obtain ⟨hpath, hdll⟩ := resolveImage_command Example.env Example.isFile Example.leavesFront
  refine ⟨?_, ?_, ?_⟩
  · exact hpath true Example.notepad _ _ (Example.written true) (by decide) (by decide)
      (.inl (by decide))
  · exact hpath false Example.notepad _ _ (Example.written false) (by decide) (by decide)
      (.inl (by decide))
  · exact hdll Example.line Example.host.text _ Example.hosts (by decide) Example.library_written

/-- A path to `rundll32` is not its own file when a DLL is behind it, and a variable in a switch
brings in words of its own. -/
theorem resolveImage_host_dll :
    Example.isFile Example.host.text = true ∧
      resolveImage Example.env Example.isFile
          (quoted true Example.host.text ++ wide " C:\\my lib,x") =
        Example.library.text ++ wide ".dll" ∧
      Example.library.text ++ wide ".dll" ≠ Example.host.text ∧
      resolveImage
          { Example.env with
            expandEnvironment := fun _ =>
              some (wide "rundll32 /d C:\\Tools\\Note Pad.exe, C:\\my lib,x") }
          Example.isFile (wide "rundll32 /%d% C:\\my lib,x") =
        Example.notepad.text ++ wide ".exe" ∧
      Example.notepad.text ++ wide ".exe" ≠ Example.library.text ++ wide ".dll" := by
  decide

end WinSys.Autoruns
