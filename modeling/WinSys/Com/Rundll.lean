import WinSys.Com.Servers
import WinSys.Infra.Blanks
import WinSys.Infra.Split

/-!
# Which DLL a rundll32 server runs

A local server can be a command line of `rundll32`: its path, switches, a DLL and what the DLL is
called with. `ReadClass` marks those whose DLL is Windows' own.

* `RundllLine`: such a command line
* `InFolder`: a path that is in a folder, whatever it goes through
* `Told`: what of a line tells its DLL apart
* `interpreterRunsSystemDll_iff`: the mark is right exactly for such lines
-/

namespace WinSys.Com

open Infra Texts

/-! ## command lines -/

def spaces (n : ℕ) : WString := List.replicate n space

/-- A command line of `rundll32`; switches have the spaces behind them, less one. -/
structure RundllLine where
  lead : ℕ
  exeInQuotes : Bool
  exe : WString
  gap : ℕ
  switches : List (WString × ℕ)
  dllInQuotes : Bool
  dll : WString
  /-- the entry and its arguments -/
  call : WString
  exe_quoted : exeInQuotes = true → quote ∉ exe
  exe_plain : exeInQuotes = false → exe.head? ≠ some quote ∧ exe.head? ≠ some space ∧
    find (wide ".exe") (lower exe) = some (exe.length - 4)
  switch : ∀ s ∈ switches, (s.1.head? = some slash ∨ s.1.head? = some 0x2D) ∧ space ∉ s.1
  dll_ne : dll ≠ []
  dll_quoted : dllInQuotes = true → quote ∉ dll
  dll_plain : dllInQuotes = false → dll.head? ≠ some quote ∧ dll.head? ≠ some slash ∧
    dll.head? ≠ some 0x2D ∧ space ∉ dll ∧ comma ∉ dll

namespace RundllLine

variable (line : RundllLine)

/-- What is behind the path of `rundll32`. -/
def arguments : WString :=
  line.switches.flatMap (fun s => s.1 ++ spaces (s.2 + 1)) ++
    (quoted line.dllInQuotes line.dll ++ comma :: line.call)

def text : WString :=
  spaces line.lead ++ (quoted line.exeInQuotes line.exe ++
    (spaces (line.gap + 1) ++ line.arguments))

end RundllLine

/-! ## folders -/

def colon : WChar := 0x3A

def isSeparator (c : WChar) : Bool := c = backslash ∨ c = slash

/-- The names of a path, as they are compared. -/
def parts (path : WString) : List WString := (lower path).splitOnP isSeparator

/-- Whether a name leads anywhere. -/
def leads (name : WString) : Bool := name ≠ [] ∧ name ≠ dot

/-- Where names lead, from the names on the way so far; `..` leaves the last of these. -/
def follow (way names : List WString) : List WString :=
  names.foldl (fun way name =>
    if !leads name then way
    else if name = dotDot then way.dropLast
    else way ++ [name]) way

/-- The way to something below a folder. -/
def Below (folder : FullPath) (way : List WString) : Prop :=
  folder.names.map lower <+: way ∧ folder.names.length < way.length

/-- A path from the folder's drive that ends somewhere below the folder. -/
def InFolder (folder : FullPath) (path : WString) : Prop :=
  (parts path).headD [] = lower [folder.drive, colon] ∧
    Below folder (follow [] (parts path).tail)

/-- A DLL by a path. -/
def IsPath (dll : WString) : Prop := backslash ∈ dll ∨ slash ∈ dll

/-- A DLL by its name, also without a drive in front. -/
def Bare (dll : WString) : Prop := ¬IsPath dll ∧ colon ∉ dll

/-- A DLL by a path, and not in the folder. -/
def Outside (folder : FullPath) (dll : WString) : Prop := IsPath dll ∧ ¬InFolder folder dll

/-- A DLL by its name, or in the folder without `..`. -/
def Own (folder : FullPath) (dll : WString) : Prop :=
  Bare dll ∨ (InFolder folder dll ∧ dotDot ∉ parts dll)

section Decidable

variable (folder : FullPath) (way : List WString) (path : WString)

instance : Decidable (Below folder way) := inferInstanceAs (Decidable (_ ∧ _))

instance : Decidable (InFolder folder path) := inferInstanceAs (Decidable (_ ∧ _))

instance : Decidable (IsPath path) := inferInstanceAs (Decidable (_ ∨ _))

instance : Decidable (Bare path) := inferInstanceAs (Decidable (_ ∧ _))

instance : Decidable (Outside folder path) := inferInstanceAs (Decidable (_ ∧ _))

instance : Decidable (Own folder path) := inferInstanceAs (Decidable (_ ∨ _))

end Decidable

/-- A path that is the folder's drive and names, and more, without `..`; there may be separators and
`.` too many in it. -/
def Spelled (folder : FullPath) (path : WString) : Prop :=
  dotDot ∉ parts path ∧ (parts path).headD [] = lower [folder.drive, colon] ∧
    Below folder ((parts path).tail.filter leads)

/-- What the text of a command line has to be like for its DLL to be told apart.

Without switches, a path has to lead into the folder if it has slashes only, or has the folder's
text and a backslash in front; any other path must not spell the folder out. With switches, which
are not skipped, it is the first one, up to a comma, that decides. -/
def Told (folder : FullPath) (line : RundllLine) : Prop :=
  match line.switches with
  | [] =>
    if backslash ∉ line.dll then slash ∈ line.dll → InFolder folder line.dll
    else if lower folder.text ++ [backslash] <+: lower line.dll then
      Below folder (follow (folder.names.map lower)
        (parts (line.dll.drop (folder.text.length + 1))))
    else ¬Spelled folder line.dll
  | (switch, _) :: _ =>
    if backslash ∉ switch.takeWhile (· ≠ comma) then
      IsPath line.dll → InFolder folder line.dll
    else ¬Bare line.dll ∧ ¬Spelled folder line.dll

/-! ## scanning a command line -/

theorem dropWhile_spaces (n : ℕ) {rest : WString} (h : rest.head? ≠ some space) :
    (spaces n ++ rest).dropWhile (· = space) = rest := by
  rw [spaces, List.dropWhile_append_of_pos]
  · cases rest with
    | nil => rfl
    | cons c rest =>
      have hc : ¬c = space := fun hc => h (by rw [hc]; rfl)
      rw [List.dropWhile_cons_of_neg (by simpa using hc)]
  · intro c hc
    simp [List.eq_of_mem_replicate hc]

variable {text rest : WString}

theorem takeWhile_quote (h : quote ∉ text) (rest : WString) :
    (text ++ quote :: rest).takeWhile (· ≠ quote) = text := by
  rw [List.takeWhile_append_of_pos]
  · simp
  · exact fun c hc => decide_eq_true (ne_of_mem_of_not_mem hc h)

theorem dropWhile_quote (h : quote ∉ text) (rest : WString) :
    (text ++ quote :: rest).dropWhile (· ≠ quote) = quote :: rest := by
  rw [List.dropWhile_append_of_pos]
  · simp
  · exact fun c hc => decide_eq_true (ne_of_mem_of_not_mem hc h)

theorem takeWhile_append_stop {p : WChar → Bool} {c : WChar} (hc : p c = false)
    (text rest : WString) : (text ++ c :: rest).takeWhile p = text.takeWhile p := by
  induction text with
  | nil => simp [hc]
  | cons a text ih =>
    rw [List.cons_append, List.takeWhile_cons, List.takeWhile_cons, ih]

theorem quoted_true (text rest : WString) :
    quoted true text ++ rest = quote :: (text ++ quote :: rest) := by
  simp [quoted]

theorem quoted_false (text : WString) : quoted false text = text := rfl

/-- A switch doesn't start with a letter. -/
theorem letter_switch {c : WChar} (h : c = slash ∨ c = 0x2D) : ¬Letter c := by
  obtain rfl | rfl := h <;> decide

namespace RundllLine

variable (line : RundllLine)

theorem exe_ne (h : line.exeInQuotes = false) : line.exe ≠ [] := by
  intro hnil
  have hfind := (line.exe_plain h).2.2
  rw [hnil] at hfind
  exact absurd hfind (by decide)

theorem head_exe (rest : WString) :
    (quoted line.exeInQuotes line.exe ++ rest).head? ≠ some space := by
  cases h : line.exeInQuotes with
  | true =>
    rw [quoted_true, List.head?_cons]
    decide
  | false =>
    rw [quoted_false, List.head?_append_of_ne_nil _ (line.exe_ne h)]
    exact (line.exe_plain h).2.1

/-- The place of the extension in an unquoted line. -/
theorem find_exe (h : line.exeInQuotes = false) (rest : WString) :
    find (wide ".exe") (lower (line.exe ++ rest)) = some (line.exe.length - 4) ∧
      line.exe.length - 4 + 4 = line.exe.length := by
  have hfind := (line.exe_plain h).2.2
  obtain ⟨-, hp, -⟩ := find_eq_some.mp hfind
  have hlength := hp.length_le
  have hfour : (wide ".exe").length = 4 := rfl
  rw [hfour, List.length_drop, lower, List.length_map] at hlength
  refine ⟨?_, by omega⟩
  rw [lower, List.map_append]
  exact find_append_of_some hfind _

theorem head_plain (h : line.exeInQuotes = false) (rest : WString) :
    (line.exe ++ rest).head? ≠ some quote := by
  rw [List.head?_append_of_ne_nil _ (line.exe_ne h)]
  exact (line.exe_plain h).1

theorem leadingPath_exe (rest : WString) :
    leadingPath (quoted line.exeInQuotes line.exe ++ rest) = line.exe := by
  cases h : line.exeInQuotes with
  | true =>
    rw [quoted_true, leadingPath, List.head?_cons, if_pos rfl]
    exact takeWhile_quote (line.exe_quoted h) rest
  | false =>
    obtain ⟨hfind, hfour⟩ := line.find_exe h rest
    rw [quoted_false, leadingPath, if_neg (line.head_plain h rest), hfind]
    dsimp only
    rw [hfour, List.take_left]

theorem behindExe_exe (rest : WString) :
    behindExe (quoted line.exeInQuotes line.exe ++ rest) = rest := by
  cases h : line.exeInQuotes with
  | true =>
    rw [quoted_true, behindExe, List.head?_cons, if_pos rfl, List.drop_succ_cons, List.drop_zero,
      dropWhile_quote (line.exe_quoted h), List.drop_succ_cons, List.drop_zero]
  | false =>
    obtain ⟨hfind, hfour⟩ := line.find_exe h rest
    rw [quoted_false, behindExe, if_neg (line.head_plain h rest), hfind]
    dsimp only
    rw [hfour, List.drop_left]

/-- The path that is run. -/
def exePath (env : Env) : WString :=
  if 0x25 ∈ line.exe then expandStrings env line.exe else line.exe

theorem serverPath_text (env : Env) : serverPath env line.text = line.exePath env := by
  rw [serverPath, text, dropWhile_spaces _ (line.head_exe _), leadingPath_exe, exePath]

theorem switch_ne {s : WString × ℕ} (h : s ∈ line.switches) : s.1 ≠ [] := by
  intro hnil
  have hhead := (line.switch s h).1
  rw [hnil] at hhead
  simp at hhead

theorem head_arguments : line.arguments.head? ≠ some space := by
  rw [arguments]
  cases h : line.switches with
  | nil =>
    rw [List.flatMap_nil, List.nil_append]
    cases hq : line.dllInQuotes with
    | true =>
      rw [quoted_true, List.head?_cons]
      decide
    | false =>
      rw [quoted_false, List.head?_append_of_ne_nil _ line.dll_ne]
      exact fun hspace => (line.dll_plain hq).2.2.2.1 (List.mem_of_mem_head? hspace)
  | cons s switches =>
    have hmem : s ∈ line.switches := h ▸ List.mem_cons_self
    rw [List.flatMap_cons, List.append_assoc, List.append_assoc,
      List.head?_append_of_ne_nil _ (line.switch_ne hmem)]
    exact fun hspace => (line.switch s hmem).2 (List.mem_of_mem_head? hspace)

/-- What `ReadClass` takes for the DLL. -/
def target : WString :=
  match line.switches with
  | [] => line.dll
  | (switch, _) :: _ => switch.takeWhile (· ≠ comma)

theorem leadingDll_arguments : leadingDll line.arguments = line.target := by
  rw [arguments, target]
  cases h : line.switches with
  | nil =>
    rw [List.flatMap_nil, List.nil_append]
    dsimp only
    cases hq : line.dllInQuotes with
    | true =>
      rw [quoted_true, leadingDll, List.head?_cons, if_pos rfl]
      exact takeWhile_quote (line.dll_quoted hq) _
    | false =>
      obtain ⟨hquote, -, -, hspace, hcomma⟩ := line.dll_plain hq
      rw [quoted_false, leadingDll, List.head?_append_of_ne_nil _ line.dll_ne, if_neg hquote,
        takeWhile_append_stop (by decide)]
      refine List.takeWhile_eq_self_iff.mpr fun c hc => ?_
      simp [ne_of_mem_of_not_mem hc hspace, ne_of_mem_of_not_mem hc hcomma]
  | cons s switches =>
    obtain ⟨switch, n⟩ := s
    have hmem : (switch, n) ∈ line.switches := h ▸ List.mem_cons_self
    obtain ⟨hhead, hspace⟩ := line.switch _ hmem
    have hquote : switch.head? ≠ some quote := by
      obtain hhead | hhead := hhead
      · rw [hhead]
        decide
      · rw [hhead]
        decide
    have hspaces : spaces (n + 1) = space :: spaces n := rfl
    rw [List.flatMap_cons, List.append_assoc, List.append_assoc, hspaces, leadingDll,
      List.head?_append_of_ne_nil _ (line.switch_ne hmem), if_neg hquote, List.cons_append,
      takeWhile_append_stop (by decide)]
    refine takeWhile_congr fun c hc => ?_
    simp [ne_of_mem_of_not_mem hc hspace]

theorem rundllTarget_text : rundllTarget line.text = line.target := by
  rw [rundllTarget, text, dropWhile_spaces _ (line.head_exe _), behindExe_exe,
    dropWhile_spaces _ line.head_arguments, leadingDll_arguments]

theorem target_ne : line.target ≠ [] := by
  rw [target]
  cases h : line.switches with
  | nil => exact line.dll_ne
  | cons s switches =>
    obtain ⟨switch, n⟩ := s
    have hhead := (line.switch (switch, n) (h ▸ List.mem_cons_self)).1
    cases switch with
    | nil => simp at hhead
    | cons c switch =>
      have hc : c ≠ comma := by
        rintro rfl
        simp only [List.head?_cons, Option.some.injEq] at hhead
        revert hhead
        decide
      simp [hc]

/-- A switch is not under a folder. -/
theorem not_under_switch (folder : FullPath) {s : WString × ℕ} (h : s ∈ line.switches) :
    ¬Under folder.text (s.1.takeWhile (· ≠ comma)) := by
  obtain ⟨switch, n⟩ := s
  have hhead := (line.switch _ h).1
  rintro ⟨-, hunder, -⟩
  cases switch with
  | nil => simp at hhead
  | cons c switch =>
    simp only [List.head?_cons, Option.some.injEq] at hhead
    have hc : c ≠ comma := by
      rintro rfl
      revert hhead
      decide
    have hfold : foldCase c = foldCase folder.drive := by
      rw [startsWithFold, FullPath.text] at hunder
      simp only [ne_eq, hc, not_false_eq_true, decide_true, List.takeWhile_cons_of_pos,
        List.length_cons, List.take_succ_cons, List.map_cons, beq_iff_eq, List.cons.injEq]
        at hunder
      exact hunder.1
    have hself : foldCase c = c := (foldCase_eq_iff (letter_switch hhead) c).mpr rfl
    have hdrive := (foldCase_eq_iff (letter_switch hhead) folder.drive).mp (hfold.symm.trans hself)
    exact letter_switch hhead (hdrive ▸ folder.letter)

end RundllLine

/-! ## paths -/

section Paths

variable {folder : FullPath} {path : WString}

/-- Only letters have another case. -/
theorem lower_eq_iff {name other : WString} (h : ∀ c ∈ other, ¬Letter c) :
    lower name = other ↔ name = other := by
  induction name generalizing other with
  | nil => simp [lower, eq_comm]
  | cons a name ih =>
    cases other with
    | nil => simp [lower]
    | cons c other =>
      have hrest := ih fun x hx => h x (List.mem_cons_of_mem c hx)
      rw [lower] at hrest
      rw [lower, List.map_cons, List.cons.injEq, List.cons.injEq, hrest,
        foldCase_eq_iff (h c List.mem_cons_self)]

theorem plain_leads {name : WString} (h : Plain name) :
    leads (lower name) = true ∧ lower name ≠ dotDot := by
  obtain ⟨hnil, hdot, hdotDot, -⟩ := h
  refine ⟨?_, mt (lower_eq_iff (by decide)).mp hdotDot⟩
  have hdot' := mt (@lower_eq_iff name dot (by decide)).mp hdot
  have hnil' : lower name ≠ [] := mt List.map_eq_nil_iff.mp hnil
  simp [leads, hdot', hnil']

theorem follow_append (way names more : List WString) :
    follow way (names ++ more) = follow (follow way names) more := List.foldl_append

/-- Without `..` a way only goes on. -/
theorem follow_filter {names : List WString} (h : dotDot ∉ names) (way : List WString) :
    follow way names = way ++ names.filter leads := by
  induction names generalizing way with
  | nil => exact (List.append_nil way).symm
  | cons name names ih =>
    obtain ⟨hname, hnames⟩ := not_or.mp (mt List.mem_cons.mpr h)
    rw [follow, List.foldl_cons, ← follow, if_neg (Ne.symm hname)]
    by_cases hleads : leads name = true
    · rw [if_neg (by simp [hleads]), ih hnames, List.filter_cons_of_pos hleads, List.append_assoc,
        List.singleton_append]
    · rw [if_pos (by simp [hleads]), ih hnames, List.filter_cons_of_neg hleads]

/-- A path in the folder without `..` is one that spells it out. -/
theorem spelled_iff : Spelled folder path ↔ InFolder folder path ∧ dotDot ∉ parts path := by
  rw [Spelled, and_comm, InFolder]
  refine and_congr_left fun h => ?_
  rw [follow_filter (fun hmem => h (List.mem_of_mem_tail hmem)), List.nil_append]

theorem parts_eq (h : slash ∉ path) : parts path = (lower path).splitOn backslash := by
  have hlower : slash ∉ lower path := notMem_lower (by decide) h
  rw [parts, List.splitOn_eq_splitOnP]
  generalize lower path = text at hlower
  induction text with
  | nil => rfl
  | cons c rest ih =>
    obtain ⟨hc, hrest⟩ := not_or.mp (mt List.mem_cons.mpr hlower)
    have hsame : isSeparator c = (c == backslash) := by
      simp [isSeparator, Ne.symm hc, beq_eq_decide]
    rw [List.splitOnP_cons_eq_if_modifyHead, List.splitOnP_cons_eq_if_modifyHead, hsame, ih hrest]

theorem slash_notMem_text : slash ∉ folder.text := by
  rw [FullPath.text, List.mem_cons, List.mem_cons, List.mem_flatMap, not_or, not_or]
  refine ⟨?_, by decide, ?_⟩
  · intro hdrive
    have hletter := folder.letter
    rw [← hdrive] at hletter
    exact absurd hletter (by decide)
  · rintro ⟨name, hname, hmem⟩
    rcases List.mem_cons.mp hmem with h | h
    · exact absurd h (by decide)
    · exact (folder.plain name hname).2.2.2.2.1 h

/-- A folder's path has the folder's names. -/
theorem parts_text : parts folder.text = folder.key := by
  have hlines := splitOn_unlines folder.notMem_key
  rw [← folder.lower_text, List.splitOn_append_cons_self] at hlines
  rw [parts_eq slash_notMem_text]
  exact List.append_cancel_right hlines

/-- A text is under a folder if the folder's, and a backslash, are in front of it. -/
theorem under_iff {text : WString} :
    Under text path ↔ lower text ++ [backslash] <+: lower path := by
  constructor
  · rintro ⟨hlength, hfold, hnext⟩
    have hfold : lower (path.take text.length) = lower text := beq_iff_eq.mp hfold
    obtain ⟨hlt, hget⟩ := List.getElem?_eq_some_iff.mp hnext
    have hsplit : path = path.take text.length ++ backslash :: path.drop (text.length + 1) := by
      rw [← hget, ← List.drop_eq_getElem_cons hlt, List.take_append_drop]
    refine ⟨lower (path.drop (text.length + 1)), ?_⟩
    have hbackslash : foldCase backslash = backslash := by decide
    calc lower text ++ [backslash] ++ lower (path.drop (text.length + 1))
        = lower (path.take text.length)
            ++ foldCase backslash :: lower (path.drop (text.length + 1)) := by
          rw [hfold, hbackslash, List.append_assoc, List.singleton_append]
      _ = lower (path.take text.length ++ backslash :: path.drop (text.length + 1)) := by
          rw [lower, lower, lower, List.map_append, List.map_cons]
      _ = lower path := by rw [← hsplit]
  · rintro ⟨rest, hrest⟩
    have hlength := congrArg List.length hrest
    simp only [lower, List.length_append, List.length_map, List.length_singleton] at hlength
    have htake : lower (path.take text.length) = lower text := by
      rw [lower, List.map_take, ← lower, ← hrest, List.append_assoc]
      exact List.take_left' (List.length_map _)
    have hnext : (lower path)[text.length]? = some backslash := by
      rw [← hrest, List.append_assoc, List.getElem?_append_right (by rw [lower, List.length_map]),
        lower, List.length_map, Nat.sub_self]
      rfl
    rw [lower, List.getElem?_map, Option.map_eq_some_iff] at hnext
    obtain ⟨c, hc, hfold⟩ := hnext
    refine ⟨by omega, beq_iff_eq.mpr htake, ?_⟩
    rw [hc, (foldCase_eq_iff (by decide) c).mp hfold]

/-- Behind the folder's text, the way goes on from the folder. -/
theorem inFolder_of_under (h : Under folder.text path) : InFolder folder path ↔
    Below folder (follow (folder.names.map lower)
      (parts (path.drop (folder.text.length + 1)))) := by
  have hsplit : lower path
      = lower folder.text ++ backslash :: lower (path.drop (folder.text.length + 1)) := by
    obtain ⟨rest, hrest⟩ := under_iff.mp h
    have hlength : (lower folder.text ++ [backslash]).length = folder.text.length + 1 := by
      simp [lower]
    have hbehind : lower (path.drop (folder.text.length + 1)) = rest := by
      rw [lower, List.map_drop, ← lower, ← hrest, ← hlength, List.drop_left]
    rw [hbehind, ← hrest, List.append_assoc, List.singleton_append]
  have hparts : parts path = folder.key ++ parts (path.drop (folder.text.length + 1)) := by
    rw [← parts_text, parts, hsplit, List.splitOnP_append_cons _ _ (by decide)]
    rfl
  have hkey : follow [] (folder.names.map lower) = folder.names.map lower := by
    rw [follow_filter, List.nil_append, List.filter_eq_self]
    · intro name hname
      obtain ⟨n, hn, rfl⟩ := List.mem_map.mp hname
      exact (plain_leads (folder.plain n hn)).1
    · intro hmem
      obtain ⟨n, hn, heq⟩ := List.mem_map.mp hmem
      exact (plain_leads (folder.plain n hn)).2 heq
  rw [InFolder, hparts, FullPath.key, List.cons_append, List.headD_cons, List.tail_cons,
    follow_append, hkey]
  exact and_iff_right rfl

end Paths

/-! ## the mark -/

section Mark

variable {env : Env} {folder : FullPath} (line : RundllLine)

theorem isSystemDll_eq (hwindows : env.windowsDirectory = some folder.text) {file : WString}
    (hne : file ≠ []) :
    isSystemDll env file = true ↔ (backslash ∈ file → Under folder.text file) := by
  rw [isSystemDll, if_neg hne]
  split
  · next h => simp [h]
  · next h =>
    rw [hwindows]
    simp [not_not.mp h]

/-- **The mark is right exactly for the lines that tell their DLL apart.** -/
theorem isSystemDll_target_iff (hwindows : env.windowsDirectory = some folder.text) :
    ((Outside folder line.dll → isSystemDll env line.target = false) ∧
      (Own folder line.dll → isSystemDll env line.target = true)) ↔ Told folder line := by
  have hsystem := isSystemDll_eq hwindows line.target_ne
  rw [← Bool.not_eq_true, hsystem, Told]
  cases h : line.switches with
  | nil =>
    have htarget : line.target = line.dll := by rw [RundllLine.target, h]
    rw [htarget]
    dsimp only
    by_cases hbackslash : backslash ∈ line.dll
    · have hpath : IsPath line.dll := .inl hbackslash
      rw [if_neg (not_not.mpr hbackslash)]
      by_cases hunder : Under folder.text line.dll
      · -- marked: right unless the names behind the folder's lead out of it
        rw [if_pos (under_iff.mp hunder), ← inFolder_of_under hunder]
        simp [hunder, Outside, hpath]
      · -- not marked: right unless it is in the folder all the same
        rw [if_neg (mt under_iff.mpr hunder), spelled_iff]
        simp [hunder, hbackslash, Own, Bare, hpath]
    · rw [if_pos hbackslash]
      simp [hbackslash, Outside, IsPath]
  | cons s switches =>
    obtain ⟨switch, n⟩ := s
    have htarget : line.target = switch.takeWhile (· ≠ comma) := by rw [RundllLine.target, h]
    have hnot := line.not_under_switch folder (h ▸ List.mem_cons_self)
    rw [htarget]
    dsimp only at hnot ⊢
    generalize switch.takeWhile (· ≠ comma) = first at hnot ⊢
    by_cases hbackslash : backslash ∈ first
    · rw [if_neg (not_not.mpr hbackslash), spelled_iff]
      simp [hbackslash, hnot, Own, not_or]
    · rw [if_pos hbackslash]
      simp [hbackslash, Outside]

end Mark

/-! ## plain paths -/

section Plain

variable {folder : FullPath} {path : WString}

/-- A path of plain names; what is in front of the first backslash is the drive's. -/
def PlainPath (path : WString) : Prop := slash ∉ path ∧ ∀ name ∈ (parts path).tail, Plain name

/-- Plain names are all on the way. -/
theorem follow_plain {names : List WString} (h : ∀ name ∈ names, Plain name) :
    follow [] names = names := by
  rw [follow_filter fun hmem => (h _ hmem).2.2.1 rfl, List.nil_append, List.filter_eq_self]
  intro name hname
  obtain ⟨hnil, hdot, -⟩ := h name hname
  simp [leads, hnil, hdot]

/-- Lines are in front of a text without its last end, if they are its first ones and not all. -/
theorem unlines_prefix_iff {ls ls' : List WString} {text : WString}
    (h : ∀ l ∈ ls, backslash ∉ l) (h' : ∀ l ∈ ls', backslash ∉ l)
    (htext : text ++ [backslash] = unlines backslash ls') :
    unlines backslash ls <+: text ↔ ls <+: ls' ∧ ls.length < ls'.length := by
  constructor
  · intro hp
    have hfirst : ls <+: ls' := by
      refine prefix_of_unlines_prefix h h' ?_
      rw [← htext]
      exact hp.trans (List.prefix_append _ _)
    refine ⟨hfirst, hfirst.length_le.lt_of_ne fun hlength => ?_⟩
    have hle := hp.length_le
    rw [hfirst.eq_of_length hlength, ← htext, List.length_append, List.length_singleton] at hle
    omega
  · rintro ⟨⟨more, rfl⟩, hlength⟩
    have hmore : more ≠ [] := by
      rintro rfl
      simp at hlength
    rw [unlines_append, ← intercalate_append_end hmore, ← List.append_assoc] at htext
    exact ⟨_, (List.append_cancel_right htext).symm⟩

/-- **A plain path is in a folder if the folder's text, and a backslash, are in front of it.** -/
theorem under_iff_inFolder (h : PlainPath path) : Under folder.text path ↔ InFolder folder path := by
  obtain ⟨hslash, hplain⟩ := h
  have hpath : lower path ++ [backslash] = unlines backslash (parts path) := by
    rw [parts_eq hslash, unlines_splitOn]
  have hparts : ∀ name ∈ parts path, backslash ∉ name := by
    intro name hname
    rw [parts_eq hslash] at hname
    exact notMem_of_mem_splitOn hname
  rw [under_iff, folder.lower_text, unlines_prefix_iff folder.notMem_key hparts hpath, InFolder,
    follow_plain hplain, Below]
  obtain ⟨drive, names, hcons⟩ := List.exists_cons_of_ne_nil
    (List.splitOnP_ne_nil isSeparator (lower path))
  rw [parts, hcons, List.headD_cons, List.tail_cons, FullPath.key, List.cons_prefix_cons,
    List.length_cons, List.length_cons, List.length_map, Nat.add_lt_add_iff_right, and_assoc]
  exact and_congr_left fun _ => eq_comm

/-- Without switches, a DLL by a plain path or by its name is told apart. -/
theorem told_of_plain {line : RundllLine} (hswitches : line.switches = [])
    (hplain : PlainPath line.dll) : Told folder line := by
  have hunder : Under folder.text line.dll ↔ InFolder folder line.dll := under_iff_inFolder hplain
  rw [Told, hswitches]
  dsimp only
  split
  · exact fun hslash => absurd hslash hplain.1
  · split
    · next hprefix =>
      have h := under_iff.mpr hprefix
      exact (inFolder_of_under h).mp (hunder.mp h)
    · next hprefix =>
      exact fun hspelled => hprefix (under_iff.mp (hunder.mpr (spelled_iff.mp hspelled).1))

end Plain

/-! ## what `ReadClass` says -/

/-- A path to `rundll32`. -/
def IsRundll (path : WString) : Prop :=
  lower (path.rtakeWhile fun c => c ≠ backslash ∧ c ≠ slash) = wide "rundll32.exe"

instance (path : WString) : Decidable (IsRundll path) := inferInstanceAs (Decidable (_ = _))

theorem interpreterOf_rundll {path : WString} (h : IsRundll path) :
    interpreterOf path = wide "rundll32.exe" := by
  have hname : lower (path.rtakeWhile fun c => c ≠ backslash ∧ c ≠ slash)
      = wide "rundll32.exe" := h
  rw [interpreterOf, hname]
  exact if_pos (by decide)

theorem readServer_rundll {env : Env} {wow64 : Bool} {v : ClassValues} {line : RundllLine}
    (hline : expand env v.localServer wow64 = line.text) (hexe : IsRundll (line.exePath env)) :
    (readServer env wow64 v).interpreterRunsSystemDll = isSystemDll env line.target := by
  have hsome : v.localServer ≠ [] := by
    intro hnil
    rw [hnil] at hline
    have htext : line.text = [] := hline.symm
    have htarget := line.rundllTarget_text
    rw [htext] at htarget
    exact line.target_ne htarget.symm
  rw [readServer, if_pos hsome, hline, line.serverPath_text, line.rundllTarget_text]
  dsimp only
  rw [if_pos (interpreterOf_rundll hexe)]

/-- **A `rundll32` server is marked right exactly if its command line tells its DLL apart**: not
marked for a path outside the Windows folder, and marked for a name or a file in that folder. -/
theorem interpreterRunsSystemDll_iff (env : Env) (folder : FullPath) (wow64 : Bool)
    (v : ClassValues) (line : RundllLine)
    (hwindows : env.windowsDirectory = some folder.text)
    (hline : expand env v.localServer wow64 = line.text) (hexe : IsRundll (line.exePath env)) :
    ((Outside folder line.dll →
        (readServer env wow64 v).interpreterRunsSystemDll = false) ∧
      (Own folder line.dll → (readServer env wow64 v).interpreterRunsSystemDll = true)) ↔
      Told folder line := by
  rw [readServer_rundll hline hexe]
  exact isSystemDll_target_iff line hwindows

/-! ### command lines -/

theorem windows_letter : Letter 0x43 := by decide

theorem windows_plain : ∀ name ∈ [wide "Windows"], Plain name := by decide

def windows : FullPath := ⟨0x43, [wide "Windows"], windows_letter, windows_plain⟩

/-- A system without environment variables. -/
def system : Env where
  expandEnvironment _ := none
  windowsDirectory := some windows.text
  systemDirectory := none
  systemWow64Directory := none
  isThere _ := true

section Lines

variable (switches : List (WString × ℕ)) (dll : WString)

/-- What a DLL without quotes is. -/
def Unquoted (dll : WString) : Prop :=
  dll ≠ [] ∧ dll.head? ≠ some quote ∧ dll.head? ≠ some slash ∧ dll.head? ≠ some 0x2D ∧
    space ∉ dll ∧ comma ∉ dll

instance : DecidablePred Unquoted := fun _ => inferInstanceAs (Decidable (_ ∧ _))

theorem rundll_plain : false = false → (wide "rundll32.exe").head? ≠ some quote ∧
    (wide "rundll32.exe").head? ≠ some space ∧
    find (wide ".exe") (lower (wide "rundll32.exe"))
      = some ((wide "rundll32.exe").length - 4) := fun _ => by decide

/-- `rundll32.exe`, switches and a DLL, without quotes. -/
def rundll (hswitch : ∀ s ∈ switches, (s.1.head? = some slash ∨ s.1.head? = some 0x2D) ∧
    space ∉ s.1) (hdll : Unquoted dll) : RundllLine where
  lead := 0
  exeInQuotes := false
  exe := wide "rundll32.exe"
  gap := 0
  switches
  dllInQuotes := false
  dll
  call := wide "Run"
  exe_quoted := nofun
  exe_plain := rundll_plain
  switch := hswitch
  dll_ne := hdll.1
  dll_quoted := nofun
  dll_plain _ := hdll.2

end Lines

theorem noSwitches : ∀ s ∈ ([] : List (WString × ℕ)),
    (s.1.head? = some slash ∨ s.1.head? = some 0x2D) ∧ space ∉ s.1 := nofun

theorem shell32_unquoted : Unquoted (wide "c:\\windows\\system32\\shell32.dll") := by decide

def shell32 : RundllLine :=
  rundll [] (wide "c:\\windows\\system32\\shell32.dll") noSwitches shell32_unquoted

theorem interpreterRunsSystemDll_shell32 :
    (readServer system false { localServer := shell32.text }).interpreterRunsSystemDll = true :=
  ((interpreterRunsSystemDll_iff system windows false { localServer := shell32.text } shell32
    rfl (by decide) (by decide)).mpr (told_of_plain rfl ⟨by decide, by decide⟩)).2 (by decide)

theorem evilSwitch : ∀ s ∈ [(wide "/d", 0)],
    (s.1.head? = some slash ∨ s.1.head? = some 0x2D) ∧ space ∉ s.1 := by decide

theorem evil_unquoted : Unquoted (wide "C:\\evil.dll") := by decide

/-- `rundll32.exe /d C:\evil.dll,Run` -/
def evilAfterSwitch : RundllLine :=
  rundll [(wide "/d", 0)] (wide "C:\\evil.dll") evilSwitch evil_unquoted

theorem evilSlash_unquoted : Unquoted (wide "C:/evil.dll") := by decide

def evilSlash : RundllLine := rundll [] (wide "C:/evil.dll") noSwitches evilSlash_unquoted

theorem evilAbove_unquoted : Unquoted (wide "C:\\Windows\\..\\evil.dll") := by decide

def evilAbove : RundllLine :=
  rundll [] (wide "C:\\Windows\\..\\evil.dll") noSwitches evilAbove_unquoted

/-- `rundll32.exe` is run for a DLL outside the Windows folder that is marked as Windows' own. -/
def Mistaken (line : RundllLine) : Prop :=
  IsRundll (line.exePath system) ∧ Outside windows line.dll ∧
    (readServer system false { localServer := line.text }).interpreterRunsSystemDll = true

instance : DecidablePred Mistaken := fun _ => inferInstanceAs (Decidable (_ ∧ _))

theorem interpreterRunsSystemDll_evil :
    Mistaken evilAfterSwitch ∧ Mistaken evilSlash ∧ Mistaken evilAbove := by decide

end WinSys.Com
