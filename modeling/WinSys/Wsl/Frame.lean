import WinSys.Wsl.Stat

/-!
# A frame of clean texts

A frame is read as it was printed when no name has a line end and no line of a command line is a
mark or a file header.

* `scriptLines`: the lines of a frame
* `Listing.frame`: what the frame says
* `parseFrame_script`, `cutFrame_script`
-/

namespace WinSys.Wsl

open Infra

/-! ## what a frame says -/

/-- A line after the text before it: a line end is shown as a space, but not before all text. -/
def joinLine (text line : Bytes) : Bytes := (if text = [] then [] else text ++ [space]) ++ line

namespace LinuxProcess

variable (conv : Conversions) (p : LinuxProcess)

/-- The command line's lines. -/
def commandLines : List Bytes := (p.cmdlineText.splitOn newline).map withoutReturn

def commandText : Bytes := trimEnd (p.commandLines.foldl joinLine [])

/-- A row of the list. -/
def row (system : WslSystem) : WslProcess :=
  { p.stat.read conv system.pageSize p.pid p.comm with
    uid := p.uid
    user := (system.users.lookup p.uid).getD (decimal p.uid.toNat)
    commandLine := conv.fromUtf8 p.commandText }

def threadRows (system : WslSystem) : List WslThread :=
  p.threads.map fun t => (t.stat.read conv system.pageSize t.tid t.comm).thread p.pid

/-- No line end in its name, and in its threads' if they are asked for. -/
def CleanNames (threads : Bool) : Prop :=
  newline ∉ p.comm ∧ (threads = true → ∀ t ∈ p.threads, newline ∉ t.comm)

/-- A line that is read as text. -/
def IsText (line : Bytes) : Prop :=
  line ≠ ascii "#F" ∧ sectionOf line = none ∧ isFileHeader line = false

instance (line : Bytes) : Decidable (IsText line) :=
  inferInstanceAs (Decidable (_ ∧ _ ∧ _))

/-- No mark and no file header among the lines of its command line. -/
def CleanCommand : Prop := ∀ line ∈ p.commandLines, IsText line

def Clean (threads : Bool) : Prop := p.CleanNames threads ∧ p.CleanCommand

instance (threads : Bool) : Decidable (p.Clean threads) :=
  inferInstanceAs (Decidable ((_ ∧ (threads = true → ∀ t ∈ p.threads, newline ∉ t.comm))
    ∧ ∀ line ∈ p.commandLines, IsText line))

end LinuxProcess

def Machine.frame (conv : Conversions) (m : Machine) : WslFrame where
  uptimeSeconds := conv.strtod m.uptime.val
  cpuTotalTicks := (m.cpu.take 8).sum
  cpuIdleTicks := ((m.cpu.drop 3).take 2).sum
  memTotal := m.memTotal * 1024
  memAvailable := m.memAvailable * 1024

namespace Listing

variable (conv : Conversions) (system : WslSystem) (l : Listing)

/-- The parent of the helper, if it is a relay. -/
def isRelay (p : LinuxProcess) : Bool :=
  l.processes.any fun helper => helper.pid = system.helperPid && helper.stat.ppid = p.pid
    && relayPrefix.isPrefixOf (conv.fromUtf8 p.comm)

/-- The parent of the relay, if it is a session leader. -/
def isLeader (p : LinuxProcess) : Bool :=
  l.processes.any fun relay => l.isRelay conv system relay && relay.stat.ppid = p.pid
    && conv.fromUtf8 p.comm = sessionLeader

/-- The helper, its children, its relay and its session leader. -/
def isHidden (p : LinuxProcess) : Bool :=
  system.helperPid ≠ 0 && (p.pid = system.helperPid || p.stat.ppid = system.helperPid
    || l.isRelay conv system p || l.isLeader conv system p)

def shown : List LinuxProcess := l.processes.filter fun p => !l.isHidden conv system p

def frame (threads : Bool) : WslFrame :=
  { l.machine.frame conv with
    processes := (l.shown conv system).map (LinuxProcess.row conv · system)
    hasThreads := threads
    threads := if threads then (l.shown conv system).flatMap (LinuxProcess.threadRows conv · system)
      else [] }

end Listing

/-! ## the lines of a frame -/

namespace LinuxProcess

variable (p : LinuxProcess)

def cmdlineHeader : Bytes := ascii "==> " ++ p.cmdlinePath ++ ascii " <=="

def threadHeader (t : LinuxThread) : Bytes := ascii "==> " ++ p.threadPath t ++ ascii " <=="

/-- The header and the text of the command line. -/
def cmdlineLines : List Bytes := p.cmdlineHeader :: p.cmdlineText.splitOn newline

def threadLines : List (List Bytes) :=
  p.threads.map fun t => [p.threadHeader t, firstLine t.statFile]

end LinuxProcess

namespace Listing

variable (l : Listing)

def cmdlineLines : List Bytes := l.processes.flatMap LinuxProcess.cmdlineLines

/-- Between two threads there is an empty line. -/
def threadLines : List Bytes := [[]].intercalate (l.processes.flatMap LinuxProcess.threadLines)

def statLines : List Bytes := l.processes.flatMap fun p => p.statFile.splitOn newline

/-- The lines before the end mark. -/
def bodyLines (threads : Bool) : List Bytes :=
  ascii "#F" :: l.machine.lines ++ (ascii "#S" :: l.statLines)
    ++ (ascii "#U" :: l.processes.map LinuxProcess.uidLine) ++ (ascii "#C" :: l.cmdlineLines)
    ++ if threads then ascii "#T" :: l.threadLines else []

theorem headFiles_of_two {files : List (Bytes × Bytes)} (h : 2 ≤ files.length) :
    headFiles files = [newline].intercalate (files.map fun file =>
      ascii "==> " ++ file.1 ++ ascii " <==" ++ newline :: file.2) := by
  match files, h with
  | _ :: _ :: _, _ => rfl

theorem ne_nil : l.processes ≠ [] := by
  intro h
  have htwo := l.two
  rw [h] at htwo
  simp at htwo

theorem unlines_flatMap {α : Type*} (xs : List α) (f : α → List Bytes) :
    unlines newline (xs.flatMap f) = xs.flatMap fun x => unlines newline (f x) := by
  simp [unlines, List.flatMap_assoc]

theorem head_cmdlines :
    headFiles l.cmdlineFiles ++ [newline] = unlines newline l.cmdlineLines := by
  have htwo : 2 ≤ l.cmdlineFiles.length := by
    rw [cmdlineFiles, List.length_map]
    exact l.two
  have hne : l.cmdlineFiles ≠ [] := by
    intro h
    rw [h] at htwo
    simp at htwo
  rw [headFiles_of_two htwo, intercalate_append_end (by simpa using hne), cmdlineLines,
    unlines_flatMap, cmdlineFiles, List.map_map, unlines, List.flatMap_map]
  refine List.flatMap_congr fun p _ => ?_
  rw [LinuxProcess.cmdlineLines, unlines_cons, unlines_splitOn]
  simp [LinuxProcess.cmdlineHeader]

theorem two_threads : 2 ≤ (l.processes.flatMap LinuxProcess.threadLines).length := by
  have hone : ∀ p : LinuxProcess, 1 ≤ p.threadLines.length := by
    intro p
    rw [LinuxProcess.threadLines, List.length_map]
    exact List.length_pos_iff.mpr p.threads_ne
  match l.processes, l.two with
  | p :: q :: ps, _ =>
    have hp := hone p
    have hq := hone q
    simp only [List.flatMap_cons, List.length_append]
    omega

theorem intercalate_unlines {xs : List (List Bytes)} (h : xs ≠ []) :
    [newline].intercalate (xs.map (unlines newline)) = unlines newline ([[]].intercalate xs) := by
  induction xs with
  | nil => exact absurd rfl h
  | cons x xs ih =>
    cases xs with
    | nil => simp
    | cons y ys =>
      rw [List.map_cons, List.map_cons, List.intercalate_cons_cons, ← List.map_cons, ih (by simp),
        List.intercalate_cons_cons, unlines_append, unlines_append]
      simp [unlines]

theorem head_threads : headFiles l.threadFiles = unlines newline l.threadLines := by
  have hmap : (l.threadFiles.map fun file : Bytes × Bytes =>
      ascii "==> " ++ file.1 ++ ascii " <==" ++ newline :: file.2)
      = (l.processes.flatMap LinuxProcess.threadLines).map (unlines newline) := by
    rw [threadFiles, List.map_flatMap, List.map_flatMap]
    refine List.flatMap_congr fun p _ => ?_
    rw [LinuxProcess.threadLines, List.map_map, List.map_map]
    refine List.map_congr_left fun t _ => ?_
    simp [unlines, LinuxProcess.threadHeader]
  have htwo := l.two_threads
  have hfiles : 2 ≤ l.threadFiles.length := by
    have hlength := congrArg List.length hmap
    rw [List.length_map, List.length_map] at hlength
    omega
  rw [headFiles_of_two hfiles, hmap, threadLines, intercalate_unlines]
  intro h
  rw [h] at htwo
  simp at htwo

/-- **A frame's text is its lines.** -/
theorem script_eq (threads : Bool) :
    l.script threads = unlines newline (l.bodyLines threads) ++ unlines newline [ascii "#E"] := by
  have hstat : unlines newline (l.processes.map LinuxProcess.statFile)
      = unlines newline l.statLines := by
    rw [statLines, unlines_flatMap, unlines, List.flatMap_map]
    refine List.flatMap_congr fun p _ => ?_
    rw [unlines_splitOn]
  have hcmd : ∀ rest, headFiles l.cmdlineFiles ++ newline :: rest
      = unlines newline l.cmdlineLines ++ rest := by
    intro rest
    rw [← l.head_cmdlines]
    simp
  unfold script bodyLines
  rw [unlines_cons (ascii "#S"), hstat, ← unlines_cons]
  cases threads with
  | false => simp [unlines_cons, hcmd]
  | true => simp [unlines_cons, hcmd, head_threads]

end Listing

/-! ## characters of lines -/

/-- No line end and no carriage return. -/
def Printed (line : Bytes) : Prop := ∀ ch ∈ line, ch ≠ newline ∧ ch ≠ carriageReturn

theorem Printed.append {a b : Bytes} (ha : Printed a) (hb : Printed b) : Printed (a ++ b) := by
  intro ch hch
  cases List.mem_append.mp hch with
  | inl h => exact ha ch h
  | inr h => exact hb ch h

theorem Printed.cons {ch : UInt8} {a : Bytes} (hch : ch ≠ newline ∧ ch ≠ carriageReturn)
    (ha : Printed a) : Printed (ch :: a) := by
  intro c hc
  cases List.mem_cons.mp hc with
  | inl h => exact h ▸ hch
  | inr h => exact ha c h

theorem Printed.flatMap {α : Type*} {xs : List α} {f : α → Bytes} (h : ∀ x ∈ xs, Printed (f x)) :
    Printed (xs.flatMap f) := by
  intro ch hch
  obtain ⟨x, hx, hmem⟩ := List.mem_flatMap.mp hch
  exact h x hx ch hmem

theorem Printed.notMem {line : Bytes} (h : Printed line) : newline ∉ line := fun hmem =>
  (h newline hmem).1 rfl

theorem Printed.withoutReturn {line : Bytes} (h : Printed line) : withoutReturn line = line := by
  rw [Wsl.withoutReturn, if_neg]
  intro hlast
  exact (h carriageReturn (List.mem_of_getLast? hlast)).2 rfl

theorem printed_of_statChars {line : Bytes} (h : ∀ ch ∈ line, isStatChar ch = true) :
    Printed line := fun ch hch =>
  ⟨(isStatChar_ne (h ch hch)).2.1, (isStatChar_ne (h ch hch)).2.2.1⟩

theorem printed_decimalText (n : ℕ) : Printed (decimalText n) := by
  refine printed_of_statChars fun ch hch => ?_
  rw [isStatChar, isNumeric_of_mem_decimalText hch]
  rfl

theorem printed_field (f : Field) : Printed f.val := by
  refine printed_of_statChars fun ch hch => ?_
  rw [isStatChar, f.property.2 ch hch]
  rfl

instance (line : Bytes) : Decidable (Printed line) :=
  inferInstanceAs (Decidable (∀ ch ∈ line, ch ≠ newline ∧ ch ≠ carriageReturn))

/-- A line that neither begins nor ends a section. -/
def Plain (line : Bytes) : Prop := line ≠ ascii "#F" ∧ sectionOf line = none

/-- Marks begin with a number sign. -/
theorem plain_of_head {line : Bytes} (h : line.head? ≠ some 35) : Plain line := by
  have hne : ∀ mark : Bytes, mark.head? = some 35 → line ≠ mark := by
    intro mark hmark heq
    exact h (heq ▸ hmark)
  refine ⟨hne _ rfl, ?_⟩
  rw [sectionOf, if_neg (hne _ rfl), if_neg (hne _ rfl), if_neg (hne _ rfl), if_neg (hne _ rfl),
    if_neg (hne _ rfl)]

theorem head_decimalText {n : ℕ} {rest : Bytes} : (decimalText n ++ rest).head? ≠ some 35 := by
  have hne := decimalText_ne_nil n
  cases htext : decimalText n with
  | nil => exact absurd htext hne
  | cons ch text =>
    intro hhead
    have hch : ch = 35 := Option.some.inj hhead
    have hdigit := isDigit_of_mem_decimalText (htext ▸ List.mem_cons_self : ch ∈ decimalText n)
    rw [hch] at hdigit
    exact absurd hdigit (by decide)

theorem statText_printed {pid : UInt32} {comm : Bytes} {s : Stat} (h : newline ∉ comm) :
    newline ∉ statText pid comm s ∧ withoutReturn (statText pid comm s) = statText pid comm s := by
  have htail : Printed (s.fields.flatMap (space :: ·)) := by
    refine Printed.flatMap fun f hf => Printed.cons (by decide) ?_
    exact printed_of_statChars (s.isStatChar_of_mem_fields hf).2
  constructor
  · intro hmem
    simp only [statText, List.mem_append, List.mem_cons] at hmem
    rcases hmem with hpid | hparen | hcomm | hparen | htailMem
    · exact (printed_decimalText _).notMem hpid
    · exact absurd hparen (by decide)
    · exact h hcomm
    · exact absurd hparen (by decide)
    · exact htail.notMem htailMem
  · -- the last character is a field's
    rw [withoutReturn, if_neg]
    intro hlast
    have hsplit : statText pid comm s = (decimalText pid.toNat ++ ascii " (" ++ comm)
        ++ 41 :: s.fields.flatMap (space :: ·) := by
      simp [statText]
    rw [hsplit, List.getLast?_append_of_ne_nil _ (by simp)] at hlast
    have hmem := List.mem_of_getLast? hlast
    cases List.mem_cons.mp hmem with
    | inl hparen => exact absurd hparen (by decide)
    | inr hmem => exact (htail _ hmem).2 rfl

end WinSys.Wsl
