import WinSys.Wsl.Frame

/-!
# Reading a frame

What each section leaves when its lines are as the helper prints them.

* `readLines_cmdlines`: each process gets its own command line
* `parseFrame_script`, `cutFrame_script`: a frame of clean texts
-/

namespace WinSys.Wsl

open Infra

section Sections

variable {conv : Conversions} {pageSize : UInt32} {r : Reader} {line : Bytes}

/-! ## one line -/

theorem readLine_plain (hended : r.ended = false) (hplain : Plain line) :
    r.readLine conv pageSize line
      = match r.current with
        | .none => r
        | .header => r.readHeader conv line
        | .stat => r.readStat conv pageSize line
        | .uid => r.readUid line
        | .cmdline => r.readCmdline conv line
        | .thread => r.readThread conv pageSize line := by
  cases hcurrent : r.current <;> simp [Reader.readLine, hended, hplain.1, hplain.2, hcurrent]

theorem readLine_header (hended : r.ended = false) (hcurrent : r.current = .header)
    (hplain : Plain line) : r.readLine conv pageSize line = r.readHeader conv line := by
  rw [readLine_plain hended hplain, hcurrent]

theorem readLine_stat (hended : r.ended = false) (hcurrent : r.current = .stat)
    (hplain : Plain line) : r.readLine conv pageSize line = r.readStat conv pageSize line := by
  rw [readLine_plain hended hplain, hcurrent]

theorem readLine_uid (hended : r.ended = false) (hcurrent : r.current = .uid)
    (hplain : Plain line) : r.readLine conv pageSize line = r.readUid line := by
  rw [readLine_plain hended hplain, hcurrent]

theorem readLine_cmdline (hended : r.ended = false) (hcurrent : r.current = .cmdline)
    (hplain : Plain line) : r.readLine conv pageSize line = r.readCmdline conv line := by
  rw [readLine_plain hended hplain, hcurrent]

theorem readLine_thread (hended : r.ended = false) (hcurrent : r.current = .thread)
    (hplain : Plain line) : r.readLine conv pageSize line = r.readThread conv pageSize line := by
  rw [readLine_plain hended hplain, hcurrent]

theorem readLine_mark (hended : r.ended = false) (hF : line ≠ ascii "#F") {next : Section}
    (hmark : sectionOf line = some next) :
    r.readLine conv pageSize line = r.enter conv line next := by
  rw [Reader.readLine, if_neg (by simp [hended]), if_neg hF, hmark]

@[simp]
theorem readLines_nil : r.readLines conv pageSize [] = r := rfl

@[simp]
theorem readLines_cons (ls : List Bytes) : r.readLines conv pageSize (line :: ls)
    = (r.readLine conv pageSize line).readLines conv pageSize ls := rfl

@[simp]
theorem readLines_append (ls ls' : List Bytes) : r.readLines conv pageSize (ls ++ ls')
    = (r.readLines conv pageSize ls).readLines conv pageSize ls' :=
  List.foldl_append

/-! ## the header -/

theorem split_number_kb (n : ℕ) :
    split (decimalText n ++ ascii " kB") = [decimalText n, ascii "kB"] := by
  have hnumber : IsField (decimalText n) := ⟨decimalText_ne_nil n, fun ch hch =>
    (isStatChar_ne (by rw [isStatChar, isNumeric_of_mem_decimalText hch]; rfl)).2.2.2⟩
  have hkb : IsField (ascii "kB") := ⟨by decide, by decide⟩
  have hspace : ascii " kB" = space :: ascii "kB" := rfl
  rw [hspace, split_field_blank hnumber (by decide), split_field hkb]

/-- A line of `/proc/meminfo`. -/
theorem split_meminfo {name : Bytes} (hname : IsField name) {width : ℕ} (hwidth : 0 < width)
    (kilobytes : UInt64) :
    split (name ++ (padding width kilobytes ++ (decimalText kilobytes.toNat ++ ascii " kB")))
      = [name, decimalText kilobytes.toNat, ascii "kB"] := by
  have hpad : ∃ n, padding width kilobytes = space :: List.replicate n space := by
    refine ⟨width + (8 - (decimalText kilobytes.toNat).length) - 1, ?_⟩
    rw [padding, ← List.replicate_succ]
    congr 1
    omega
  obtain ⟨n, hpad⟩ := hpad
  have hblanks : ∀ b ∈ List.replicate n space, isBlank b = true := by
    intro b hb
    rw [List.eq_of_mem_replicate hb]
    decide
  rw [hpad, List.cons_append, split_field_blank hname (by decide), split_blanks hblanks,
    split_number_kb]

theorem isField_field (f : Field) : IsField f.val := ⟨f.property.1, fun ch hch =>
  (isStatChar_ne (by rw [isStatChar, f.property.2 ch hch]; rfl)).2.2.2⟩

theorem isField_decimalText (n : ℕ) : IsField (decimalText n) := ⟨decimalText_ne_nil n,
  fun ch hch => (isStatChar_ne (by rw [isStatChar, isNumeric_of_mem_decimalText hch]; rfl)).2.2.2⟩

theorem toNumber_decimalText_nil (n : UInt64) : toNumber (decimalText n.toNat) = n := by
  have h := @toNumber_decimalText n [] (by simp)
  rwa [List.append_nil] at h

/-- The first character of a field is a number's. -/
theorem not_prefix_field {f : Field} {pat text : Bytes} (hne : pat ≠ [])
    (hpat : ∀ ch ∈ pat.head?, isNumeric ch = false) : ¬ pat <+: f.val ++ text := by
  obtain ⟨bs, hbs, hnumeric⟩ := f
  cases bs with
  | nil => exact absurd rfl hbs
  | cons b bs =>
    cases pat with
    | nil => exact absurd rfl hne
    | cons ch pat =>
      intro hp
      have hb := hnumeric b List.mem_cons_self
      rw [← (List.cons_prefix_cons.mp hp).1, hpat ch rfl] at hb
      cases hb

theorem head_field {f : Field} {text : Bytes} : (f.val ++ text).head? ≠ some 35 := by
  obtain ⟨bs, hne, hnumeric⟩ := f
  cases bs with
  | nil => exact absurd rfl hne
  | cons b bs =>
    intro hhead
    have hb := hnumeric b List.mem_cons_self
    rw [Option.some.inj hhead] at hb
    exact absurd hb (by decide)

theorem readHeader_uptime (m : Machine) (hframe : r.frame = {}) :
    r.readHeader conv (m.uptime.val ++ space :: m.idle.val)
      = { r with frame := { uptimeSeconds := conv.strtod m.uptime.val } } := by
  have hfields : split (m.uptime.val ++ space :: m.idle.val) = [m.uptime.val, m.idle.val] := by
    rw [split_field_blank (isField_field _) (by decide), split_field (isField_field _)]
  have hcpu : ¬ ascii "cpu " <+: m.uptime.val ++ space :: m.idle.val :=
    not_prefix_field (by decide) (by decide)
  have htotal : ¬ ascii "MemTotal:" <+: m.uptime.val ++ space :: m.idle.val :=
    not_prefix_field (by decide) (by decide)
  have havailable : ¬ ascii "MemAvailable:" <+: m.uptime.val ++ space :: m.idle.val :=
    not_prefix_field (by decide) (by decide)
  rw [Reader.readHeader, hfields, if_neg hcpu, if_neg fun h => htotal h.1,
    if_neg fun h => havailable h.1, if_pos (by simp [hframe]), hframe]
  rfl

theorem readHeader_cpu (cpu : List UInt64) (frame : WslFrame)
    (htotal : frame.cpuTotalTicks = 0) (hidle : frame.cpuIdleTicks = 0) :
    { r with frame := frame }.readHeader conv
        (ascii "cpu " ++ cpu.flatMap fun ticks : UInt64 => space :: decimalText ticks.toNat)
      = { r with frame := { frame with
          cpuTotalTicks := (cpu.take 8).sum, cpuIdleTicks := ((cpu.drop 3).take 2).sum } } := by
  have hfields : split (ascii "cpu " ++
        cpu.flatMap fun ticks : UInt64 => space :: decimalText ticks.toNat)
      = ascii "cpu" :: cpu.map fun ticks : UInt64 => decimalText ticks.toNat := by
    have hspace : ascii "cpu " = ascii "cpu" ++ [space] := rfl
    have hall : ∀ f ∈ cpu.map fun ticks : UInt64 => decimalText ticks.toNat, IsField f := by
      intro f hf
      obtain ⟨ticks, -, rfl⟩ := List.mem_map.mp hf
      exact isField_decimalText _
    have hsplit := @split_fields space (by decide) _ hall
    rw [List.flatMap_map] at hsplit
    rw [hspace, List.append_assoc, List.singleton_append,
      split_field_blank ⟨by decide, by decide⟩ (by decide), hsplit]
  have hticks : (((ascii "cpu" ::
      cpu.map fun ticks : UInt64 => decimalText ticks.toNat).drop 1).take 8).map toNumber = cpu.take 8 := by
    rw [List.drop_one, List.tail_cons, ← List.map_take, List.map_map]
    refine (List.map_congr_left fun ticks _ => ?_).trans (List.map_id _)
    exact toNumber_decimalText_nil ticks
  have hidleTicks : ((cpu.take 8).drop 3).take 2 = (cpu.drop 3).take 2 := by
    rw [List.drop_take, List.take_take]
    rfl
  rw [Reader.readHeader, if_pos (List.prefix_append _ _), hfields, WslFrame.addCpu, hticks,
    hidleTicks, List.sum_eq_foldl, List.sum_eq_foldl, htotal, hidle]

theorem readHeader_memTotal (n : UInt64) (frame : WslFrame) :
    { r with frame := frame }.readHeader conv
        (ascii "MemTotal:" ++ (padding 7 n ++ (decimalText n.toNat ++ ascii " kB")))
      = { r with frame := { frame with memTotal := n * 1024 } } := by
  have hname : IsField (ascii "MemTotal:") := ⟨by decide, by decide⟩
  have hfields := split_meminfo hname (show 0 < 7 by omega) n
  have hcpu : ∀ text, ¬ ascii "cpu " <+: ascii "MemTotal:" ++ text := by
    intro text hp
    exact absurd (List.cons_prefix_cons.mp hp).1 (by decide)
  rw [Reader.readHeader, hfields, if_neg (hcpu _), if_pos ⟨List.prefix_append _ _, by simp⟩]
  simp [toNumber_decimalText_nil]

theorem readHeader_memAvailable (n : UInt64) (frame : WslFrame) :
    { r with frame := frame }.readHeader conv
        (ascii "MemAvailable:" ++ (padding 3 n ++ (decimalText n.toNat ++ ascii " kB")))
      = { r with frame := { frame with memAvailable := n * 1024 } } := by
  have hname : IsField (ascii "MemAvailable:") := ⟨by decide, by decide⟩
  have hfields := split_meminfo hname (show 0 < 3 by omega) n
  have hcpu : ∀ text, ¬ ascii "cpu " <+: ascii "MemAvailable:" ++ text := by
    intro text hp
    exact absurd (List.cons_prefix_cons.mp hp).1 (by decide)
  have htotal : ∀ text, ¬ ascii "MemTotal:" <+: ascii "MemAvailable:" ++ text := by
    intro text hp
    have hshort : ascii "MemTotal:" <+: ascii "MemAvailable:" :=
      List.prefix_of_prefix_length_le hp (List.prefix_append _ _) (by decide)
    exact absurd hshort (by decide)
  rw [Reader.readHeader, hfields, if_neg (hcpu _), if_neg fun h => htotal _ h.1,
    if_pos ⟨List.prefix_append _ _, by simp⟩]
  simp [toNumber_decimalText_nil]

theorem machine_lines_plain (m : Machine) : ∀ line ∈ m.lines, Plain line := by
  intro line hline
  refine plain_of_head ?_
  simp only [Machine.lines, List.mem_cons, List.not_mem_nil, or_false] at hline
  rcases hline with rfl | rfl | rfl | rfl
  · exact head_field
  all_goals simp [ascii]

theorem readLines_machine (m : Machine) (hended : r.ended = false) (hcurrent : r.current = .header)
    (hframe : r.frame = {}) :
    r.readLines conv pageSize m.lines = { r with frame := m.frame conv } := by
  have hread : ∀ (frame : WslFrame), ∀ line ∈ m.lines,
      { r with frame := frame }.readLine conv pageSize line
        = { r with frame := frame }.readHeader conv line := by
    intro frame line hline
    exact @readLine_header _ _ { r with frame := frame } _ hended hcurrent
      (machine_lines_plain m line hline)
  have hself : r = { r with frame := r.frame } := rfl
  rw [Machine.lines] at hread ⊢
  rw [readLines_cons, hself, hread _ _ (by simp), ← hself, readHeader_uptime m hframe,
    readLines_cons, hread _ _ (by simp), readHeader_cpu _ _ rfl rfl, readLines_cons,
    hread _ _ (by simp), readHeader_memTotal, readLines_cons, hread _ _ (by simp),
    readHeader_memAvailable, readLines_nil]
  rfl

/-! ## the stat section -/

theorem readLines_stat (hended : r.ended = false) (hcurrent : r.current = .stat)
    {ps : List LinuxProcess} (h : ∀ p ∈ ps, newline ∉ p.comm) :
    r.readLines conv pageSize ((ps.flatMap fun p => p.statFile.splitOn newline).map withoutReturn)
      = { r with frame := { r.frame with
          processes := r.frame.processes
            ++ ps.map fun p => p.stat.read conv pageSize p.pid p.comm } } := by
  induction ps generalizing r with
  | nil => simp
  | cons p ps ih =>
    have hprinted : newline ∉ p.statFile ∧ withoutReturn p.statFile = p.statFile :=
      statText_printed (h p List.mem_cons_self)
    have hplain : Plain p.statFile := plain_of_head head_decimalText
    have hlines : (p.statFile.splitOn newline).map withoutReturn = [p.statFile] := by
      rw [List.splitOn_eq_singleton hprinted.1, List.map_singleton, hprinted.2]
    have hread : r.readStat conv pageSize p.statFile = { r with frame := { r.frame with
        processes := r.frame.processes ++ [p.stat.read conv pageSize p.pid p.comm] } } := by
      rw [Reader.readStat, LinuxProcess.statFile,
        parseStat_statText conv pageSize p.pid p.pid_ne p.comm p.stat]
    rw [List.flatMap_cons, List.map_append, hlines, readLines_append, readLines_cons,
      readLines_nil, readLine_stat hended hcurrent hplain, hread]
    refine (ih ?_ ?_ fun q hq => h q (List.mem_cons_of_mem p hq)).trans ?_
    · exact hended
    · exact hcurrent
    · simp

/-! ## the user IDs -/

theorem pidOfPath_proc (pid : UInt32) {rest : Bytes} (h : ∀ ch ∈ rest.head?, isDigit ch = false) :
    pidOfPath (ascii "/proc/" ++ (decimalText pid.toNat ++ rest)) = pid := by
  have hdrop : (ascii "/proc/" ++ (decimalText pid.toNat ++ rest)).drop 6
      = decimalText pid.toNat ++ rest := List.drop_left' rfl
  rw [pidOfPath, if_pos (List.prefix_append _ _), hdrop, toNumber_decimalText32 pid h]

theorem readUid_uidLine (p : LinuxProcess) :
    r.readUid p.uidLine = { r with uids := r.uids.insert p.pid p.uid } := by
  obtain ⟨path, hpath⟩ : ∃ path, path = ascii "/proc/" ++ decimalText p.pid.toNat
    ++ ascii "/status" := ⟨_, rfl⟩
  obtain ⟨ids, hids⟩ : ∃ ids, ids = (p.uid :: p.uids).flatMap fun uid =>
    tab :: decimalText uid.toNat := ⟨_, rfl⟩
  have hline : p.uidLine = path ++ (ascii ":Uid:" ++ ids) := by
    rw [LinuxProcess.uidLine, ← hpath, ← hids, List.append_assoc]
  have hcolon : (58 : UInt8) ∉ path := by
    intro hmem
    simp only [hpath, List.mem_append] at hmem
    rcases hmem with (hmem | hmem) | hmem
    · exact absurd hmem (by decide)
    · exact notMem_decimalText (by decide) hmem
    · exact absurd hmem (by decide)
  have hfind : find (ascii ":Uid:") p.uidLine = some path.length := by
    rw [hline]
    exact find_append_self hcolon ids
  have hsplit : split (p.uidLine.drop (path.length + 5))
      = decimalText p.uid.toNat :: p.uids.map fun uid => decimalText uid.toNat := by
    have hall : ∀ f ∈ (p.uid :: p.uids).map fun uid : UInt32 => decimalText uid.toNat, IsField f := by
      intro f hf
      obtain ⟨uid, -, rfl⟩ := List.mem_map.mp hf
      exact isField_decimalText _
    have hfields := @split_fields tab (by decide) _ hall
    rw [List.flatMap_map] at hfields
    have hlength : path.length + 5 = (path ++ ascii ":Uid:").length := by
      rw [List.length_append]
      rfl
    rw [hline, ← List.append_assoc, hlength, List.drop_left, hids, hfields, List.map_cons]
  have hpid : pidOfPath p.uidLine = p.pid := by
    rw [hline, hpath, List.append_assoc, List.append_assoc]
    exact pidOfPath_proc p.pid (by simp [ascii]; decide)
  have hnumber : (toNumber (decimalText p.uid.toNat)).toUInt32 = p.uid := by
    have h := @toNumber_decimalText32 p.uid [] (by simp)
    rwa [List.append_nil] at h
  rw [Reader.readUid, hfind]
  dsimp only
  rw [hsplit]
  dsimp only
  rw [hpid, hnumber]

theorem uidLine_printed (p : LinuxProcess) : Printed p.uidLine := by
  refine Printed.append (Printed.append (Printed.append (Printed.append (by decide)
    (printed_decimalText _)) (by decide)) (by decide)) ?_
  exact Printed.flatMap fun uid _ => Printed.cons (by decide) (printed_decimalText _)

theorem readLines_uids (hended : r.ended = false) (hcurrent : r.current = .uid)
    (ps : List LinuxProcess) :
    r.readLines conv pageSize ((ps.map LinuxProcess.uidLine).map withoutReturn)
      = { r with uids := ps.foldl (fun uids p => uids.insert p.pid p.uid) r.uids } := by
  induction ps generalizing r with
  | nil => rfl
  | cons p ps ih =>
    have hplain : Plain p.uidLine := plain_of_head (by simp [LinuxProcess.uidLine, ascii])
    rw [List.map_cons, List.map_cons, (uidLine_printed p).withoutReturn, readLines_cons,
      readLine_uid hended hcurrent hplain, readUid_uidLine]
    refine (ih ?_ ?_).trans rfl
    · exact hended
    · exact hcurrent

/-- The last value inserted for a key is the only one, when the keys are distinct. -/
theorem lookup_foldl_insert {ν : Type*} (f : LinuxProcess → ν) {ps : List LinuxProcess}
    (hnodup : (ps.map LinuxProcess.pid).Nodup) (m : Finmap fun _ : UInt32 => ν) {p : LinuxProcess}
    (hp : p ∈ ps) :
    (ps.foldl (fun m p => m.insert p.pid (f p)) m).lookup p.pid = some (f p) := by
  have hkeep : ∀ (ps : List LinuxProcess) (m : Finmap fun _ : UInt32 => ν) (pid : UInt32),
      pid ∉ ps.map LinuxProcess.pid →
      (ps.foldl (fun m p => m.insert p.pid (f p)) m).lookup pid = m.lookup pid := by
    intro ps
    induction ps with
    | nil => exact fun _ _ _ => rfl
    | cons q ps ih =>
      intro m pid hpid
      rw [List.map_cons, List.mem_cons, not_or] at hpid
      rw [List.foldl_cons, ih _ _ hpid.2, Finmap.lookup_insert_of_ne _ hpid.1]
  induction ps generalizing m with
  | nil => cases hp
  | cons q ps ih =>
    rw [List.map_cons, List.nodup_cons] at hnodup
    rw [List.foldl_cons]
    cases List.mem_cons.mp hp with
    | inl heq =>
      rw [heq, hkeep ps _ _ hnodup.1, Finmap.lookup_insert]
    | inr hmem => exact ih hnodup.2 _ hmem

/-! ## the command lines -/

theorem isFileHeader_append (path : Bytes) :
    isFileHeader (ascii "==> " ++ (ascii "/proc/" ++ path) ++ ascii " <==") = true := by
  rw [isFileHeader, Bool.and_eq_true, decide_eq_true_eq, decide_eq_true_eq]
  refine ⟨?_, List.suffix_append _ _⟩
  have hstart : ascii "==> /proc/" = ascii "==> " ++ ascii "/proc/" := rfl
  rw [hstart, List.append_assoc, List.append_assoc, ← List.append_assoc (ascii "==> ")]
  exact List.prefix_append _ _

/-- A file header is read as one, and for its process. -/
theorem header_reads (pid : UInt32) {file : Bytes} (h : ∀ ch ∈ file.head?, isDigit ch = false)
    (hne : file ≠ []) (hfile : Printed file) :
    let line := ascii "==> " ++ (ascii "/proc/" ++ (decimalText pid.toNat ++ file)) ++ ascii " <=="
    Printed line ∧ Plain line ∧ isFileHeader line = true ∧ pidOfPath (line.drop 4) = pid := by
  refine ⟨?_, plain_of_head (by simp [ascii]), isFileHeader_append _, ?_⟩
  · exact Printed.append (Printed.append (by decide) (Printed.append (by decide)
      (Printed.append (printed_decimalText _) hfile))) (by decide)
  · have hdrop : ∀ text, (ascii "==> " ++ text).drop 4 = text := fun _ => rfl
    rw [List.append_assoc, hdrop, List.append_assoc, List.append_assoc]
    refine pidOfPath_proc pid ?_
    cases file with
    | nil => exact absurd rfl hne
    | cons ch file => exact h

theorem cmdlineHeader_reads (p : LinuxProcess) : Printed p.cmdlineHeader ∧ Plain p.cmdlineHeader
    ∧ isFileHeader p.cmdlineHeader = true ∧ pidOfPath (p.cmdlineHeader.drop 4) = p.pid := by
  have h := @header_reads p.pid (ascii "/cmdline") (by decide) (by decide) (by decide)
  have hline : p.cmdlineHeader = ascii "==> " ++ (ascii "/proc/"
      ++ (decimalText p.pid.toNat ++ ascii "/cmdline")) ++ ascii " <==" := by
    rw [LinuxProcess.cmdlineHeader, LinuxProcess.cmdlinePath, List.append_assoc (ascii "/proc/")]
  rw [hline]
  exact h

/-- Lines of text are joined. -/
theorem readLines_text {ls : List Bytes} (h : ∀ line ∈ ls, LinuxProcess.IsText line)
    (hended : r.ended = false) (hcurrent : r.current = .cmdline) (hpid : r.cmdlinePid ≠ 0) :
    r.readLines conv pageSize ls = { r with cmdline := ls.foldl joinLine r.cmdline } := by
  induction ls generalizing r with
  | nil => rfl
  | cons line ls ih =>
    obtain ⟨hF, hmark, hheader⟩ := h line List.mem_cons_self
    rw [readLines_cons, readLine_cmdline hended hcurrent ⟨hF, hmark⟩, Reader.readCmdline,
      if_neg (by simp [hheader]), if_neg hpid]
    refine (ih (fun l hl => h l (List.mem_cons_of_mem line hl)) ?_ ?_ ?_).trans rfl
    · exact hended
    · exact hcurrent
    · exact hpid

/-- One process's lines. -/
theorem readLines_cmdline {p : LinuxProcess} (h : p.CleanCommand) (hended : r.ended = false)
    (hcurrent : r.current = .cmdline) :
    r.readLines conv pageSize (p.cmdlineLines.map withoutReturn)
      = { r.flushCmdline conv with
          cmdlinePid := p.pid, cmdline := p.commandLines.foldl joinLine [] } := by
  obtain ⟨hprinted, hplain, hheader, hpid⟩ := cmdlineHeader_reads p
  rw [LinuxProcess.cmdlineLines, List.map_cons, hprinted.withoutReturn, readLines_cons,
    readLine_cmdline hended hcurrent hplain, Reader.readCmdline, if_pos hheader, hpid]
  exact readLines_text h hended hcurrent p.pid_ne

/-- What a reader changes in a command line section. -/
structure SameBesides (r r' : Reader) : Prop where
  frame : r'.frame = r.frame
  uids : r'.uids = r.uids
  current : r'.current = r.current
  ended : r'.ended = r.ended
  header : r'.header = r.header
  threadPid : r'.threadPid = r.threadPid

theorem SameBesides.trans {r₁ r₂ r₃ : Reader} (h₁ : SameBesides r₁ r₂) (h₂ : SameBesides r₂ r₃) :
    SameBesides r₁ r₃ where
  frame := h₂.frame.trans h₁.frame
  uids := h₂.uids.trans h₁.uids
  current := h₂.current.trans h₁.current
  ended := h₂.ended.trans h₁.ended
  header := h₂.header.trans h₁.header
  threadPid := h₂.threadPid.trans h₁.threadPid

/-- The command lines with the last one. -/
def Reader.flushed (r : Reader) (conv : Conversions) : Finmap fun _ : UInt32 => WString :=
  (r.flushCmdline conv).commandLines

theorem readLines_cmdlines {ps : List LinuxProcess} (hnodup : (ps.map LinuxProcess.pid).Nodup)
    (h : ∀ p ∈ ps, p.CleanCommand) (hended : r.ended = false) (hcurrent : r.current = .cmdline) :
    let r' := r.readLines conv pageSize ((ps.flatMap LinuxProcess.cmdlineLines).map withoutReturn)
    SameBesides r r' ∧ r'.flushed conv
      = ps.foldl (fun m p => m.insert p.pid (conv.fromUtf8 p.commandText)) (r.flushed conv) := by
  induction ps generalizing r with
  | nil => exact ⟨⟨rfl, rfl, rfl, rfl, rfl, rfl⟩, rfl⟩
  | cons p ps ih =>
    rw [List.map_cons, List.nodup_cons] at hnodup
    have hone := @readLines_cmdline conv pageSize r p (h p List.mem_cons_self) hended hcurrent
    set r₁ := r.readLines conv pageSize (p.cmdlineLines.map withoutReturn) with hr₁
    have hsame : SameBesides r r₁ := by
      rw [hone]
      exact ⟨rfl, rfl, rfl, rfl, rfl, rfl⟩
    have hflushed : r₁.flushed conv
        = (r.flushed conv).insert p.pid (conv.fromUtf8 p.commandText) := by
      rw [hone]
      show (if p.pid = 0 then _ else _) = _
      rw [if_neg p.pid_ne]
      rfl
    obtain ⟨hrest, hlast⟩ := ih hnodup.2 (fun q hq => h q (List.mem_cons_of_mem p hq))
      (hsame.ended.trans hended) (hsame.current.trans hcurrent)
    rw [List.flatMap_cons, List.map_append, readLines_append, ← hr₁]
    refine ⟨hsame.trans hrest, ?_⟩
    rw [hlast, hflushed]
    rfl

/-! ## the threads -/

/-- A process's thread, as the thread section has it. -/
def threadPairs (ps : List LinuxProcess) : List (LinuxProcess × LinuxThread) :=
  ps.flatMap fun p => p.threads.map (p, ·)

theorem threadHeader_reads (p : LinuxProcess) (t : LinuxThread) : Printed (p.threadHeader t)
    ∧ Plain (p.threadHeader t) ∧ isFileHeader (p.threadHeader t) = true
    ∧ pidOfPath ((p.threadHeader t).drop 4) = p.pid := by
  have h := @header_reads p.pid (ascii "/task/" ++ (decimalText t.tid.toNat ++ ascii "/stat"))
    (by simp [ascii]; decide) (by simp [ascii])
    (Printed.append (by decide) (Printed.append (printed_decimalText _) (by decide)))
  have hline : p.threadHeader t = ascii "==> " ++ (ascii "/proc/" ++ (decimalText p.pid.toNat
      ++ (ascii "/task/" ++ (decimalText t.tid.toNat ++ ascii "/stat")))) ++ ascii " <==" := by
    simp only [LinuxProcess.threadHeader, LinuxProcess.threadPath, List.append_assoc]
  rw [hline]
  exact h

/-- One thread's lines. -/
theorem readLines_thread (p : LinuxProcess) {t : LinuxThread} (h : newline ∉ t.comm)
    (hended : r.ended = false) (hcurrent : r.current = .thread) :
    r.readLines conv pageSize ([p.threadHeader t, firstLine t.statFile].map withoutReturn)
      = { r with
          frame := { r.frame with threads := r.frame.threads
            ++ [(t.stat.read conv pageSize t.tid t.comm).thread p.pid] }
          threadPid := 0 } := by
  obtain ⟨hprinted, hplain, hheader, hpid⟩ := threadHeader_reads p t
  have hstat := @statText_printed t.tid t.comm t.stat h
  have hfirst : withoutReturn (firstLine t.statFile) = t.statFile := by
    have hall : firstLine t.statFile = t.statFile := by
      refine List.takeWhile_eq_self_iff.mpr fun ch hch => ?_
      rw [decide_eq_true_eq]
      intro heq
      exact hstat.1 (heq ▸ hch)
    rw [hall]
    exact hstat.2
  have hplainStat : Plain t.statFile := plain_of_head head_decimalText
  have hstatHeader : isFileHeader t.statFile = false := by
    rw [isFileHeader, Bool.and_eq_false_iff, decide_eq_false_iff_not]
    left
    intro hp
    have hne := decimalText_ne_nil t.tid.toNat
    rw [LinuxThread.statFile, statText] at hp
    cases htext : decimalText t.tid.toNat with
    | nil => exact hne htext
    | cons ch text =>
      rw [htext] at hp
      have hdigit := isDigit_of_mem_decimalText (htext ▸ List.mem_cons_self :
        ch ∈ decimalText t.tid.toNat)
      rw [← (List.cons_prefix_cons.mp hp).1] at hdigit
      exact absurd hdigit (by decide)
  rw [List.map_cons, List.map_singleton, hprinted.withoutReturn, hfirst, readLines_cons,
    readLine_thread hended hcurrent hplain, Reader.readThread, if_pos hheader, hpid,
    readLines_cons, readLines_nil,
    @readLine_thread _ _ { r with threadPid := p.pid } _ hended hcurrent hplainStat,
    Reader.readThread, if_neg (by simp [hstatHeader]), if_neg p.pid_ne, LinuxThread.statFile,
    parseStat_statText conv pageSize t.tid t.tid_ne t.comm t.stat]

theorem readLines_threads {pairs : List (LinuxProcess × LinuxThread)}
    (h : ∀ x ∈ pairs, newline ∉ x.2.comm) (hended : r.ended = false)
    (hcurrent : r.current = .thread) (hthreadPid : r.threadPid = 0) :
    r.readLines conv pageSize (([[]].intercalate (pairs.map fun x =>
        [x.1.threadHeader x.2, firstLine x.2.statFile])).map withoutReturn)
      = { r with frame := { r.frame with threads := r.frame.threads ++ pairs.map fun x =>
          (x.2.stat.read conv pageSize x.2.tid x.2.comm).thread x.1.pid } } := by
  induction pairs generalizing r with
  | nil => simp [List.intercalate]
  | cons x pairs ih =>
    have hone := @readLines_thread conv pageSize r x.1 x.2 (h x List.mem_cons_self) hended hcurrent
    cases pairs with
    | nil =>
      rw [List.map_singleton, List.intercalate_singleton, hone]
      simp [← hthreadPid]
    | cons y pairs =>
      have hrest := fun z hz => h z (List.mem_cons_of_mem x hz)
      rw [List.map_cons, List.map_cons, List.intercalate_cons_cons, List.map_append,
        List.map_append, readLines_append, readLines_append]
      generalize r.readLines conv pageSize ([x.1.threadHeader x.2,
        firstLine x.2.statFile].map withoutReturn) = r₁ at hone ⊢
      have hended₁ : r₁.ended = false := by rw [hone]; exact hended
      have hcurrent₁ : r₁.current = .thread := by rw [hone]; exact hcurrent
      have hthreadPid₁ : r₁.threadPid = 0 := by rw [hone]
      -- the empty line between two threads
      have hempty : r₁.readLine conv pageSize (withoutReturn []) = r₁ := by
        rw [readLine_thread hended₁ hcurrent₁ ⟨by decide, rfl⟩, Reader.readThread,
          if_neg (by decide), if_pos hthreadPid₁]
      rw [List.map_singleton, readLines_cons, readLines_nil, hempty]
      refine (ih hrest hended₁ hcurrent₁ hthreadPid₁).trans ?_
      rw [hone]
      simp [← hthreadPid]

end Sections

end WinSys.Wsl
