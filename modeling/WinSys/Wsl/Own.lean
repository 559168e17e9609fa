import WinSys.Wsl.Hidden

/-!
# A frame of clean texts

* `readLines_head`: the reader at the command lines
* `parseFrame_script`: a frame of clean texts is the list of its processes
* `cutFrame_script`: the stream is cut where the frame ends
-/

namespace WinSys.Wsl

open Infra

variable {conv : Conversions} {system : WslSystem} {l : Listing} {pageSize : UInt32}

/-! ## up to the command lines -/

theorem machine_lines_printed (m : Machine) : ∀ line ∈ m.lines, Printed line := by
  have hpadding : ∀ width n, Printed (padding width n) := by
    intro width n ch hch
    rw [List.eq_of_mem_replicate hch]
    decide
  have hkb : ∀ n, Printed (decimalText n ++ ascii " kB") := fun n =>
    (printed_decimalText n).append (by decide)
  intro line hline
  simp only [Machine.lines, List.mem_cons, List.not_mem_nil, or_false] at hline
  rcases hline with rfl | rfl | rfl | rfl
  · exact (printed_field _).append (Printed.cons (by decide) (printed_field _))
  · refine Printed.append (by decide) (Printed.flatMap fun ticks _ => ?_)
    exact Printed.cons (by decide) (printed_decimalText _)
  · exact Printed.append (by decide) ((hpadding _ _).append (hkb _))
  · exact Printed.append (by decide) ((hpadding _ _).append (hkb _))

theorem map_withoutReturn {ls : List Bytes} (h : ∀ line ∈ ls, Printed line) :
    ls.map withoutReturn = ls :=
  (List.map_congr_left fun line hline => (h line hline).withoutReturn).trans (List.map_id _)

/-- The lines to the mark of the command lines. -/
def Listing.headLines (l : Listing) : List Bytes :=
  ascii "#F" :: l.machine.lines ++ (ascii "#S" :: l.statLines)
    ++ (ascii "#U" :: l.processes.map LinuxProcess.uidLine) ++ [ascii "#C"]

theorem bodyLines_eq (threads : Bool) : l.bodyLines threads
    = l.headLines ++ l.cmdlineLines ++ if threads then ascii "#T" :: l.threadLines else [] := by
  simp [Listing.bodyLines, Listing.headLines]

/-- The reader there. -/
def Listing.headReader (l : Listing) (conv : Conversions) (pageSize : UInt32) : Reader where
  frame := { l.machine.frame conv with processes := l.statRows conv pageSize }
  uids := l.processes.foldl (fun uids p => uids.insert p.pid p.uid) ∅
  current := .cmdline
  header := true

/-- A mark that begins neither the threads nor the end. -/
theorem readLine_next {r : Reader} {line : Bytes} {next : Section} (hended : r.ended = false)
    (hcurrent : r.current ≠ .cmdline) (hF : line ≠ ascii "#F") (hmark : sectionOf line = some next)
    (hE : line ≠ ascii "#E") (hT : next ≠ .thread) :
    r.readLine conv pageSize line = { r with current := next } := by
  rw [readLine_mark hended hF hmark, Reader.enter, if_neg hcurrent, if_neg hT, decide_eq_false hE,
    ← hended]

theorem readLines_head (h : ∀ p ∈ l.processes, newline ∉ p.comm) :
    ({} : Reader).readLines conv pageSize (l.headLines.map withoutReturn)
      = l.headReader conv pageSize := by
  have huidLines : ∀ line ∈ l.processes.map LinuxProcess.uidLine, Printed line := by
    intro line hline
    obtain ⟨p, -, rfl⟩ := List.mem_map.mp hline
    exact uidLine_printed p
  have hmarks : withoutReturn (ascii "#F") = ascii "#F" ∧ withoutReturn (ascii "#S") = ascii "#S"
      ∧ withoutReturn (ascii "#U") = ascii "#U" ∧ withoutReturn (ascii "#C") = ascii "#C" := by
    decide
  obtain ⟨hF, hS, hU, hC⟩ := hmarks
  have hheader : ({} : Reader).readLines conv pageSize
      ((ascii "#F" :: l.machine.lines).map withoutReturn)
      = { frame := l.machine.frame conv, current := .header, header := true } := by
    rw [List.map_cons, hF, map_withoutReturn (machine_lines_printed l.machine), readLines_cons]
    exact @readLines_machine conv pageSize { current := .header, header := true } _ rfl rfl rfl
  have hstat : ({ frame := l.machine.frame conv, current := .header, header := true } :
      Reader).readLines conv pageSize ((ascii "#S" :: l.statLines).map withoutReturn)
      = { l.headReader conv pageSize with uids := ∅, current := .stat } := by
    rw [List.map_cons, hS, readLines_cons, readLine_next rfl (by simp) (by decide) rfl (by decide)
      (by decide)]
    exact @readLines_stat conv pageSize
      { frame := l.machine.frame conv, current := .stat, header := true } rfl rfl _ h
  have huid : { l.headReader conv pageSize with uids := ∅, current := .stat }.readLines conv pageSize
        ((ascii "#U" :: l.processes.map LinuxProcess.uidLine).map withoutReturn)
      = { l.headReader conv pageSize with current := .uid } := by
    rw [List.map_cons, hU, readLines_cons, readLine_next rfl (by simp) (by decide) rfl (by decide)
      (by decide)]
    exact @readLines_uids conv pageSize { l.headReader conv pageSize with
      uids := ∅, current := .uid } rfl rfl _
  rw [Listing.headLines, List.map_append, List.map_append, List.map_append, readLines_append,
    readLines_append, readLines_append, hheader, hstat, huid, List.map_singleton, hC,
    readLines_cons, readLines_nil, readLine_next rfl (by simp) (by decide) rfl (by decide)
      (by decide)]
  rfl

/-! ## the rest -/

theorem readLine_end {r : Reader} (hended : r.ended = false) (hcurrent : r.current ≠ .cmdline) :
    r.readLine conv pageSize (ascii "#E") = { r with current := .none, ended := true } := by
  rw [readLine_mark hended (by decide) rfl, Reader.enter, if_neg hcurrent]
  rfl

/-- The reader at the end of a frame, but for what is not looked at any more. -/
structure EndsWith (r : Reader) (frame : WslFrame) (uids : Finmap fun _ : UInt32 => UInt32)
    (commandLines : Finmap fun _ : UInt32 => WString) : Prop where
  frame : r.frame = frame
  uids : r.uids = uids
  commandLines : r.commandLines = commandLines
  ended : r.ended = true
  header : r.header = true

/-- What is left after the command lines: the threads, if any, and the end. -/
def Listing.tailLines (l : Listing) (threads : Bool) : List Bytes :=
  (if threads then ascii "#T" :: l.threadLines else []) ++ [ascii "#E"]

theorem threadLines_eq : l.threadLines = [[]].intercalate ((threadPairs l.processes).map fun x =>
    [x.1.threadHeader x.2, firstLine x.2.statFile]) := by
  rw [Listing.threadLines, threadPairs, List.map_flatMap]
  congr 1
  refine List.flatMap_congr fun p _ => ?_
  rw [LinuxProcess.threadLines, List.map_map]
  rfl

theorem readLines_tail {r : Reader} {threads : Bool} (hended : r.ended = false)
    (hcurrent : r.current = .cmdline) (hheader : r.header = true) (hthreadPid : r.threadPid = 0)
    (hframe : r.frame.hasThreads = false ∧ r.frame.threads = [])
    (h : threads = true → ∀ x ∈ threadPairs l.processes, newline ∉ x.2.comm) :
    EndsWith (r.readLines conv pageSize ((l.tailLines threads).map withoutReturn))
      { r.frame with
        hasThreads := threads
        threads := if threads then (threadPairs l.processes).map fun x =>
            (x.2.stat.read conv pageSize x.2.tid x.2.comm).thread x.1.pid
          else [] }
      r.uids (r.flushed conv) := by
  have hT : withoutReturn (ascii "#T") = ascii "#T" := by decide
  have hE : [ascii "#E"].map withoutReturn = [ascii "#E"] := by decide
  cases threads with
  | false =>
    rw [Listing.tailLines, if_neg (by decide), List.nil_append, hE, readLines_cons, readLines_nil,
      readLine_mark hended (by decide) rfl, Reader.enter, if_pos hcurrent]
    refine ⟨?_, rfl, rfl, rfl, hheader⟩
    show r.frame = _
    rw [if_neg (by decide), ← hframe.1, ← hframe.2]
  | true =>
    obtain ⟨r₁, hr₁⟩ : ∃ r₁, r₁ = r.readLine conv pageSize (ascii "#T") := ⟨_, rfl⟩
    have hr₁' := hr₁
    rw [readLine_mark hended (by decide) rfl, Reader.enter, if_pos hcurrent] at hr₁'
    have hended₁ : r₁.ended = false := by rw [hr₁']; rfl
    have hcurrent₁ : r₁.current = .thread := by rw [hr₁']
    have hthreadPid₁ : r₁.threadPid = 0 := by rw [hr₁']; exact hthreadPid
    have hheader₁ : r₁.header = true := by rw [hr₁']; exact hheader
    have hcommandLines₁ : r₁.commandLines = r.flushed conv := by rw [hr₁']; rfl
    have huids₁ : r₁.uids = r.uids := by rw [hr₁']; rfl
    have hframe₁ : r₁.frame = { r.frame with hasThreads := true } := by rw [hr₁']; rfl
    obtain ⟨r₂, hr₂⟩ : ∃ r₂, r₂ = r₁.readLines conv pageSize (l.threadLines.map withoutReturn) :=
      ⟨_, rfl⟩
    have hr₂' := hr₂
    rw [threadLines_eq, readLines_threads (h rfl) hended₁ hcurrent₁ hthreadPid₁] at hr₂'
    have hended₂ : r₂.ended = false := by rw [hr₂']; exact hended₁
    have hcurrent₂ : r₂.current ≠ .cmdline := by
      rw [hr₂']
      show r₁.current ≠ _
      rw [hcurrent₁]
      decide
    rw [Listing.tailLines, if_pos rfl, List.map_append, hE, List.map_cons, hT, List.cons_append,
      readLines_cons, readLines_append, ← hr₁, ← hr₂, readLines_cons, readLines_nil,
      readLine_end hended₂ hcurrent₂]
    refine ⟨?_, ?_, ?_, rfl, ?_⟩
    · show r₂.frame = _
      rw [hr₂']
      simp only [hframe₁, hframe.2, List.nil_append, if_true]
    · rw [← huids₁, hr₂']
    · rw [← hcommandLines₁, hr₂']
    · rw [← hheader₁, hr₂']

/-! ## the list -/

/-- The threads of the processes shown. -/
theorem filter_threadRows (ps : List LinuxProcess) (f : LinuxProcess → LinuxThread → WslThread)
    (hf : ∀ p t, (f p t).pid = p.pid) {hidden : List UInt32} {q : LinuxProcess → Bool}
    (hq : ∀ p ∈ ps, p.pid ∈ hidden ↔ q p = true) :
    ((threadPairs ps).map fun x => f x.1 x.2).filter (fun t => t.pid ∉ hidden)
      = (ps.filter fun p => !q p).flatMap fun p => p.threads.map (f p) := by
  induction ps with
  | nil => rfl
  | cons p ps ih =>
    have hp := hq p List.mem_cons_self
    have hrest := ih fun p' hp' => hq p' (List.mem_cons_of_mem p hp')
    have hcons : (threadPairs (p :: ps)).map (fun x => f x.1 x.2)
        = p.threads.map (f p) ++ (threadPairs ps).map fun x => f x.1 x.2 := by
      simp [threadPairs]
    rw [hcons, List.filter_append, hrest]
    cases hhidden : q p with
    | true =>
      have hnone : (p.threads.map (f p)).filter (fun t => t.pid ∉ hidden) = [] := by
        refine List.filter_eq_nil_iff.mpr fun t ht => ?_
        obtain ⟨t, -, rfl⟩ := List.mem_map.mp ht
        rw [hf, decide_eq_true_eq, not_not]
        exact hp.mpr hhidden
      rw [hnone, List.filter_cons_of_neg (by simp [hhidden]), List.nil_append]
    | false =>
      have hall : (p.threads.map (f p)).filter (fun t => t.pid ∉ hidden) = p.threads.map (f p) := by
        refine List.filter_eq_self.mpr fun t ht => ?_
        obtain ⟨t, -, rfl⟩ := List.mem_map.mp ht
        rw [hf, decide_eq_true_eq]
        intro hmem
        rw [hp.mp hmem] at hhidden
        cases hhidden
      rw [hall, List.filter_cons_of_pos (by simp [hhidden]), List.flatMap_cons]

/-- The rows of a reader that has every process's user and command line. -/
theorem finish_eq {r : Reader} {threads : Bool} {commandLines : Finmap fun _ : UInt32 => WString}
    (hr : EndsWith r
      { l.machine.frame conv with
        processes := l.statRows conv system.pageSize
        hasThreads := threads
        threads := if threads then (threadPairs l.processes).map fun x =>
            (x.2.stat.read conv system.pageSize x.2.tid x.2.comm).thread x.1.pid
          else [] }
      (l.processes.foldl (fun uids p => uids.insert p.pid p.uid) ∅) commandLines)
    (hcommand : ∀ p ∈ l.processes, l.isHidden conv system p = false →
      (commandLines.lookup p.pid).getD [] = conv.fromUtf8 p.commandText) :
    r.finish system = some (l.frame conv system threads) := by
  have hfinish : r.finish system = some { r.frame with
      processes := (r.frame.processes.filter fun p =>
          p.pid ∉ hiddenPids r.frame.processes system.helperPid).map
        (WslProcess.join system r.uids r.commandLines)
      threads := r.frame.threads.filter fun t =>
        t.pid ∉ hiddenPids r.frame.processes system.helperPid } := by
    rw [Reader.finish, if_neg]
    simp [hr.ended, hr.header]
  have hhidden : ∀ p ∈ l.processes, p.pid ∈ hiddenPids (l.statRows conv system.pageSize)
      system.helperPid ↔ l.isHidden conv system p = true := fun p hp => Listing.mem_hiddenPids hp
  rw [hfinish, hr.frame, hr.uids, hr.commandLines]
  dsimp only
  generalize hiddenPids (l.statRows conv system.pageSize) system.helperPid = hidden at hhidden ⊢
  have hprocesses : ((l.statRows conv system.pageSize).filter fun p => p.pid ∉ hidden).map
      (WslProcess.join system (l.processes.foldl (fun uids p => uids.insert p.pid p.uid) ∅)
        commandLines) = (l.shown conv system).map (LinuxProcess.row conv · system) := by
    have hfilter : (l.statRows conv system.pageSize).filter (fun p => p.pid ∉ hidden)
        = (l.shown conv system).map fun p => p.stat.read conv system.pageSize p.pid p.comm := by
      rw [Listing.statRows, List.filter_map, Listing.shown]
      congr 1
      refine List.filter_congr fun p hp => ?_
      show decide (p.pid ∉ hidden) = !l.isHidden conv system p
      have hiff := hhidden p hp
      cases h : l.isHidden conv system p with
      | true => simpa [h] using hiff
      | false => simpa [h] using hiff
    rw [hfilter, List.map_map]
    refine List.map_congr_left fun p hp => ?_
    obtain ⟨hp, hshown⟩ := List.mem_filter.mp hp
    have huid := lookup_foldl_insert LinuxProcess.uid l.distinct ∅ hp
    have hline := hcommand p hp (by simpa using hshown)
    show WslProcess.join system _ commandLines (p.stat.read conv system.pageSize p.pid p.comm)
      = p.row conv system
    unfold WslProcess.join LinuxProcess.row
    have hpid : (p.stat.read conv system.pageSize p.pid p.comm).pid = p.pid := rfl
    rw [hpid, huid]
    dsimp only
    cases hlookup : commandLines.lookup p.pid with
    | none =>
      rw [hlookup] at hline
      rw [← hline]
      rfl
    | some text =>
      rw [hlookup] at hline
      rw [← hline]
      rfl
  have hthreads : (if threads then (threadPairs l.processes).map fun x =>
      (x.2.stat.read conv system.pageSize x.2.tid x.2.comm).thread x.1.pid else []).filter
        (fun t => t.pid ∉ hidden)
      = if threads then (l.shown conv system).flatMap (LinuxProcess.threadRows conv · system)
        else [] := by
    cases threads with
    | false => rfl
    | true =>
      exact filter_threadRows l.processes (fun p t =>
        (t.stat.read conv system.pageSize t.tid t.comm).thread p.pid) (fun _ _ => rfl) hhidden
  rw [hprocesses, hthreads]
  rfl

/-! ## the text -/

theorem script_eq_lines (threads : Bool) : l.script threads
    = unlines newline (l.headLines ++ l.cmdlineLines ++ l.tailLines threads) := by
  rw [l.script_eq, bodyLines_eq, ← unlines_append, Listing.tailLines]
  simp only [List.append_assoc]

theorem mem_threadLines {line : Bytes} (h : line ∈ l.threadLines) :
    line = [] ∨ (∃ p t, line = LinuxProcess.threadHeader p t)
      ∨ ∃ t : LinuxThread, line = firstLine t.statFile := by
  have hjoin : ∀ xs : List (List Bytes), line ∈ [[]].intercalate xs →
      line = [] ∨ ∃ x ∈ xs, line ∈ x := by
    intro xs
    induction xs with
    | nil =>
      intro h
      simp [List.intercalate] at h
    | cons x xs ih =>
      intro h
      cases xs with
      | nil => exact Or.inr ⟨x, List.mem_cons_self, by simpa using h⟩
      | cons y ys =>
        rw [List.intercalate_cons_cons, List.mem_append, List.mem_append] at h
        rcases h with (h | h) | h
        · exact Or.inr ⟨x, List.mem_cons_self, h⟩
        · exact Or.inl (List.mem_singleton.mp h)
        · rcases ih h with h | ⟨z, hz, h⟩
          · exact Or.inl h
          · exact Or.inr ⟨z, List.mem_cons_of_mem x hz, h⟩
  rw [threadLines_eq] at h
  rcases hjoin _ h with h | ⟨x, hx, h⟩
  · exact Or.inl h
  · obtain ⟨y, -, rfl⟩ := List.mem_map.mp hx
    rcases List.mem_cons.mp h with h | h
    · exact Or.inr (Or.inl ⟨_, _, h⟩)
    · exact Or.inr (Or.inr ⟨_, List.mem_singleton.mp h⟩)

theorem mem_cmdlineLines {line : Bytes} (h : line ∈ l.cmdlineLines) :
    ∃ p ∈ l.processes, line = p.cmdlineHeader ∨ line ∈ p.cmdlineText.splitOn newline := by
  obtain ⟨p, hp, hline⟩ := List.mem_flatMap.mp h
  exact ⟨p, hp, List.mem_cons.mp hline⟩

theorem mem_headLines {line : Bytes} (h : line ∈ l.headLines) :
    line ∈ [ascii "#F", ascii "#S", ascii "#U", ascii "#C"] ∨ line ∈ l.machine.lines
      ∨ (∃ p ∈ l.processes, line ∈ p.statFile.splitOn newline)
      ∨ ∃ p, line = LinuxProcess.uidLine p := by
  simp only [Listing.headLines, List.mem_append, List.mem_cons, List.mem_map, Listing.statLines,
    List.mem_flatMap, List.not_mem_nil, or_false] at h
  rcases h with ((((h | h) | h | h) | h | ⟨p, -, h⟩)) | h
  · exact Or.inl (by simp [h])
  · exact Or.inr (Or.inl h)
  · exact Or.inl (by simp [h])
  · exact Or.inr (Or.inr (Or.inl h))
  · exact Or.inl (by simp [h])
  · exact Or.inr (Or.inr (Or.inr ⟨p, h.symm⟩))
  · exact Or.inl (by simp [h])

/-- A line of a frame has no line end in it. -/
theorem notMem_lines (threads : Bool) :
    ∀ line ∈ l.headLines ++ l.cmdlineLines ++ l.tailLines threads, newline ∉ line := by
  have hmarks : ∀ line ∈ [ascii "#F", ascii "#S", ascii "#U", ascii "#C", ascii "#T", ascii "#E"],
      newline ∉ line := by decide
  intro line hline
  rcases List.mem_append.mp hline with hline | hline
  · rcases List.mem_append.mp hline with hline | hline
    · rcases mem_headLines hline with h | h | ⟨p, -, h⟩ | ⟨p, rfl⟩
      · exact hmarks line (List.mem_append_left [ascii "#T", ascii "#E"] h)
      · exact (machine_lines_printed l.machine line h).notMem
      · exact notMem_of_mem_splitOn h
      · exact (uidLine_printed p).notMem
    · obtain ⟨p, -, rfl | h⟩ := mem_cmdlineLines hline
      · exact (cmdlineHeader_reads p).1.notMem
      · exact notMem_of_mem_splitOn h
  · rcases List.mem_append.mp hline with hline | hline
    · cases threads with
      | false => cases hline
      | true =>
        rcases List.mem_cons.mp hline with rfl | h
        · exact hmarks _ (by simp)
        · rcases mem_threadLines h with rfl | ⟨p, t, rfl⟩ | ⟨t, rfl⟩
          · exact List.not_mem_nil
          · exact (threadHeader_reads p t).1.notMem
          · intro hmem
            have hne := List.mem_takeWhile_imp hmem
            exact absurd rfl (of_decide_eq_true hne)
    · exact hmarks line (by simp [List.mem_singleton.mp hline])

/-- A frame is read section by section. -/
theorem parseFrame_eq (threads : Bool) : parseFrame conv (l.script threads) system
    = (((({} : Reader).readLines conv system.pageSize (l.headLines.map withoutReturn)).readLines conv
        system.pageSize (l.cmdlineLines.map withoutReturn)).readLines conv system.pageSize
        ((l.tailLines threads).map withoutReturn)).finish system := by
  rw [parseFrame, textLines, script_eq_lines, lines_unlines (notMem_lines threads), List.map_append,
    List.map_append, readLines_append, readLines_append]

/-- **A frame of clean texts is the list of its processes.** -/
theorem parseFrame_script {threads : Bool} (h : ∀ p ∈ l.processes, p.Clean threads) :
    parseFrame conv (l.script threads) system = some (l.frame conv system threads) := by
  obtain ⟨hsame, hflushed⟩ := @readLines_cmdlines conv system.pageSize
    (l.headReader conv system.pageSize) _ l.distinct (fun p hp => (h p hp).2) rfl rfl
  rw [parseFrame_eq, readLines_head fun p hp => (h p hp).1.1]
  have hnames : threads = true → ∀ x ∈ threadPairs l.processes, newline ∉ x.2.comm := by
    intro hthreads x hx
    obtain ⟨p, hp, hx⟩ := List.mem_flatMap.mp hx
    obtain ⟨t, ht, rfl⟩ := List.mem_map.mp hx
    exact (h p hp).1.2 hthreads t ht
  have htail := @readLines_tail conv l system.pageSize _ threads hsame.ended hsame.current
    hsame.header hsame.threadPid (by rw [hsame.frame]; exact ⟨rfl, rfl⟩) hnames
  rw [hsame.frame, hsame.uids, hflushed] at htail
  refine finish_eq htail fun p hp _ => ?_
  rw [lookup_foldl_insert _ l.distinct _ hp]
  rfl

/-! ## the stream -/

theorem cutFrame_append {pre : Bytes} (h : newline ∉ pre) (text : Bytes) :
    cutFrame (pre ++ text) = (cutFrame text).map fun cut => (pre ++ cut.1, cut.2) := by
  induction pre with
  | nil => simp
  | cons ch pre ih =>
    obtain ⟨hch, hpre⟩ := not_or.mp (mt List.mem_cons.mpr h)
    have hnot : ¬ ascii "\n#E\n" <+: ch :: (pre ++ text) := by
      intro hp
      exact hch (List.cons_prefix_cons.mp hp).1
    rw [List.cons_append, cutFrame, if_neg hnot, ih hpre, Option.map_map]
    rfl

/-- A line with its end is no other line with its end. -/
theorem line_eq_of_start {a b rest : Bytes} (ha : newline ∉ a) (hb : newline ∉ b)
    (h : a ++ [newline] <+: b ++ newline :: rest) : a = b := by
  induction a generalizing b with
  | nil =>
    cases b with
    | nil => rfl
    | cons ch b =>
      have heq : newline = ch := (List.cons_prefix_cons.mp h).1
      exact absurd (heq ▸ List.mem_cons_self) hb
  | cons ch a ih =>
    cases b with
    | nil =>
      have heq : ch = newline := (List.cons_prefix_cons.mp h).1
      exact absurd (heq ▸ List.mem_cons_self) ha
    | cons ch' b =>
      obtain ⟨rfl, hp⟩ := List.cons_prefix_cons.mp h
      have ha' : newline ∉ a := fun hm => ha (List.mem_cons_of_mem ch hm)
      have hb' : newline ∉ b := fun hm => hb (List.mem_cons_of_mem ch hm)
      rw [ih ha' hb' hp]

theorem cutFrame_lines {ls : List Bytes} (h : ∀ line ∈ ls, newline ∉ line ∧ line ≠ ascii "#E")
    (more : Bytes) :
    cutFrame (newline :: (unlines newline ls ++ (ascii "#E\n" ++ more)))
      = some (newline :: (unlines newline ls ++ ascii "#E\n"), more) := by
  induction ls with
  | nil =>
    have hp : ascii "\n#E\n" <+: newline :: (ascii "#E\n" ++ more) := List.prefix_append _ _
    rw [unlines_nil, List.nil_append, cutFrame, if_pos hp]
    rfl
  | cons line ls ih =>
    obtain ⟨hline, hE⟩ := h line List.mem_cons_self
    have hnot : ¬ ascii "\n#E\n" <+: newline :: (line ++ newline :: (unlines newline ls
        ++ (ascii "#E\n" ++ more))) := by
      intro hp
      exact hE (@line_eq_of_start (ascii "#E") _ _ (by decide) hline
        (List.cons_prefix_cons.mp hp).2).symm
    rw [unlines_cons, List.append_assoc, List.cons_append, cutFrame, if_neg hnot,
      cutFrame_append hline, ih fun l hl => h l (List.mem_cons_of_mem line hl)]
    simp

theorem head_firstLine {t : LinuxThread} : (firstLine t.statFile).head? ≠ some 35 := by
  have hne := decimalText_ne_nil t.tid.toNat
  rw [firstLine, LinuxThread.statFile, statText]
  cases htext : decimalText t.tid.toNat with
  | nil => exact absurd htext hne
  | cons ch text =>
    have hdigit := isDigit_of_mem_decimalText (htext ▸ List.mem_cons_self :
      ch ∈ decimalText t.tid.toNat)
    have hkeep : ch ≠ newline := by
      rintro rfl
      exact absurd hdigit (by decide)
    rw [List.cons_append, List.takeWhile_cons_of_pos (by simpa using hkeep)]
    intro hhead
    rw [Option.some.inj hhead] at hdigit
    exact absurd hdigit (by decide)

theorem ne_end_of_plain {line : Bytes} (h : Plain line) : line ≠ ascii "#E" := by
  rintro rfl
  exact absurd h.2 (by decide)

/-- **The stream is cut where the frame ends.** -/
theorem cutFrame_script {threads : Bool} (h : ∀ p ∈ l.processes, p.Clean threads) (more : Bytes) :
    cutFrame (l.script threads ++ more) = some (l.script threads, more) := by
  have hmarks : ∀ line ∈ [ascii "#F", ascii "#S", ascii "#U", ascii "#C", ascii "#T"],
      line ≠ ascii "#E" := by decide
  have hne : ∀ line ∈ l.bodyLines threads, line ≠ ascii "#E" := by
    intro line hline
    rw [bodyLines_eq] at hline
    rcases List.mem_append.mp hline with hline | hline
    · rcases List.mem_append.mp hline with hline | hline
      · rcases mem_headLines hline with hmark | hmachine | ⟨p, hp, hstat⟩ | ⟨p, rfl⟩
        · exact hmarks line (List.mem_append_left [ascii "#T"] hmark)
        · exact ne_end_of_plain (machine_lines_plain l.machine line hmachine)
        · have hprinted : newline ∉ p.statFile := (statText_printed (h p hp).1.1).1
          rw [List.splitOn_eq_singleton hprinted, List.mem_singleton] at hstat
          rw [hstat]
          exact ne_end_of_plain (plain_of_head head_decimalText)
        · exact ne_end_of_plain (plain_of_head (by simp [LinuxProcess.uidLine, ascii]))
      · obtain ⟨p, hp, rfl | hline⟩ := mem_cmdlineLines hline
        · exact ne_end_of_plain (cmdlineHeader_reads p).2.1
        · rintro rfl
          have htext := (h p hp).2 _ (List.mem_map_of_mem hline)
          exact absurd htext.2.1 (by decide)
    · cases threads with
      | false => cases hline
      | true =>
        rcases List.mem_cons.mp hline with rfl | hline
        · exact hmarks _ (by simp)
        · rcases mem_threadLines hline with rfl | ⟨p, t, rfl⟩ | ⟨t, rfl⟩
          · decide
          · exact ne_end_of_plain (threadHeader_reads p t).2.1
          · exact ne_end_of_plain (plain_of_head head_firstLine)
  obtain ⟨rest, hrest⟩ : ∃ rest, l.bodyLines threads = ascii "#F" :: rest := ⟨_, rfl⟩
  have hlines : ∀ line ∈ rest, newline ∉ line ∧ line ≠ ascii "#E" := by
    intro line hline
    have hmem : line ∈ l.bodyLines threads := hrest ▸ List.mem_cons_of_mem _ hline
    refine ⟨@notMem_lines l threads line ?_, hne line hmem⟩
    rw [Listing.tailLines, ← List.append_assoc, ← bodyLines_eq]
    exact List.mem_append_left _ hmem
  have hend : unlines newline [ascii "#E"] = ascii "#E\n" := rfl
  rw [l.script_eq, hrest, hend, unlines_cons, List.append_assoc, List.append_assoc,
    List.cons_append, cutFrame_append (by decide), List.append_assoc, cutFrame_lines hlines]
  simp

end WinSys.Wsl
