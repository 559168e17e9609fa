import WinSys.Wsl.Weight
import Mathlib.Algebra.Order.BigOperators.Group.List

/-!
# Forged frames

A text that is not clean is never shown as it is: a name with a line end is on no row, and the
processes are shown less text than they have when a line of a command line is a mark or a header.

* `clean_of_parseFrame`
* `frames_own`
-/

namespace WinSys.Wsl

open Infra

variable {conv : Conversions} {system : WslSystem} {l : Listing} {pageSize : UInt32} {r : Reader}
  {line : Bytes}

/-! ## names -/

theorem Conversions.Utf8.lineEnd_iff (hconv : conv.Utf8) (text : Bytes) :
    (10 : WChar) ∈ conv.fromUtf8 text ↔ newline ∈ text := by
  constructor
  · intro h
    by_contra hnot
    exact hconv.lineEnd text hnot h
  · intro h
    obtain ⟨before, after, rfl⟩ := List.append_of_mem h
    rw [hconv.ascii before newline after (by decide)]
    exact List.mem_append_right _ List.mem_cons_self

/-- A line gives a name without a line end, and no command line. -/
theorem parseStat_name (hconv : conv.Utf8) (h : newline ∉ line) {p : WslProcess}
    (hp : parseStat conv line pageSize = some p) : (10 : WChar) ∉ p.name ∧ p.commandLine = [] := by
  unfold parseStat at hp
  split at hp
  · split at hp
    · cases hp
    · dsimp only at hp
      split at hp
      · cases hp
      · split at hp
        · cases hp
        · obtain rfl := Option.some.inj hp
          refine ⟨fun hmem => h ?_, rfl⟩
          have hname := (hconv.lineEnd_iff _).mp hmem
          exact List.mem_of_mem_drop (List.mem_of_mem_take hname)
  · cases hp

/-- The names read so far have no line end. -/
structure NamesClean (r : Reader) : Prop where
  processes : ∀ p ∈ r.frame.processes, (10 : WChar) ∉ p.name ∧ p.commandLine = []
  threads : ∀ t ∈ r.frame.threads, (10 : WChar) ∉ t.name

theorem NamesClean.of_frame {r' : Reader} (h : NamesClean r)
    (hp : r'.frame.processes = r.frame.processes) (ht : r'.frame.threads = r.frame.threads) :
    NamesClean r' :=
  ⟨hp ▸ h.processes, ht ▸ h.threads⟩

theorem enter_processes (next : Section) : (r.enter conv line next).frame.processes
    = r.frame.processes ∧ (r.enter conv line next).frame.threads = r.frame.threads := by
  have hflush : (if r.current = .cmdline then r.flushCmdline conv else r).frame = r.frame := by
    split <;> rfl
  unfold Reader.enter
  dsimp only
  rw [hflush]
  split <;> exact ⟨rfl, rfl⟩

theorem readHeader_processes : (r.readHeader conv line).frame.processes = r.frame.processes
    ∧ (r.readHeader conv line).frame.threads = r.frame.threads := by
  unfold Reader.readHeader
  dsimp only
  repeat' split
  all_goals exact ⟨rfl, rfl⟩

theorem NamesClean.readLine (h : NamesClean r) (hconv : conv.Utf8) (hline : newline ∉ line) :
    NamesClean (r.readLine conv pageSize line) := by
  unfold Reader.readLine
  split
  · exact h
  split
  · exact h.of_frame rfl rfl
  split
  · next next _ => exact h.of_frame (enter_processes next).1 (enter_processes next).2
  split
  · exact h
  · exact h.of_frame readHeader_processes.1 readHeader_processes.2
  · unfold Reader.readStat
    split
    · exact h
    · next p hp =>
      refine ⟨fun q hq => ?_, h.threads⟩
      rcases List.mem_append.mp hq with hq | hq
      · exact h.processes q hq
      · rw [List.mem_singleton.mp hq]
        exact parseStat_name hconv hline hp
  · unfold Reader.readUid
    repeat' split
    all_goals exact h.of_frame rfl rfl
  · unfold Reader.readCmdline
    repeat' split
    all_goals exact h.of_frame rfl rfl
  · unfold Reader.readThread
    split
    · exact h.of_frame rfl rfl
    split
    · exact h
    dsimp only
    split
    · exact h.of_frame rfl rfl
    · next t ht =>
      refine ⟨h.processes, fun s hs => ?_⟩
      rcases List.mem_append.mp hs with hs | hs
      · exact h.threads s hs
      · rw [List.mem_singleton.mp hs]
        exact (parseStat_name hconv hline ht).1

theorem NamesClean.readLines (hconv : conv.Utf8) {ls : List Bytes} (h : NamesClean r)
    (hls : ∀ line ∈ ls, newline ∉ line) : NamesClean (r.readLines conv pageSize ls) := by
  induction ls generalizing r with
  | nil => exact h
  | cons line ls ih =>
    exact ih (h.readLine hconv (hls line List.mem_cons_self)) fun l' hl' =>
      hls l' (List.mem_cons_of_mem line hl')

/-! ## what a frame shown as it is says -/

theorem finish_some {r : Reader} {frame : WslFrame} (h : r.finish system = some frame) :
    (∀ q ∈ frame.processes, ∃ p ∈ r.frame.processes, q = p.join system r.uids r.commandLines)
      ∧ ∀ t ∈ frame.threads, t ∈ r.frame.threads := by
  unfold Reader.finish at h
  split at h
  · cases h
  · obtain rfl := Option.some.inj h
    constructor
    · intro q hq
      obtain ⟨p, hp, rfl⟩ := List.mem_map.mp hq
      exact ⟨p, (List.mem_filter.mp hp).1, rfl⟩
    · intro t ht
      exact (List.mem_filter.mp ht).1

theorem join_fields (uids : Finmap fun _ : UInt32 => UInt32)
    (commandLines : Finmap fun _ : UInt32 => WString) (p : WslProcess) :
    (p.join system uids commandLines).pid = p.pid
      ∧ (p.join system uids commandLines).name = p.name
      ∧ (p.join system uids commandLines).commandLine
        = (commandLines.lookup p.pid).getD p.commandLine := by
  unfold WslProcess.join
  cases uids.lookup p.pid with
  | none =>
    dsimp only
    cases h : commandLines.lookup p.pid with
    | none => exact ⟨rfl, rfl, rfl⟩
    | some text => exact ⟨rfl, rfl, rfl⟩
  | some uid =>
    dsimp only
    cases h : commandLines.lookup p.pid with
    | none => exact ⟨rfl, rfl, rfl⟩
    | some text => exact ⟨rfl, rfl, rfl⟩

/-- The processes' rows have the processes' names and the command lines of their IDs. -/
theorem shown_of_finish {r : Reader} {threads : Bool} (hr : NamesClean r)
    (h : r.finish system = some (l.frame conv system threads)) {p : LinuxProcess}
    (hp : p ∈ l.shown conv system) :
    (10 : WChar) ∉ conv.fromUtf8 p.comm
      ∧ (r.commandLines.lookup p.pid).getD [] = conv.fromUtf8 p.commandText
      ∧ (threads = true → ∀ t ∈ p.threads, (10 : WChar) ∉ conv.fromUtf8 t.comm) := by
  obtain ⟨hprocesses, hthreads⟩ := finish_some h
  obtain ⟨q, hq, hrow⟩ := hprocesses (p.row conv system) (List.mem_map_of_mem hp)
  obtain ⟨hpid, hname, hline⟩ := @join_fields system r.uids r.commandLines q
  obtain ⟨hclean, hempty⟩ := hr.processes q hq
  rw [← hrow] at hpid hname hline
  refine ⟨?_, ?_, ?_⟩
  · show (10 : WChar) ∉ (p.row conv system).name
    rw [hname]
    exact hclean
  · rw [hempty, ← hpid] at hline
    exact hline.symm
  · intro hthreadsAsked t ht
    have hmem : (t.stat.read conv system.pageSize t.tid t.comm).thread p.pid
        ∈ (l.frame conv system threads).threads := by
      show _ ∈ (if threads then (l.shown conv system).flatMap
        (LinuxProcess.threadRows conv · system) else [])
      rw [if_pos hthreadsAsked]
      exact List.mem_flatMap.mpr ⟨p, hp, List.mem_map_of_mem ht⟩
    exact hr.threads _ (hthreads _ hmem)

theorem notMem_textLines (text : Bytes) : ∀ line ∈ textLines text, newline ∉ line := by
  intro line hline
  obtain ⟨raw, hraw, rfl⟩ := List.mem_map.mp hline
  have hnot := notMem_of_mem_lines hraw
  unfold withoutReturn
  split
  · exact fun hmem => hnot (List.mem_of_mem_dropLast hmem)
  · exact hnot

/-- A process shown is known by its ID. -/
theorem mem_shown_pids {p : LinuxProcess} (hp : p ∈ l.processes) :
    p.pid ∈ ((l.shown conv system).map LinuxProcess.pid).toFinset
      ↔ l.isHidden conv system p = false := by
  rw [List.mem_toFinset, List.mem_map]
  constructor
  · rintro ⟨q, hq, hpid⟩
    obtain ⟨hq, hshown⟩ := List.mem_filter.mp hq
    obtain rfl := Listing.eq_of_pid hq hp hpid
    simpa using hshown
  · intro h
    exact ⟨p, List.mem_filter.mpr ⟨hp, by simp [h]⟩, rfl⟩

/-- The weight of the text that a process should be shown. -/
theorem weight_commandText (hconv : conv.Utf8) (p : LinuxProcess) :
    weight (conv.fromUtf8 p.commandText) = (p.commandLines.map conv.weight).sum := by
  have h := weight_foldl_joinLine hconv p.commandLines []
  rw [weight_nil hconv, Nat.zero_add] at h
  rw [← h]
  exact weight_trimEnd hconv _

/-- **A frame that is shown as it is has clean texts**, when those of the processes left out are. -/
theorem clean_of_parseFrame (hconv : conv.Utf8) {threads : Bool}
    (hhidden : ∀ p ∈ l.processes, l.isHidden conv system p = true → p.Clean threads)
    (h : parseFrame conv (l.script threads) system = some (l.frame conv system threads)) :
    ∀ p ∈ l.processes, p.Clean threads := by
  set pids := ((l.shown conv system).map LinuxProcess.pid).toFinset with hpids
  have hread : NamesClean (({} : Reader).readLines conv system.pageSize
      (textLines (l.script threads))) :=
    NamesClean.readLines hconv ⟨by simp, by simp⟩ (notMem_textLines _)
  have hshown := fun p hp => @shown_of_finish conv system l _ threads hread h p hp
  have hmemShown : ∀ p ∈ l.processes, l.isHidden conv system p = false →
      p ∈ l.shown conv system := fun p hp hno => List.mem_filter.mpr ⟨hp, by simp [hno]⟩
  have hnames : ∀ p ∈ l.processes, p.CleanNames threads := by
    intro p hp
    cases hside : l.isHidden conv system p with
    | true => exact (hhidden p hp hside).1
    | false =>
      obtain ⟨hname, -, hthreads⟩ := hshown p (hmemShown p hp hside)
      refine ⟨fun hmem => hname ((hconv.lineEnd_iff _).mpr hmem), fun hasked t ht hmem => ?_⟩
      exact hthreads hasked t ht ((hconv.lineEnd_iff _).mpr hmem)
  -- the texts shown are not more than what can be read of them
  have hzero : 0 ∉ pids := by
    rw [hpids, List.mem_toFinset, List.mem_map]
    rintro ⟨p, -, hpid⟩
    exact p.pid_ne hpid
  obtain ⟨r, hr⟩ : ∃ r, r = ({} : Reader).readLines conv system.pageSize
    (textLines (l.script threads)) := ⟨_, rfl⟩
  have hpot : r.pot conv pids ≤ (l.processes.map fun p =>
      if p.pid ∈ pids then (p.commandLines.map conv.gain).sum else 0).sum := by
    have hsections : r = (((l.headReader conv system.pageSize).readLines conv system.pageSize
        (l.cmdlineLines.map withoutReturn)).readLines conv system.pageSize
        ((l.tailLines threads).map withoutReturn)) := by
      rw [hr, textLines, script_eq_lines, lines_unlines (notMem_lines threads), List.map_append,
        List.map_append, readLines_append, readLines_append,
        readLines_head fun p hp => (hnames p hp).1]
    have htail := @pot_tail conv l system.pageSize ((l.headReader conv system.pageSize).readLines conv
      system.pageSize (l.cmdlineLines.map withoutReturn)) pids hconv hzero threads
    have hcommand := @pot_processes conv system.pageSize (l.headReader conv system.pageSize) pids
      hconv hzero l.processes fun p hp hnot => by
        cases hside : l.isHidden conv system p with
        | true => exact (hhidden p hp hside).2
        | false => exact absurd ((mem_shown_pids hp).mpr hside) hnot
    have hstart : (l.headReader conv system.pageSize).pot conv pids = 0 := by
      have hlines : (l.headReader conv system.pageSize).commandLines = ∅ := rfl
      have hpid : (l.headReader conv system.pageSize).cmdlinePid = 0 := rfl
      rw [Reader.pot, hlines, hpid, if_neg hzero, Nat.add_zero]
      exact Finset.sum_eq_zero fun pid _ => rfl
    rw [hsections]
    refine Nat.le_trans htail (Nat.le_trans hcommand ?_)
    rw [hstart, Nat.zero_add]
  have hsum : (l.processes.map fun p =>
      if p.pid ∈ pids then (p.commandLines.map conv.gain).sum else 0).sum
      = ((l.shown conv system).map fun p => (p.commandLines.map conv.gain).sum).sum := by
    have hif : (l.processes.map fun p =>
        if p.pid ∈ pids then (p.commandLines.map conv.gain).sum else 0)
        = l.processes.map fun p =>
          if !l.isHidden conv system p then (p.commandLines.map conv.gain).sum else 0 := by
      refine List.map_congr_left fun p hp => ?_
      have hiff := @mem_shown_pids conv system l p hp
      cases hside : l.isHidden conv system p with
      | true => simp [hpids, hiff, hside]
      | false => simp [hpids, hiff, hside]
    rw [hif, Listing.shown]
    generalize l.processes = ps
    induction ps with
    | nil => rfl
    | cons p ps ih =>
      rw [List.map_cons, List.sum_cons, ih]
      cases hside : l.isHidden conv system p with
      | true => rw [List.filter_cons_of_neg (by simp [hside])]; simp
      | false => rw [List.filter_cons_of_pos (by simp [hside])]; simp
  have hweights : ((l.shown conv system).map fun p => (p.commandLines.map conv.weight).sum).sum
      ≤ r.pot conv pids := by
    have hnodup : ((l.shown conv system).map LinuxProcess.pid).Nodup :=
      l.distinct.sublist (List.filter_sublist.map _)
    have htotal : (∑ pid ∈ pids, weight ((r.commandLines.lookup pid).getD []))
        = ((l.shown conv system).map fun p => (p.commandLines.map conv.weight).sum).sum := by
      rw [hpids, List.sum_toFinset _ hnodup, List.map_map]
      congr 1
      refine List.map_congr_left fun p hp => ?_
      show weight ((r.commandLines.lookup p.pid).getD []) = _
      rw [hr, (hshown p hp).2.1, weight_commandText hconv]
    rw [Reader.pot, htotal]
    exact Nat.le_add_right _ _
  intro p hp
  cases hside : l.isHidden conv system p with
  | true => exact hhidden p hp hside
  | false =>
    refine ⟨hnames p hp, fun line hline => ?_⟩
    by_contra htext
    have hgain : ∀ line, conv.gain line ≤ conv.weight line := by
      intro line
      unfold Conversions.gain
      split
      · exact Nat.le_refl _
      · exact Nat.zero_le _
    have hless : ((l.shown conv system).map fun p => (p.commandLines.map conv.gain).sum).sum
        < ((l.shown conv system).map fun p => (p.commandLines.map conv.weight).sum).sum := by
      refine List.sum_lt_sum _ _ (fun q _ => List.sum_le_sum fun line _ => hgain line)
        ⟨p, hmemShown p hp hside, ?_⟩
      refine List.sum_lt_sum _ _ (fun line _ => hgain line) ⟨line, hline, ?_⟩
      rw [Conversions.gain, if_neg htext]
      exact weight_pos hconv htext
    omega

/-! ## two lists -/

/-- A frame without the name and the command line of one process. -/
def WslFrame.blur (pid : UInt32) (frame : WslFrame) : WslFrame :=
  { frame with processes := frame.processes.map fun p =>
      if p.pid = pid then { p with name := [], commandLine := [] } else p }

/-- Two lists that differ only in one process's name and command line. -/
structure DifferAt (l l' : Listing) (p p' : LinuxProcess) : Prop where
  machine : l'.machine = l.machine
  processes : ∃ before after, l.processes = before ++ p :: after
    ∧ l'.processes = before ++ p' :: after
  process : p' = { p with comm := p'.comm, cmdline := p'.cmdline }

/-- The frame's text is read as its list, and cut from the stream where it ends. -/
def Listing.Own (conv : Conversions) (system : WslSystem) (threads : Bool) (l : Listing) : Prop :=
  parseFrame conv (l.script threads) system = some (l.frame conv system threads)
    ∧ ∀ more, cutFrame (l.script threads ++ more) = some (l.script threads, more)

section Differ

variable {l' : Listing} {p p' : LinuxProcess}

theorem DifferAt.pid (h : DifferAt l l' p p') : p'.pid = p.pid := by rw [h.process]

theorem DifferAt.stat (h : DifferAt l l' p p') : p'.stat = p.stat := by rw [h.process]

theorem DifferAt.symm (h : DifferAt l l' p p') : DifferAt l' l p' p := by
  obtain ⟨before, after, hl, hl'⟩ := h.processes
  refine ⟨h.machine.symm, ⟨before, after, hl', hl⟩, ?_⟩
  rw [h.process]

/-- The process of one list is that of the other, or one of the same in both. -/
theorem DifferAt.mem (h : DifferAt l l' p p') {q : LinuxProcess} (hq : q ∈ l.processes) :
    q = p ∨ q ∈ l'.processes := by
  obtain ⟨before, after, hl, hl'⟩ := h.processes
  rw [hl, List.mem_append, List.mem_cons] at hq
  rw [hl', List.mem_append, List.mem_cons]
  rcases hq with hq | hq | hq
  · exact Or.inr (Or.inl hq)
  · exact Or.inl hq
  · exact Or.inr (Or.inr (Or.inr hq))

theorem DifferAt.mem_right (h : DifferAt l l' p p') : p' ∈ l'.processes := by
  obtain ⟨before, after, -, hl'⟩ := h.processes
  rw [hl']
  simp

theorem DifferAt.isRelay (h : DifferAt l l' p p') {q : LinuxProcess}
    (hr : l.isRelay conv system q = true) : l'.isRelay conv system q = true := by
  obtain ⟨helper, hhelper, hpid, hparent, hname⟩ := Listing.isRelay_iff.mp hr
  refine Listing.isRelay_iff.mpr ?_
  rcases h.mem hhelper with rfl | hhelper
  · exact ⟨p', h.mem_right, by rw [h.pid, hpid], by rw [h.stat, hparent], hname⟩
  · exact ⟨helper, hhelper, hpid, hparent, hname⟩

/-- A process other than the two is left out of one list when it is left out of the other. -/
theorem DifferAt.isHidden (h : DifferAt l l' p p') (hp : l.isHidden conv system p = false)
    {q : LinuxProcess} (hq : l.isHidden conv system q = true) :
    l'.isHidden conv system q = true := by
  unfold Listing.isHidden at hp hq ⊢
  simp only [Bool.and_eq_true, Bool.or_eq_true, decide_eq_true_eq] at hq ⊢
  obtain ⟨hzero, hq⟩ := hq
  refine ⟨hzero, ?_⟩
  rcases hq with (hq | hq) | hq
  · exact Or.inl (Or.inl hq)
  · exact Or.inl (Or.inr (h.isRelay hq))
  · obtain ⟨relay, hrelay, hisRelay, hparent, hname⟩ := Listing.isLeader_iff.mp hq
    refine Or.inr (Listing.isLeader_iff.mpr ⟨relay, ?_, h.isRelay hisRelay, hparent, hname⟩)
    rcases h.mem hrelay with rfl | hrelay
    · simp [hzero, hisRelay] at hp
    · exact hrelay

theorem DifferAt.isHidden_eq (h : DifferAt l l' p p') (hp : l.isHidden conv system p = false)
    (hp' : l'.isHidden conv system p' = false) (q : LinuxProcess) :
    l'.isHidden conv system q = l.isHidden conv system q := by
  rw [Bool.eq_iff_iff]
  exact ⟨h.symm.isHidden hp', h.isHidden hp⟩

/-- The frames differ in the one process's name and command line. -/
theorem DifferAt.frame (h : DifferAt l l' p p') (hp : l.isHidden conv system p = false)
    (hp' : l'.isHidden conv system p' = false) (threads : Bool) :
    (l'.frame conv system threads).blur p.pid = (l.frame conv system threads).blur p.pid := by
  have hhidden := h.isHidden_eq hp hp'
  obtain ⟨before, after, hl, hl'⟩ := h.processes
  have hshown : l.shown conv system
      = before.filter (fun q => !l.isHidden conv system q)
        ++ p :: after.filter fun q => !l.isHidden conv system q := by
    rw [Listing.shown, hl, List.filter_append, List.filter_cons_of_pos (by simp [hp])]
  have hshown' : l'.shown conv system
      = before.filter (fun q => !l.isHidden conv system q)
        ++ p' :: after.filter fun q => !l.isHidden conv system q := by
    have hcongr : (fun q => !l'.isHidden conv system q) = fun q => !l.isHidden conv system q := by
      funext q
      rw [hhidden]
    rw [Listing.shown, hcongr, hl', List.filter_append, List.filter_cons_of_pos]
    rw [← hhidden, hp']
    rfl
  have hrow : (fun row : WslProcess => if row.pid = p.pid then
      { row with name := [], commandLine := [] } else row) (p'.row conv system)
      = (fun row : WslProcess => if row.pid = p.pid then
        { row with name := [], commandLine := [] } else row) (p.row conv system) := by
    have hpid : ∀ q : LinuxProcess, (q.row conv system).pid = q.pid := fun _ => rfl
    dsimp only
    rw [hpid, hpid, if_pos h.pid, if_pos rfl, h.process]
    rfl
  have hthreads : p'.threadRows conv system = p.threadRows conv system := by
    rw [h.process]
    rfl
  unfold Listing.frame WslFrame.blur
  rw [h.machine, hshown, hshown']
  simp only [List.map_append, List.map_cons, List.flatMap_append, List.flatMap_cons, hthreads]
  simp only at hrow
  rw [hrow]

end Differ

/-! ## no forged frame -/

/--
**A frame is the list of the processes that are shown, each with its own name and command line, in
exactly the lists with clean texts**: no name with a line end, no line of a command line that is a
mark or a file header (the processes left out are the helper's own, and print nothing else). For two
lists that differ in one process's name and command line, so do the frames, and in nothing more.
-/
theorem frames_own (conv : Conversions) (hconv : conv.Utf8) (system : WslSystem) (threads : Bool) :
    (∀ l : Listing, (∀ p ∈ l.processes, l.isHidden conv system p = true → p.Clean threads) →
      (l.Own conv system threads ↔ ∀ p ∈ l.processes, p.Clean threads))
    ∧ ∀ (l l' : Listing) (p p' : LinuxProcess), DifferAt l l' p p' →
      l.isHidden conv system p = false → l'.isHidden conv system p' = false →
      (∀ q ∈ l.processes, l.isHidden conv system q = true → q.Clean threads) →
      (l.Own conv system threads ∧ l'.Own conv system threads
          ∧ (parseFrame conv (l'.script threads) system).map (WslFrame.blur p.pid)
            = (parseFrame conv (l.script threads) system).map (WslFrame.blur p.pid)
        ↔ (∀ q ∈ l.processes, q.Clean threads) ∧ p'.Clean threads) := by
  have hown : ∀ l : Listing, (∀ p ∈ l.processes, l.isHidden conv system p = true →
      p.Clean threads) → (l.Own conv system threads ↔ ∀ p ∈ l.processes, p.Clean threads) := by
    intro l hhidden
    constructor
    · intro h
      exact clean_of_parseFrame hconv hhidden h.1
    · intro h
      exact ⟨parseFrame_script h, cutFrame_script h⟩
  refine ⟨hown, fun l l' p p' hdiffer hp hp' hhidden => ?_⟩
  have hother : ∀ q ∈ l'.processes, q = p' ∨ q ∈ l.processes := fun q hq => hdiffer.symm.mem hq
  have hhidden' : ∀ q ∈ l'.processes, l'.isHidden conv system q = true → q.Clean threads := by
    intro q hq hside
    rcases hother q hq with rfl | hq
    · rw [hp'] at hside
      cases hside
    · exact hhidden q hq (hdiffer.symm.isHidden hp' hside)
  rw [hown l hhidden, hown l' hhidden']
  constructor
  · rintro ⟨h, h', -⟩
    exact ⟨h, h' p' hdiffer.mem_right⟩
  · rintro ⟨h, h'⟩
    have hclean' : ∀ q ∈ l'.processes, q.Clean threads := by
      intro q hq
      rcases hother q hq with rfl | hq
      · exact h'
      · exact h q hq
    refine ⟨h, hclean', ?_⟩
    rw [parseFrame_script h, parseFrame_script hclean', Option.map_some, Option.map_some,
      hdiffer.frame hp hp']

section Lists

/-- ASCII text, and the one uptime of the lists below. -/
def plainText : Conversions where
  fromUtf8 text := text.map UInt8.toUInt16
  strtod _ := 25 / 2

theorem plainText_utf8 : plainText.Utf8 where
  empty := rfl
  ascii before ch after _ := by
    show (before ++ ch :: after).map UInt8.toUInt16 = _
    rw [List.map_append, List.map_cons]
    rfl
  lineEnd text h := by
    intro hmem
    obtain ⟨ch, hch, heq⟩ := List.mem_map.mp hmem
    have hall : ∀ n < 256, (UInt8.ofNat n).toUInt16 = 10 → UInt8.ofNat n = newline := by
      decide +kernel
    have hnewline := hall ch.toNat ch.toNat_lt (by rw [UInt8.ofNat_toNat]; exact heq)
    rw [UInt8.ofNat_toNat] at hnewline
    exact h (hnewline ▸ hch)

def zeroField : Field := ⟨ascii "0", by decide⟩

/-- A sleeping process. -/
def sleeping (ppid : UInt32) : Stat where
  state := ⟨83, by decide⟩
  ppid := ppid
  group := ⟨List.replicate 9 zeroField, rfl⟩
  utime := 5
  stime := 7
  children := ⟨List.replicate 4 zeroField, rfl⟩
  threads := 1
  timer := zeroField
  starttime := 100
  vsize := 4096
  rss := 3
  rest := []

/-- A process with one thread. -/
def process (pid ppid : UInt32) (h : pid ≠ 0) (comm cmdline : String) : LinuxProcess where
  pid := pid
  comm := ascii comm
  stat := sleeping ppid
  uid := 1000
  uids := [1000, 1000, 1000]
  cmdline := ascii cmdline
  threads := [{ tid := pid, comm := ascii comm, stat := sleeping ppid, tid_ne := h }]
  pid_ne := h
  threads_ne := by simp

/-- The first process, one with a command line, and the helper. -/
def withCommand (cmdline : String) : Listing where
  machine := {
    uptime := ⟨ascii "12.50", by decide⟩
    idle := zeroField
    cpu := [1, 2, 3, 4, 5, 6, 7, 8]
    memTotal := 1000
    memAvailable := 400 }
  processes := [process 1 0 (by decide) "init" "/init", process 20 1 (by decide) "a" cmdline,
    process 30 1 (by decide) "sh" "/bin/sh"]
  distinct := show ([1, 20, 30] : List UInt32).Nodup by decide
  two := show 2 ≤ 3 by decide

def helperThirty : WslSystem := { helperPid := 30 }

theorem frames_own_withCommand :
    ((withCommand "a b").Own plainText helperThirty true
      ↔ ∀ p ∈ (withCommand "a b").processes, p.Clean true)
    ∧ ((withCommand "a b").Own plainText helperThirty true
        ∧ (withCommand "c\nd").Own plainText helperThirty true
        ∧ (parseFrame plainText ((withCommand "c\nd").script true) helperThirty).map
            (WslFrame.blur 20)
          = (parseFrame plainText ((withCommand "a b").script true) helperThirty).map
            (WslFrame.blur 20)
      ↔ (∀ p ∈ (withCommand "a b").processes, p.Clean true)
        ∧ (process 20 1 (by decide) "a" "c\nd").Clean true) :=
  ⟨(frames_own plainText plainText_utf8 helperThirty true).1 (withCommand "a b")
      (by decide +kernel),
    (frames_own plainText plainText_utf8 helperThirty true).2 (withCommand "a b")
      (withCommand "c\nd") (process 20 1 (by decide) "a" "a b")
      (process 20 1 (by decide) "a" "c\nd")
      ⟨rfl, ⟨[process 1 0 (by decide) "init" "/init"], [process 30 1 (by decide) "sh" "/bin/sh"],
        rfl, rfl⟩, rfl⟩ (by decide +kernel) (by decide +kernel) (by decide +kernel)⟩

/-- Process 20 gives the first process another command line. -/
theorem forged_command_line :
    ¬ ∀ l : Listing, l.Own plainText helperThirty true := by
  intro hall
  have hframe := (hall (withCommand "a\n==> /proc/1/cmdline <==\nforged")).1
  exact absurd hframe (by decide +kernel)

end Lists

end WinSys.Wsl
