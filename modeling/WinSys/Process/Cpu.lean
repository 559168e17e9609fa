import WinSys.Process.Processes
import WinSys.Process.Threads

/-!
# The figures of every update

A process's old times are read in the last snapshot, and so are those of a thread that the last
successful update took. Their figures are the shares they used in between.

* `cpu_exact`: the figures of every process and thread known in two updates one after the other, in
  every run
-/

namespace WinSys.Process

open Infra

/-! ## the law -/

/-- A manager, what it was asked to do, and the last successful update. -/
structure Timed where
  watched : Watched := {}
  last : Option Taken := none

def Timed.step (m : Machine) (t : Timed) (c : Call) : Timed where
  watched := t.watched.step m c
  last := (t.watched.manager.taken c).or t.last

/-- The figure is the share where that is at most what the processors had and the products fit. -/
def ExactFigure (m : Machine) (since ticks : Int64) (used : ℤ) (figure : Int32) : Prop :=
  m.Possible since ticks used → m.Fits since ticks used → m.Exact since ticks used figure

/-- The figures of the processes known in two updates one after the other. -/
def ProcessCpuLaw (m : Machine) (s' : ProcessManager) (last now : Taken) : Prop :=
  ∀ e ∈ last.snapshot.entries, ∀ e' ∈ now.snapshot.entries, e'.key = e.key →
    ∀ p ∈ s'.processes, p.key = e.key →
      let old := last.snapshot.buffer.process e.offset
      let new := now.snapshot.buffer.process e'.offset
      ExactFigure m last.ticks now.ticks (new.sum - old.sum) p.cpu ∧
      ExactFigure m last.ticks now.ticks (new.kernelTime.toInt - old.kernelTime.toInt) p.kernelCPU

/-- The figures of the threads known in two updates one after the other. -/
def ThreadCpuExact (m : Machine) (h : History) (s' : ProcessManager) (pid : UInt32)
    (now : Taken) : Prop :=
  ∀ sample, h.sample = some sample → sample.Last → sample.pid = pid →
    ∀ e ∈ sample.snapshot.threadsOf pid, ∀ e' ∈ now.snapshot.threadsOf pid, e'.key = e.key →
      ∀ t ∈ s'.threads, t.key = e.key →
        ExactFigure m sample.ticks now.ticks (usedBetween sample now e e') t.cpu

/-- What a call says was used, given what was done before. -/
def CpuLaw (m : Machine) (t : Timed) (c : Call) : Prop :=
  ∀ now ∈ t.watched.manager.taken c,
    (∀ last ∈ t.last, ProcessCpuLaw m (t.step m c).watched.manager last now) ∧
    (c.includeThreads = true →
      ThreadCpuExact m t.watched.history (t.step m c).watched.manager c.pid now)

/-! ## what is carried between updates -/

/-- The process objects point to the last snapshot, which the next one doesn't overwrite. -/
structure LastKept (s : ProcessManager) (last : Taken) : Prop where
  ticks : s.prevTicks = last.ticks
  content : (s.buffers (1 - s.bufIndex)).content = some last.snapshot.buffer
  processes : List.Forall₂ (ProcessInfo.StandsFor s.lastPlace) last.snapshot.entries s.processes
  distinct : last.snapshot.DistinctProcesses

/-- The manager has the last update's processes. -/
structure Kept (t : Timed) : Prop where
  listed : Listed t.watched.manager t.watched.history.entries
  sampled : Sampled t.watched.manager t.watched.history
  last : ∀ last ∈ t.last, LastKept t.watched.manager last

theorem kept_start : Kept {} where
  listed := listed_start
  sampled := sampled_start
  last := nofun

section Update

variable {m : Machine} {s : ProcessManager} {includeThreads : Bool} {pid : UInt32} {query : Query}
  {before : List ProcessEntry} {last : Taken} {ticks : Int64} {snapshot : Snapshot}

/-- The object of a known process. -/
theorem LastKept.nativeInfo (hk : LastKept s last) {e : ProcessEntry}
    (he : e ∈ last.snapshot.entries) {p : ProcessInfo} (hp : p ∈ s.processes)
    (hkey : p.key = e.key) : p.nativeInfo = ⟨s.lastPlace, e.offset⟩ := by
  obtain ⟨e₀, he₀, hstands⟩ := exists_of_forall₂ hk.processes hp
  have heq : e₀ = e := List.inj_on_of_nodup_map hk.distinct he₀ he (hstands.1.symm.trans hkey)
  rw [hstands.2, heq]

/-- What is read of the last snapshot. -/
theorem LastKept.bufferAt (hk : LastKept s last) (query : Query) :
    Process.bufferAt (s.fill query).buffers s.lastPlace = last.snapshot.buffer := by
  rw [Process.bufferAt, readAt, ProcessManager.lastPlace, current]
  dsimp only
  rw [ProcessManager.fill_other, Storage.read_self, hk.content]
  rfl

/-- A known process's figures are those of the time since the last update. -/
theorem update_taken_figures (h : Listed s before) (hk : LastKept s last)
    (hq : (s.queried query).result = some ⟨ticks, snapshot⟩) (hd : snapshot.DistinctProcesses)
    {e e' : ProcessEntry} (he : e ∈ last.snapshot.entries) (he' : e' ∈ snapshot.entries)
    (hkey : e'.key = e.key) {p : ProcessInfo}
    (hp : p ∈ (s.update m includeThreads pid query).processes) (hpkey : p.key = e.key) :
    let old := last.snapshot.buffer.process e.offset
    let new := snapshot.buffer.process e'.offset
    p.cpu = m.usage (new.kernelTime + new.userTime - old.userTime - old.kernelTime)
        (m.delta last.ticks ticks) ∧
      p.kernelCPU = m.usage (new.kernelTime - old.kernelTime) (m.delta last.ticks ticks) := by
  rw [(update_taken_processes hq).1] at hp
  obtain ⟨a, ha, hb⟩ := (walkProcesses_diffed m h query ticks hd).exists_of_mem hp
  have hakey : p.key = a.key := hb.keyOf h.index
  obtain rfl : a = e' :=
    List.inj_on_of_nodup_map hd ha he' (hakey.symm.trans (hpkey.trans hkey.symm))
  -- the process was known, and its object points to the last snapshot
  have hmem : e.key ∈ s.processes.map ProcessInfo.key := by
    obtain ⟨w, hw, hstands⟩ := exists_of_forall₂ hk.processes.flip he
    exact List.mem_map.mpr ⟨w, hw, hstands.1⟩
  obtain ⟨w, hw, hwkey⟩ := List.mem_map.mp hmem
  have hlook : s.processesByKey.lookup a.key = some w :=
    (h.index a.key w).mpr ⟨hw, hwkey.trans hkey.symm⟩
  have hnative := hk.nativeInfo he hw hwkey
  simp only [Differ.Became, processWalk, hlook] at hb
  rw [hb]
  simp only [hnative, hk.bufferAt query, ProcessManager.bufferAt_current hq, hk.ticks]
  exact ⟨trivial, trivial⟩

/-- What is used as the code adds it up. -/
theorem toInt_used (old new : Times) :
    (new.kernelTime + new.userTime - old.userTime - old.kernelTime).toInt
      = (new.sum - old.sum).bmod (2 ^ 64) := by
  rw [Int64.toInt_sub, Int64.toInt_sub, Int64.toInt_add, Int.bmod_sub_bmod, sub_sub,
    Int.bmod_sub_bmod, Times.sum, Times.sum, add_comm old.userTime.toInt]

theorem processCpuLaw_of_kept (hf : 0 < m.qpcFrequency.toInt) (hN : 0 < m.totalProcessors.toNat)
    (h : Listed s before) (hk : LastKept s last)
    (hq : (s.queried query).result = some ⟨ticks, snapshot⟩) (hd : snapshot.DistinctProcesses) :
    ProcessCpuLaw m (s.update m includeThreads pid query) last ⟨ticks, snapshot⟩ := by
  intro e he e' he' hkey p hp hpkey
  obtain ⟨hcpu, hkernel⟩ := update_taken_figures h hk hq hd he he' hkey hp hpkey
  constructor
  · intro hpossible hfits
    rw [hcpu]
    exact usage_exact hf hN (toInt_used _ _) hpossible hfits
  · intro hpossible hfits
    rw [hkernel]
    exact usage_exact hf hN (Int64.toInt_sub _ _) hpossible hfits

theorem threadCpuExact_of_sampled (hf : 0 < m.qpcFrequency.toInt)
    (hN : 0 < m.totalProcessors.toNat) {h : History} (hs : Sampled s h)
    (hq : (s.queried query).result = some ⟨ticks, snapshot⟩) (hd : snapshot.DistinctThreads pid) :
    ThreadCpuExact m h (s.update m true pid query) pid ⟨ticks, snapshot⟩ := by
  intro sample hsample hlast hpid e he e' he' hkey t ht htkey hpossible hfits
  rw [update_taken_usage hs hq hd hsample hlast hpid he he' hkey ht htkey]
  exact usage_exact hf hN (toInt_total_sub _ _) hpossible hfits

theorem lastKept_update (h : Listed s before)
    (hq : (s.queried query).result = some ⟨ticks, snapshot⟩) (hd : snapshot.DistinctProcesses) :
    LastKept (s.update m includeThreads pid query) ⟨ticks, snapshot⟩ := by
  obtain ⟨hbuffers, hindex, hticks⟩ :=
    @ProcessManager.update_taken_buffers s query m includeThreads pid ticks snapshot hq
  refine ⟨hticks, ?_, (update_taken_diffed h hq hd).listed, hd⟩
  rw [hbuffers, hindex, one_sub_one_sub]
  exact ProcessManager.fill_content hq

end Update

/-! ## every run -/

variable {m : Machine} {t : Timed} {c : Call}

theorem kept_step (h : Kept t) (hd : DistinctKeys t.watched.manager c) : Kept (t.step m c) where
  listed := listed_step h.listed hd.1
  sampled := sampled_step h.sampled hd.2
  last := by
    intro last hlast
    change (t.watched.manager.taken c).or t.last = some last at hlast
    show LastKept (t.watched.manager.step m c) last
    cases htaken : t.watched.manager.taken c with
    | none =>
      rw [htaken, Option.none_or] at hlast
      obtain ⟨hticks, hcontent, hprocesses, hdistinct⟩ := h.last last hlast
      rw [ProcessManager.step, ProcessManager.update_failed htaken]
      refine ⟨hticks, ?_, ?_, hdistinct⟩
      · exact (congrArg Storage.content (ProcessManager.fill_other _ _)).trans hcontent
      · rw [ProcessManager.lastPlace_fill]
        exact hprocesses
    | some taken =>
      rw [htaken, Option.some_or] at hlast
      obtain rfl := Option.some.inj hlast
      exact lastKept_update h.listed htaken (hd.1 _ htaken)

theorem cpuLaw_of_kept (hf : 0 < m.qpcFrequency.toInt) (hN : 0 < m.totalProcessors.toNat)
    (h : Kept t) (hd : DistinctKeys t.watched.manager c) : CpuLaw m t c := by
  intro now htaken
  constructor
  · intro last hlast
    exact processCpuLaw_of_kept hf hN h.listed (h.last last hlast) htaken (hd.1 now htaken)
  · intro hthreads
    show ThreadCpuExact m _ (t.watched.manager.step m c) c.pid now
    rw [ProcessManager.step, hthreads]
    exact threadCpuExact_of_sampled hf hN h.sampled htaken (hd.2 hthreads now htaken)

/-- **The figures of every process and thread known in two updates one after the other are their
shares, where the first tick reading counts and the products fit**, in every run; no division is by
zero. -/
theorem cpu_exact (m : Machine) (calls : List Call) (hf : 0 < m.qpcFrequency.toInt)
    (hN : 0 < m.totalProcessors.toNat)
    (hd : Along (Timed.step m) (fun t c => DistinctKeys t.watched.manager c) {} calls) :
    Along (Timed.step m) (CpuLaw m) {} calls ∧
    ∀ since ticks used : Int64,
      (m.delta? since ticks >>= m.usage? used) = some (m.usage used (m.delta since ticks)) :=
  ⟨Along.mono_of_invariant Kept (fun _ _ h hc => kept_step h hc)
    (fun _ _ h hc => cpuLaw_of_kept hf hN h hc) kept_start hd,
    divisions hf hN⟩

/-- A process that has used `used` so far. -/
def oneProcess (used : Int64) : Snapshot where
  entries := [⟨0, 1, 4, 0, []⟩]
  buffer := { process := fun _ => ⟨0, used⟩ }

theorem cpu_sampledTwice :
    0 < oneProcessor.qpcFrequency.toInt ∧ 0 < oneProcessor.totalProcessors.toNat ∧
    Along (Timed.step oneProcessor) (fun t c => DistinctKeys t.watched.manager c) {}
      sampledTwice ∧
    Along (Timed.step oneProcessor) (CpuLaw oneProcessor) {} sampledTwice := by
  have hdistinct : Along (Timed.step oneProcessor) (fun t c => DistinctKeys t.watched.manager c) {}
      sampledTwice := by
    decide
  exact ⟨by decide, by decide, hdistinct,
    (cpu_exact oneProcessor sampledTwice (by decide) (by decide) hdistinct).1⟩

/-- With a counter of 10 MHz the ticks of a little over 25.6 hours wrap, and a process that used half
of that time is said to have used less than none. -/
theorem cpu_wraps :
    let since : Int64 := 1
    let ticks : Int64 := 922337203687
    let used : Int64 := 461168601843
    let calls : List Call :=
      [.update (.ok since (oneProcess 0)), .update (.ok ticks (oneProcess used))]
    Along (Timed.step oneProcessor) (fun t c => DistinctKeys t.watched.manager c) {} calls ∧
    oneProcessor.Possible since ticks used.toInt ∧
    oneProcessor.share since ticks used.toInt = 500000 ∧
    (run (Timed.step oneProcessor) {} calls).watched.manager.processes.map ProcessInfo.cpu
      = [-500000] := by
  refine ⟨by decide, ⟨by decide, by decide, by decide, by decide⟩, by decide, by decide⟩

end WinSys.Process
