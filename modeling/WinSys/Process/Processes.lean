import WinSys.Process.Held

/-!
# Updates are snapshot differences

After every successful update the manager lists the snapshot's processes, and what is new and
what terminated is the difference from the last successful one, whatever was asked for between
them. A failed query changes no list. An update that takes threads may read the old times of some in
a buffer that was given back; nothing is said of what it does then.

* `Listed`: what a manager carries from one update to the next
* `update_taken_diffed`, `update_failed_same`: one update
* `processes_diffed`: every run
-/

namespace WinSys.Process

open Infra

/-! ## the law -/

/-- An object stands for an entry of the snapshot at a place. -/
def ProcessInfo.StandsFor (place : Place) (e : ProcessEntry) (p : ProcessInfo) : Prop :=
  p.key = e.key ∧ p.nativeInfo = ⟨place, e.offset⟩

/-- An update from the entries `before` to the entries `now`. -/
structure ProcessesDiffed (s s' : ProcessManager) (before now : List ProcessEntry) : Prop where
  previous : s.processes.map ProcessInfo.key = before.map ProcessEntry.key
  listed : List.Forall₂ (ProcessInfo.StandsFor s'.lastPlace) now s'.processes
  new : s'.newProcesses = s'.processes.filter fun p => p.key ∉ before.map ProcessEntry.key
  terminated : s'.terminatedProcesses
    = ↑(s.processes.filter fun p => p.key ∉ now.map ProcessEntry.key)
  kept : ∀ p ∈ s.processes, ∀ p' ∈ s'.processes, p'.key = p.key → p'.object = p.object
  byKey : ∀ k p, s'.getProcessByKey k = some p ↔ p ∈ s'.processes ∧ p.key = k

/-- What a failed query leaves. -/
structure ProcessesSame (s s' : ProcessManager) : Prop where
  processes : s'.processes = s.processes
  new : s'.newProcesses = s.newProcesses
  terminated : s'.terminatedProcesses = s.terminatedProcesses
  byKey : ∀ k, s'.getProcessByKey k = s.getProcessByKey k

/-- What a call does, given what was done before: it reads no memory that was given back, and the
lists are right. -/
def ProcessesLaw (m : Machine) (w : Watched) (c : Call) : Prop :=
  w.manager.ReadsHeld m c ∧
    match w.manager.taken c with
    | some taken =>
      ProcessesDiffed w.manager (w.step m c).manager w.history.entries taken.snapshot.entries
    | none => ProcessesSame w.manager (w.step m c).manager

/-! ## what is carried between updates -/

/-- The manager has the entries' processes. -/
structure Listed (s : ProcessManager) (entries : List ProcessEntry) : Prop where
  keys : s.processes.map ProcessInfo.key = entries.map ProcessEntry.key
  index : s.processesByKey.Indexes ProcessInfo.key s.processes
  distinct : (entries.map ProcessEntry.key).Nodup

theorem listed_start : Listed {} [] where
  keys := rfl
  index := Finmap.Indexes.empty
  distinct := List.nodup_nil

theorem Listed.fill {s : ProcessManager} {entries : List ProcessEntry} (h : Listed s entries)
    (query : Query) : Listed (s.fill query) entries :=
  ⟨h.keys, h.index, h.distinct⟩

section Update

variable {m : Machine} {s : ProcessManager} {includeThreads : Bool} {pid : UInt32} {query : Query}
  {ticks : Int64} {snapshot : Snapshot}

/-- The walk over the processes of one successful update. -/
def ProcessManager.walkProcesses (s : ProcessManager) (m : Machine) (query : Query) (ticks : Int64)
    (snapshot : Snapshot) : Diff ProcessOrThreadKey ProcessInfo :=
  (processWalk m (s.fill query).buffers s.bufIndex (m.delta s.prevTicks ticks)).walk
    { old := s.processesByKey, next := s.nextProcess } snapshot.entries

/-- The threads are taken apart from the processes. -/
theorem update_taken_processes (h : (s.queried query).result = some ⟨ticks, snapshot⟩) :
    let s' := s.update m includeThreads pid query
    let d := s.walkProcesses m query ticks snapshot
    s'.processes = d.current ∧ s'.newProcesses = d.fresh ∧ s'.terminatedProcesses = d.old.values ∧
      s'.processesByKey = d.byKey := by
  rw [ProcessManager.update_taken h]
  cases includeThreads <;> exact ⟨rfl, rfl, rfl, rfl⟩

/-- A kept process keeps its object, any process stands for its entry. -/
theorem processWalk_became {buffers : Fin 2 → Storage Buffer} {index : Fin 2} {delta : Int64}
    {map : Finmap fun _ : ProcessOrThreadKey => ProcessInfo} {prev : List ProcessInfo}
    (hmap : map.Indexes ProcessInfo.key prev) {e : ProcessEntry} {p : ProcessInfo}
    (h : (processWalk m buffers index delta).Became map e p) :
    p.StandsFor (current buffers index) e ∧ ∀ p₀ ∈ prev, p₀.key = e.key → p.object = p₀.object := by
  have hkey : p.key = e.key := h.keyOf hmap
  unfold Differ.Became at h
  split at h
  · next hnone =>
    obtain ⟨i, rfl⟩ := h
    refine ⟨⟨rfl, rfl⟩, fun p₀ hp₀ hk => ?_⟩
    have hsome := (hmap e.key p₀).mpr ⟨hp₀, hk⟩
    have hnone' : map.lookup e.key = none := hnone
    rw [hnone'] at hsome
    exact absurd hsome nofun
  · next w hw =>
    have hobject : p.object = w.object := by rw [h]; rfl
    refine ⟨⟨hkey, by rw [h]; rfl⟩, fun p₀ hp₀ hk => ?_⟩
    have hsome := (hmap e.key p₀).mpr ⟨hp₀, hk⟩
    have hw' : map.lookup e.key = some w := hw
    rw [hw'] at hsome
    rw [hobject, Option.some.inj hsome]

/-- The walk of one successful update. -/
theorem walkProcesses_diffed (m : Machine) {before : List ProcessEntry} (h : Listed s before)
    (query : Query) (ticks : Int64) (hd : snapshot.DistinctProcesses) :
    (processWalk m (s.fill query).buffers s.bufIndex (m.delta s.prevTicks ticks)).Diffed
      s.processesByKey snapshot.entries (s.walkProcesses m query ticks snapshot) :=
  Differ.walk_spec (f := processWalk m (s.fill query).buffers s.bufIndex
    (m.delta s.prevTicks ticks)) h.index hd s.nextProcess

/-- One successful update. -/
theorem update_taken_diffed {before : List ProcessEntry} (h : Listed s before)
    (hq : (s.queried query).result = some ⟨ticks, snapshot⟩) (hd : snapshot.DistinctProcesses) :
    ProcessesDiffed s (s.update m includeThreads pid query) before snapshot.entries := by
  have hspec := walkProcesses_diffed m h query ticks hd
  obtain ⟨hprocesses, hnew, hterminated, hbyKey⟩ :=
    @update_taken_processes m s includeThreads pid query ticks snapshot hq
  refine ⟨h.keys, ?_, ?_, ?_, ?_, ?_⟩
  · rw [hprocesses, ProcessManager.update_taken_lastPlace hq]
    exact hspec.current.imp fun e p hb => (processWalk_became h.index hb).1
  · rw [hnew, hprocesses, ← h.keys]
    exact hspec.new h.index
  · rw [hterminated]
    refine (hspec.left h.index).values_eq ?_
    refine List.Nodup.sublist (List.Sublist.map _ List.filter_sublist) ?_
    show (s.processes.map ProcessInfo.key).Nodup
    rw [h.keys]
    exact h.distinct
  · intro p hp p' hp' hk
    rw [hprocesses] at hp'
    obtain ⟨e, -, hb⟩ := hspec.exists_of_mem hp'
    obtain ⟨⟨hkey, -⟩, hobject⟩ := processWalk_became h.index hb
    exact hobject p hp (hk.symm.trans hkey)
  · intro k p
    rw [ProcessManager.getProcessByKey, hbyKey, hprocesses]
    exact hspec.byKey k p

theorem update_taken_listed {before : List ProcessEntry} (h : Listed s before)
    (hq : (s.queried query).result = some ⟨ticks, snapshot⟩) (hd : snapshot.DistinctProcesses) :
    Listed (s.update m includeThreads pid query) snapshot.entries := by
  have hspec := walkProcesses_diffed m h query ticks hd
  obtain ⟨hprocesses, -, -, hbyKey⟩ :=
    @update_taken_processes m s includeThreads pid query ticks snapshot hq
  refine ⟨?_, ?_, hd⟩
  · rw [hprocesses]
    exact hspec.keys h.index
  · rw [hprocesses, hbyKey]
    exact hspec.byKey

theorem update_failed_same (h : (s.queried query).result = none) :
    ProcessesSame s (s.update m includeThreads pid query) := by
  rw [ProcessManager.update_failed h]
  exact ⟨rfl, rfl, rfl, fun _ => rfl⟩

end Update

/-! ## a call -/

variable {m : Machine} {w : Watched} {c : Call}

theorem listed_step (h : Listed w.manager w.history.entries)
    (hd : DistinctProcesses w.manager c) :
    Listed (w.step m c).manager (w.step m c).history.entries := by
  show Listed (w.manager.step m c) (w.history.next _ c (w.manager.taken c)).entries
  cases htaken : w.manager.taken c with
  | none =>
    rw [ProcessManager.step, ProcessManager.update_failed htaken, History.next_none]
    exact h.fill c.query
  | some taken =>
    rw [History.next_some_entries]
    exact update_taken_listed h htaken (hd taken htaken)

theorem processesLaw_of_listed (h : Listed w.manager w.history.entries)
    (hreads : w.manager.ReadsHeld m c) (hd : DistinctProcesses w.manager c) :
    ProcessesLaw m w c := by
  refine ⟨hreads, ?_⟩
  split
  · next taken htaken => exact update_taken_diffed h htaken (hd taken htaken)
  · next htaken => exact update_failed_same htaken

/-! ## every run -/

/--
**Every update lists its snapshot and reports exactly the difference from the last successful
one**, and a failed query changes nothing, in every run of updates with and without threads in which
the buffer that threads were taken in is not given back before they are met again.
-/
theorem processes_diffed (m : Machine) (calls : List Call)
    (hd : Along (Watched.step m) (fun w c => DistinctProcesses w.manager c) {} calls)
    (h : Along (Watched.step m) SampleHeld {} calls) :
    Along (Watched.step m) (ProcessesLaw m) {} calls :=
  Along.mono_of_invariant (fun w => Listed w.manager w.history.entries ∧ Pointed w)
    (fun _ c hw hc => ⟨listed_step hw.1 hc.1, pointed_step hw.2 c⟩)
    (fun _ _ hw hc => processesLaw_of_listed hw.1 (readsHeld_of_pointed hw.2 hc.2) hc.1)
    ⟨listed_start, pointed_start⟩ (hd.and h)

/-- Of two processes one exits, and its ID is used again between two failed queries. The second
buffer is too small at first, but nothing points into it. -/
theorem processes_diffed_reused :
    let shell : ProcessEntry := ⟨0, 1, 4, 0, [⟨256, 1, 12, 4⟩]⟩
    let calls : List Call :=
      [.updateWithThreads 0 (.ok 10 ⟨[shell, ⟨64, 2, 8, 4, []⟩], {}⟩), .update (.failed {}),
        .updateWithThreads 0 (.grown 20 ⟨[shell, ⟨64, 3, 8, 4, []⟩], {}⟩),
        .updateWithThreads 0 (.failed {})]
    Along (Watched.step ⟨2, 10000000⟩) (ProcessesLaw ⟨2, 10000000⟩) {} calls :=
  processes_diffed ⟨2, 10000000⟩ _ (by decide) (by decide)

/-- A process whose thread is taken, a process update, and an update with threads that outgrew its
buffer. -/
def outgrown : List Call :=
  let snapshot : Snapshot := ⟨[⟨0, 1, 4, 0, [⟨256, 1, 12, 4⟩]⟩], {}⟩
  [.updateWithThreads 0 (.ok 10 snapshot), .update (.ok 20 snapshot),
    .updateWithThreads 0 (.grown 30 snapshot)]

/-- The thread's old times are read in the buffer that was given back. -/
theorem outgrown_reads_freed :
    ¬ ∀ (m : Machine) (calls : List Call),
      Along (Watched.step m) (fun w c => DistinctProcesses w.manager c) {} calls →
        Along (Watched.step m) (ProcessesLaw m) {} calls := by
  intro hall
  have h := hall ⟨2, 10000000⟩ outgrown (by decide)
  have hread := h.2.2.1.1 ⟨⟨0, 1⟩, 256⟩ (by decide)
  exact absurd hread (by decide)

end WinSys.Process
