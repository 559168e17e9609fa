import WinSys.Process.Processes
import WinSys.Process.Threads

/-!
# What the objects' pointers read

An object's `NativeInfo` points into the buffer of the snapshot it was last met in. The second query
after that one fills the buffer again, and gives its memory back when it is too small; the object is
not told. Its pointer then dangles, or is read at the same place of what was put there since.

* `Traced`: a manager, what is in its buffers, and how old the lists are
* `Tracked`: where the objects point
* `pointers_read`: what is read through every object's pointer, in every run
-/

namespace WinSys.Process

open Infra

/-! ## what is read -/

/-- A manager with what is in its buffers, and when the objects in its lists were taken. -/
structure Traced where
  watched : Watched := {}
  filled : Filled Snapshot := {}
  terminatedProcesses : Since := {}
  threads : Since := {}
  terminatedThreads : Since := {}

/-- What a query leaves in a buffer that it does not give back, if it fails. -/
def Call.left (c : Call) (size : UInt32) : Buffer :=
  match (c.query.turn 0 size).answer with
  | .failed left => left
  | .success _ | .infoLengthMismatch _ => {}

/-- The keys of a snapshot's processes, and where they are in it. -/
def Snapshot.processPlaces (s : Snapshot) : List (ProcessOrThreadKey × ℕ) :=
  s.entries.map fun e => (e.key, e.offset)

def Snapshot.threadPlaces (s : Snapshot) : List (ProcessOrThreadKey × ℕ) :=
  (s.entries.flatMap ProcessEntry.threads).map fun e => (e.key, e.offset)

namespace Traced

def manager (t : Traced) : ProcessManager := t.watched.manager

def step (m : Machine) (t : Traced) (c : Call) : Traced :=
  let released := t.manager.releases c
  let failed : Traced :=
    { watched := t.watched.step m c
      filled := t.filled.fail ⟨[], c.left (t.manager.bufferSizes t.manager.bufIndex)⟩ released
      terminatedProcesses := t.terminatedProcesses.attempt released
      threads := t.threads.attempt released
      terminatedThreads := t.terminatedThreads.attempt released }
  match t.manager.taken c with
  | none => failed
  | some ⟨_, snapshot⟩ =>
    { failed with
      filled := t.filled.put snapshot
      -- the processes of the snapshot before
      terminatedProcesses := ({} : Since).turn
      threads := if c.includeThreads then {} else failed.threads.turn
      terminatedThreads :=
        if c.includeThreads then failed.threads.turn else failed.terminatedThreads.turn }

variable (t : Traced)

/-- What is read through a pointer. -/
def read (times : Buffer → ℕ → Times) (pointer : Pointer) : Option Times :=
  (readAt t.manager.buffers pointer.place).map fun buffer => times buffer pointer.offset

/-- An object taken then is read at its entry of that snapshot, in what the buffer has now; that is
the snapshot while it is intact. It dangles when the buffer's memory was given back. -/
def Reads (since : Since) (places : Snapshot → List (ProcessOrThreadKey × ℕ))
    (times : Buffer → ℕ → Times) (key : ProcessOrThreadKey) (pointer : Pointer) : Prop :=
  ∃ snapshot, t.filled.past[since.age]? = some snapshot ∧ (key, pointer.offset) ∈ places snapshot ∧
    (since.freed = true → t.read times pointer = none) ∧
    (since.freed = false → ∃ now, t.filled.now since.age = some now ∧
      t.read times pointer = some (times now.buffer pointer.offset)) ∧
    (t.filled.Intact since → t.read times pointer = some (times snapshot.buffer pointer.offset))

end Traced

/-! ## where the objects point -/

/-- A pointer to its entry of the snapshot taken then. -/
def Traced.PointsTo (t : Traced) (since : Since)
    (places : Snapshot → List (ProcessOrThreadKey × ℕ)) (key : ProcessOrThreadKey)
    (pointer : Pointer) : Prop :=
  ∃ snapshot, t.filled.past[since.age]? = some snapshot ∧ (key, pointer.offset) ∈ places snapshot ∧
    PlacedSince t.manager.buffers t.manager.bufIndex since pointer.place

/-- What a manager carries from one call to the next. -/
structure Tracked (t : Traced) : Prop where
  listed : Listed t.manager t.watched.history.entries
  sampled : Sampled t.manager t.watched.history
  keeps : Keeps Snapshot.buffer t.manager.buffers t.manager.bufIndex t.filled
  tells : ∀ since ∈ [t.terminatedProcesses, t.threads, t.terminatedThreads], t.filled.Tells since
  processes : ∀ p ∈ t.manager.processes, t.PointsTo {} Snapshot.processPlaces p.key p.nativeInfo
  terminatedProcesses : ∀ p ∈ t.manager.terminatedProcesses,
    t.PointsTo t.terminatedProcesses Snapshot.processPlaces p.key p.nativeInfo
  threads : ∀ thread ∈ t.manager.threads,
    t.PointsTo t.threads Snapshot.threadPlaces thread.key thread.nativeInfo
  terminatedThreads : ∀ thread ∈ t.manager.terminatedThreads,
    t.PointsTo t.terminatedThreads Snapshot.threadPlaces thread.key thread.nativeInfo

theorem tracked_start : Tracked {} where
  listed := listed_start
  sampled := sampled_start
  keeps := keeps_start
  tells since hsince := by
    rcases List.mem_cons.mp hsince with rfl | hsince
    · exact fun hage => absurd hage (by decide)
    · rcases List.mem_cons.mp hsince with rfl | hsince
      · exact fun hage => absurd hage (by decide)
      · rw [List.mem_singleton.mp hsince]
        exact fun hage => absurd hage (by decide)
  processes _ hp := absurd hp List.not_mem_nil
  terminatedProcesses p hp := absurd hp (Multiset.notMem_zero p)
  threads _ ht := absurd ht List.not_mem_nil
  terminatedThreads t ht := absurd ht (Multiset.notMem_zero t)

/-- What is read where a pointer points. -/
theorem Traced.PointsTo.reads {t : Traced} {since : Since}
    {places : Snapshot → List (ProcessOrThreadKey × ℕ)} {key : ProcessOrThreadKey}
    {pointer : Pointer} (h : t.PointsTo since places key pointer)
    (hkeeps : Keeps Snapshot.buffer t.manager.buffers t.manager.bufIndex t.filled)
    (htells : t.filled.Tells since) (times : Buffer → ℕ → Times) :
    t.Reads since places times key pointer := by
  obtain ⟨snapshot, hpast, hplace, hplaced⟩ := h
  have hnow : since.freed = false → ∃ now, t.filled.now since.age = some now ∧
      t.read times pointer = some (times now.buffer pointer.offset) := by
    intro hfreed
    obtain ⟨now, hnow, hread⟩ := hkeeps.readAt hplaced htells hfreed hpast
    refine ⟨now, hnow, ?_⟩
    rw [Traced.read, hread]
    rfl
  refine ⟨snapshot, hpast, hplace, fun hfreed => ?_, hnow, fun hintact => ?_⟩
  · rw [Traced.read, hplaced.readAt_gone hfreed]
    rfl
  · obtain ⟨now, heq, hread⟩ := hnow hintact.1
    rw [Filled.now_eq hpast hintact] at heq
    rw [hread, Option.some.inj heq]

/-! ## one call -/

section Step

variable {m : Machine} {t : Traced} {c : Call} {since : Since}
  {places : Snapshot → List (ProcessOrThreadKey × ℕ)} {key : ProcessOrThreadKey} {pointer : Pointer}
  {ticks : Int64} {snapshot : Snapshot}

theorem step_failed (htaken : t.manager.taken c = none) :
    t.step m c =
      { watched := t.watched.step m c
        filled := t.filled.fail ⟨[], c.left (t.manager.bufferSizes t.manager.bufIndex)⟩
          (t.manager.releases c)
        terminatedProcesses := t.terminatedProcesses.attempt (t.manager.releases c)
        threads := t.threads.attempt (t.manager.releases c)
        terminatedThreads := t.terminatedThreads.attempt (t.manager.releases c) } := by
  rw [Traced.step, htaken]

theorem step_taken (htaken : t.manager.taken c = some ⟨ticks, snapshot⟩) :
    t.step m c =
      { watched := t.watched.step m c
        filled := t.filled.put snapshot
        terminatedProcesses := ({} : Since).turn
        threads :=
          if c.includeThreads then {} else (t.threads.attempt (t.manager.releases c)).turn
        terminatedThreads :=
          if c.includeThreads then (t.threads.attempt (t.manager.releases c)).turn
          else (t.terminatedThreads.attempt (t.manager.releases c)).turn } := by
  rw [Traced.step, htaken]

/-- A failed query fills the buffer that is next. -/
theorem Traced.PointsTo.failed (h : t.PointsTo since places key pointer)
    (htaken : t.manager.taken c = none) :
    (t.step m c).PointsTo (since.attempt (t.manager.releases c)) places key pointer := by
  obtain ⟨snapshot, hpast, hplace, hplaced⟩ := h
  have hmanager : (t.step m c).manager = t.manager.fill c.query := by
    rw [step_failed htaken]
    exact ProcessManager.update_failed htaken
  refine ⟨snapshot, ?_, hplace, ?_⟩
  · rw [step_failed htaken]
    exact hpast
  · rw [hmanager]
    exact ProcessManager.placed_fill hplaced c

/-- A successful one turns to the other buffer. -/
theorem Traced.PointsTo.taken (h : t.PointsTo since places key pointer)
    (htaken : t.manager.taken c = some ⟨ticks, snapshot⟩) :
    (t.step m c).PointsTo (since.attempt (t.manager.releases c)).turn places key pointer := by
  obtain ⟨before, hpast, hplace, hplaced⟩ := h
  rw [step_taken htaken]
  exact ⟨before, hpast, hplace, ProcessManager.placed_update hplaced htaken⟩

/-- What points to the snapshot just taken. -/
theorem Traced.PointsTo.start (htaken : t.manager.taken c = some ⟨ticks, snapshot⟩)
    (hplace : pointer.place = (t.step m c).manager.lastPlace)
    (hkey : (key, pointer.offset) ∈ places snapshot) :
    (t.step m c).PointsTo {} places key pointer := by
  have hplaced := @placed_taken m t.watched c _ htaken
  have hlast : (t.watched.step m c).manager.lastPlace
      = current (t.manager.fill c.query).buffers t.manager.bufIndex :=
    ProcessManager.update_taken_lastPlace htaken
  rw [step_taken htaken] at hplace ⊢
  refine ⟨snapshot, rfl, hkey, ?_⟩
  rw [hplace]
  show PlacedSince (t.watched.step m c).manager.buffers (t.watched.step m c).manager.bufIndex _
    (t.watched.step m c).manager.lastPlace
  rw [hlast]
  exact hplaced

theorem tells_failed (h : ∀ since ∈ [t.terminatedProcesses, t.threads, t.terminatedThreads],
      t.filled.Tells since) (htaken : t.manager.taken c = none) :
    ∀ since ∈ [(t.step m c).terminatedProcesses, (t.step m c).threads,
      (t.step m c).terminatedThreads], (t.step m c).filled.Tells since := by
  rw [step_failed htaken]
  intro since hsince
  have hmap : since ∈ [t.terminatedProcesses, t.threads, t.terminatedThreads].map
      (Since.attempt · (t.manager.releases c)) := hsince
  obtain ⟨before, hbefore, rfl⟩ := List.mem_map.mp hmap
  exact (h before hbefore).attempt _ _

/-- What a query leaves that fails. -/
theorem keeps_failed (h : Keeps Snapshot.buffer t.manager.buffers t.manager.bufIndex t.filled)
    (htaken : t.manager.taken c = none) :
    Keeps Snapshot.buffer (t.manager.fill c.query).buffers t.manager.bufIndex
      (t.filled.fail ⟨[], c.left (t.manager.bufferSizes t.manager.bufIndex)⟩
        (t.manager.releases c)) := by
  refine h.fail fun hsome hkept => ?_
  obtain ⟨left, hanswer, hcontent⟩ := ProcessManager.queried_left hsome hkept htaken
  rw [hcontent, Call.left, hanswer]

theorem tracked_failed (h : Tracked t) (hd : DistinctProcesses t.manager c)
    (hd' : DistinctThreads t.manager c) (htaken : t.manager.taken c = none) :
    Tracked (t.step m c) := by
  have hmanager : (t.step m c).manager = t.manager.fill c.query := by
    rw [step_failed htaken]
    exact ProcessManager.update_failed htaken
  have hwatched : (t.step m c).watched = t.watched.step m c := by rw [step_failed htaken]
  have hterminated : (t.step m c).terminatedProcesses
      = t.terminatedProcesses.attempt (t.manager.releases c) := by rw [step_failed htaken]
  have hthreads : (t.step m c).threads = t.threads.attempt (t.manager.releases c) := by
    rw [step_failed htaken]
  have hterminatedThreads : (t.step m c).terminatedThreads
      = t.terminatedThreads.attempt (t.manager.releases c) := by rw [step_failed htaken]
  refine ⟨?_, ?_, ?_, tells_failed h.tells htaken, ?_, ?_, ?_, ?_⟩
  · rw [Traced.manager, hwatched]
    exact listed_step h.listed hd
  · rw [Traced.manager, hwatched]
    exact sampled_step h.sampled hd'
  · rw [hmanager, step_failed htaken]
    exact keeps_failed h.keeps htaken
  · intro p hp
    rw [hmanager] at hp
    have hpoints := (h.processes p hp).failed (m := m) htaken
    rwa [since_attempt] at hpoints
  · intro p hp
    rw [hmanager] at hp
    rw [hterminated]
    exact (h.terminatedProcesses p hp).failed htaken
  · intro thread hthread
    rw [hmanager] at hthread
    rw [hthreads]
    exact (h.threads thread hthread).failed htaken
  · intro thread hthread
    rw [hmanager] at hthread
    rw [hterminatedThreads]
    exact (h.terminatedThreads thread hthread).failed htaken

/-- The processes listed after an update were met in it; the terminated ones in the one before. -/
theorem tracked_processes (h : Tracked t) (hd : DistinctProcesses t.manager c)
    (htaken : t.manager.taken c = some ⟨ticks, snapshot⟩) :
    (∀ p ∈ (t.step m c).manager.processes,
      (t.step m c).PointsTo {} Snapshot.processPlaces p.key p.nativeInfo) ∧
    ∀ p ∈ (t.step m c).manager.terminatedProcesses,
      (t.step m c).PointsTo ({} : Since).turn Snapshot.processPlaces p.key p.nativeInfo := by
  have hdiff : ProcessesDiffed t.manager (t.step m c).manager t.watched.history.entries
      snapshot.entries := by
    rw [step_taken htaken]
    exact update_taken_diffed h.listed htaken (hd _ htaken)
  constructor
  · intro p hp
    obtain ⟨e, he, hkey, hnative⟩ := exists_of_forall₂ hdiff.listed hp
    refine Traced.PointsTo.start htaken (by rw [hnative]) ?_
    rw [hkey, hnative]
    exact List.mem_map_of_mem he
  · intro p hp
    rw [hdiff.terminated, Multiset.mem_coe, List.mem_filter] at hp
    have hpoints := (h.processes p hp.1).taken (m := m) htaken
    rwa [since_attempt] at hpoints

/-- As `tracked_processes`, of the threads. -/
theorem tracked_threads (h : Tracked t) (hd : DistinctThreads t.manager c)
    (htaken : t.manager.taken c = some ⟨ticks, snapshot⟩) (hthreads : c.includeThreads = true) :
    (∀ thread ∈ (t.step m c).manager.threads,
      (t.step m c).PointsTo {} Snapshot.threadPlaces thread.key thread.nativeInfo) ∧
    ∀ thread ∈ (t.step m c).manager.terminatedThreads,
      (t.step m c).PointsTo (t.threads.attempt (t.manager.releases c)).turn Snapshot.threadPlaces
        thread.key thread.nativeInfo := by
  have hmanager : (t.step m c).manager = t.manager.update m true c.pid c.query := by
    rw [step_taken htaken, ← hthreads]
    rfl
  have hdiff : ThreadsDiffed t.manager (t.step m c).manager
      (t.watched.history.threadsBefore c.pid) (snapshot.threadsOf c.pid) := by
    rw [hmanager]
    exact update_taken_threadsDiffed h.sampled htaken (hd hthreads _ htaken)
  constructor
  · intro thread hthread
    obtain ⟨e, he, hkey, hnative⟩ := exists_of_forall₂ hdiff.listed hthread
    refine Traced.PointsTo.start htaken (by rw [hnative]) ?_
    rw [hkey, hnative]
    obtain ⟨p, hp, hep⟩ := List.mem_flatMap.mp he
    exact List.mem_map_of_mem (List.mem_flatMap.mpr ⟨p, List.mem_of_mem_filter hp, hep⟩)
  · intro thread hthread
    exact (h.threads thread (hdiff.terminatedOld thread hthread)).taken htaken

/-- An `Update` leaves the threads. -/
theorem threads_left (htaken : t.manager.taken c = some ⟨ticks, snapshot⟩)
    (hthreads : c.includeThreads = false) :
    (t.step m c).manager.threads = t.manager.threads ∧
      (t.step m c).manager.terminatedThreads = t.manager.terminatedThreads := by
  have hmanager : (t.step m c).manager = t.manager.update m false c.pid c.query := by
    rw [step_taken htaken, ← hthreads]
    rfl
  rw [hmanager, ProcessManager.update_taken htaken]
  exact ⟨rfl, rfl⟩

theorem tracked_taken (h : Tracked t) (hd : DistinctProcesses t.manager c)
    (hd' : DistinctThreads t.manager c) (htaken : t.manager.taken c = some ⟨ticks, snapshot⟩) :
    Tracked (t.step m c) := by
  have hwatched : (t.step m c).watched = t.watched.step m c := by rw [step_taken htaken]
  have hfilled : (t.step m c).filled = t.filled.put snapshot := by rw [step_taken htaken]
  have hterminated : (t.step m c).terminatedProcesses = ({} : Since).turn := by
    rw [step_taken htaken]
  obtain ⟨hbuffers, hindex, -⟩ :=
    @ProcessManager.update_taken_buffers t.manager c.query m c.includeThreads c.pid _ _ htaken
  have hkeeps : Keeps Snapshot.buffer (t.step m c).manager.buffers (t.step m c).manager.bufIndex
      (t.step m c).filled := by
    show Keeps Snapshot.buffer (t.step m c).watched.manager.buffers
      (t.step m c).watched.manager.bufIndex _
    rw [hwatched, hfilled]
    show Keeps Snapshot.buffer (t.manager.update m _ _ _).buffers
      (t.manager.update m _ _ _).bufIndex _
    rw [hbuffers, hindex]
    exact h.keeps.put (ProcessManager.queried_content htaken)
  obtain ⟨hprocesses, hterminatedProcesses⟩ := @tracked_processes m t c ticks snapshot h hd htaken
  rw [← hterminated] at hterminatedProcesses
  have hlisted : Listed (t.step m c).manager (t.step m c).watched.history.entries := by
    rw [Traced.manager, hwatched]
    exact listed_step h.listed hd
  have hsampled : Sampled (t.step m c).manager (t.step m c).watched.history := by
    rw [Traced.manager, hwatched]
    exact sampled_step h.sampled hd'
  refine ⟨hlisted, hsampled, hkeeps, fun since _ => ?_, hprocesses, hterminatedProcesses, ?_, ?_⟩
  · rw [hfilled]
    exact t.filled.tells_put snapshot since
  · intro thread hthread
    cases hthreads : c.includeThreads with
    | true =>
      have hage : (t.step m c).threads = {} := by rw [step_taken htaken, hthreads]; rfl
      rw [hage]
      exact (tracked_threads h hd' htaken hthreads).1 thread hthread
    | false =>
      have hage : (t.step m c).threads = (t.threads.attempt (t.manager.releases c)).turn := by
        rw [step_taken htaken, hthreads]
        rfl
      rw [hage]
      rw [(threads_left htaken hthreads).1] at hthread
      exact (h.threads thread hthread).taken htaken
  · intro thread hthread
    cases hthreads : c.includeThreads with
    | true =>
      have hage : (t.step m c).terminatedThreads
          = (t.threads.attempt (t.manager.releases c)).turn := by
        rw [step_taken htaken, hthreads]
        rfl
      rw [hage]
      exact (tracked_threads h hd' htaken hthreads).2 thread hthread
    | false =>
      have hage : (t.step m c).terminatedThreads
          = (t.terminatedThreads.attempt (t.manager.releases c)).turn := by
        rw [step_taken htaken, hthreads]
        rfl
      rw [hage]
      rw [(threads_left htaken hthreads).2] at hthread
      exact (h.terminatedThreads thread hthread).taken htaken

end Step

/-! ## every run -/

theorem tracked_step {m : Machine} {t : Traced} {c : Call} (h : Tracked t)
    (hd : DistinctKeys t.manager c) : Tracked (t.step m c) := by
  cases htaken : t.manager.taken c with
  | none => exact tracked_failed h hd.1 hd.2 htaken
  | some taken => exact tracked_taken h hd.1 hd.2 htaken

/-- **What is read through a listed process's pointer is its entry of the last snapshot, whatever
failed since. A terminated process is read in the snapshot before, until the next query; a thread in
the snapshot it was taken from, until the second successful update after it or a query that fails
after the first.** From then on they are read at the same places of what is in the buffer instead,
or dangle once a query found the buffer too small. -/
theorem pointers_read (m : Machine) (calls : List Call)
    (hd : Along (Traced.step m) (fun t c => DistinctKeys t.manager c) {} calls) :
    let t := run (Traced.step m) {} calls
    (∀ p ∈ t.manager.processes,
      t.Reads {} Snapshot.processPlaces Buffer.process p.key p.nativeInfo) ∧
    (∀ p ∈ t.manager.terminatedProcesses,
      t.Reads t.terminatedProcesses Snapshot.processPlaces Buffer.process p.key p.nativeInfo) ∧
    (∀ thread ∈ t.manager.threads,
      t.Reads t.threads Snapshot.threadPlaces Buffer.thread thread.key thread.nativeInfo) ∧
    ∀ thread ∈ t.manager.terminatedThreads,
      t.Reads t.terminatedThreads Snapshot.threadPlaces Buffer.thread thread.key
        thread.nativeInfo := by
  intro t
  have h : Tracked t :=
    run_invariant (Traced.step m) Tracked (fun _ _ h hc => tracked_step h hc)
      tracked_start hd
  refine ⟨fun p hp => ?_, fun p hp => ?_, fun thread ht => ?_, fun thread ht => ?_⟩
  · exact (h.processes p hp).reads h.keeps (fun hage => absurd hage (by decide)) _
  · exact (h.terminatedProcesses p hp).reads h.keeps (h.tells _ (by simp)) _
  · exact (h.threads thread ht).reads h.keeps (h.tells _ (by simp)) _
  · exact (h.terminatedThreads thread ht).reads h.keeps (h.tells _ (by simp)) _

/-- A thread is taken, a process update follows, and then the thread's buffer is too small. -/
def grownAfter : List Call :=
  [.updateWithThreads 0 (.ok 10000000 (oneThread 0)), .update (.ok 20000000 (oneThread 5000000)),
    .update (.grown 30000000 (oneThread 10000000))]

/-- The process is read in the last snapshot, the thread dangles. -/
theorem pointers_read_grownAfter :
    let t := run (Traced.step oneProcessor) {} grownAfter
    ((∀ p ∈ t.manager.processes,
        t.Reads {} Snapshot.processPlaces Buffer.process p.key p.nativeInfo) ∧
      (∀ p ∈ t.manager.terminatedProcesses,
        t.Reads t.terminatedProcesses Snapshot.processPlaces Buffer.process p.key p.nativeInfo) ∧
      (∀ thread ∈ t.manager.threads,
        t.Reads t.threads Snapshot.threadPlaces Buffer.thread thread.key thread.nativeInfo) ∧
      ∀ thread ∈ t.manager.terminatedThreads,
        t.Reads t.terminatedThreads Snapshot.threadPlaces Buffer.thread thread.key
          thread.nativeInfo) ∧
    t.manager.threads.map (fun thread => t.read Buffer.thread thread.nativeInfo) = [none] ∧
    t.threads = ⟨2, true⟩ :=
  ⟨pointers_read oneProcessor grownAfter (by decide), by decide, by decide⟩

end WinSys.Process
