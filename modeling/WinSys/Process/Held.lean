import WinSys.Process.Queries

/-!
# What the pointers of known objects point to

The objects of known processes point to the last snapshot, which the next query leaves alone. Those
of known threads point to the snapshot of the last `UpdateWithThreads`; its buffer is filled again by
the second query after it, and is given back when it is too small then.

* `Pointed`: where the objects point that the next update may look up
* `readsHeld_of_pointed`: when an update reads only what is there
-/

namespace WinSys.Process

open Infra

/-! ## threads met again -/

/-- What holds of each thread that two `UpdateWithThreads` of one process, one after the other,
take. -/
def OfThreadsMetAgain (w : Watched) (c : Call)
    (ok : Sample → Taken → ThreadEntry → ThreadEntry → Prop) : Prop :=
  c.includeThreads = true → ∀ taken ∈ w.manager.taken c, ∀ sample ∈ w.history.sample,
    sample.pid = c.pid → ∀ e ∈ sample.snapshot.threadsOf c.pid,
      ∀ e' ∈ taken.snapshot.threadsOf c.pid, e'.key = e.key → ok sample taken e e'

instance (w : Watched) (c : Call) (ok : Sample → Taken → ThreadEntry → ThreadEntry → Prop)
    [∀ sample taken e e', Decidable (ok sample taken e e')] : Decidable (OfThreadsMetAgain w c ok) :=
  inferInstanceAs (Decidable (_ → ∀ _ ∈ _, ∀ _ ∈ _, _ → ∀ _ ∈ _, ∀ _ ∈ _, _ → _))

/-- When threads are met again, the buffer they were taken in was not given back since, by this
query either. -/
def SampleHeld (w : Watched) (c : Call) : Prop :=
  OfThreadsMetAgain w c fun sample _ _ _ =>
    (sample.attempt (w.manager.releases c)).since.freed = false

instance (w : Watched) : DecidablePred (SampleHeld w) := fun _ =>
  inferInstanceAs (Decidable (OfThreadsMetAgain _ _ _))

/-! ## where the objects point -/

/-- A known thread is one of the last sample's, and points to where that is. -/
def ThreadPointed (w : Watched) (k : ProcessOrThreadKey) (t : ThreadInfo) : Prop :=
  ∃ sample ∈ w.history.sample, w.manager.threadsPid = sample.pid ∧
    (∃ e ∈ sample.snapshot.threadsOf sample.pid, e.key = k) ∧
    PlacedSince w.manager.buffers w.manager.bufIndex sample.since t.nativeInfo.place

/-- The known objects point to the last snapshot, and to the last sample. -/
structure Pointed (w : Watched) : Prop where
  processes : ∀ k p, w.manager.processesByKey.lookup k = some p →
    PlacedSince w.manager.buffers w.manager.bufIndex {} p.nativeInfo.place
  threads : ∀ k t, w.manager.threadsByKey.lookup k = some t → ThreadPointed w k t

theorem pointed_start : Pointed {} where
  processes k p hp := by simp at hp
  threads k t ht := by simp at ht

/-- The next query fills the other buffer. -/
theorem since_attempt (released : Bool) : ({} : Since).attempt released = {} := by
  cases released <;> rfl

section Step

variable {m : Machine} {w : Watched} {c : Call} {taken : Taken}

theorem lookup_processesByKey (htaken : w.manager.taken c = some taken) {k : ProcessOrThreadKey}
    {p : ProcessInfo} (hp : (w.step m c).manager.processesByKey.lookup k = some p) :
    p.nativeInfo.place = current (w.manager.fill c.query).buffers w.manager.bufIndex := by
  obtain ⟨ticks, snapshot⟩ := taken
  have hq : (w.manager.queried c.query).result = some ⟨ticks, snapshot⟩ := htaken
  have hbyKey : (w.step m c).manager.processesByKey
      = ((processWalk m (w.manager.fill c.query).buffers w.manager.bufIndex
          (m.delta w.manager.prevTicks ticks)).walk
        { old := w.manager.processesByKey, next := w.manager.nextProcess }
          snapshot.entries).byKey := by
    show (w.manager.step m c).processesByKey = _
    rw [ProcessManager.step, ProcessManager.update_taken hq]
    cases c <;> rfl
  rw [hbyKey] at hp
  rcases Differ.lookup_walk_byKey _ hp with hempty | ⟨e, -, -, ⟨i, rfl⟩ | ⟨p₀, rfl⟩⟩
  · simp at hempty
  · rfl
  · rfl

/-- The place of the snapshot just taken. -/
theorem placed_taken (htaken : w.manager.taken c = some taken) :
    PlacedSince (w.step m c).manager.buffers (w.step m c).manager.bufIndex {}
      (current (w.manager.fill c.query).buffers w.manager.bufIndex) := by
  obtain ⟨ticks, snapshot⟩ := taken
  have hq : (w.manager.queried c.query).result = some ⟨ticks, snapshot⟩ := htaken
  obtain ⟨hbuffers, hindex, -⟩ :=
    @ProcessManager.update_taken_buffers w.manager c.query m c.includeThreads c.pid _ _ hq
  show PlacedSince (w.manager.step m c).buffers (w.manager.step m c).bufIndex _ _
  rw [ProcessManager.step, hbuffers, hindex]
  refine PlacedSince.start ?_
  rw [ProcessManager.fill_content hq]
  rfl

theorem pointed_failed (h : Pointed w) (htaken : w.manager.taken c = none) :
    Pointed (w.step m c) := by
  have hmanager : (w.step m c).manager = w.manager.fill c.query :=
    ProcessManager.update_failed htaken
  have hhistory : (w.step m c).history.sample
      = w.history.sample.map (Sample.attempt (w.manager.releases c)) := by
    show (w.history.next _ c (w.manager.taken c)).sample = _
    rw [htaken, History.next_none]
  constructor
  · intro k p hp
    rw [hmanager] at hp ⊢
    have hplaced := ProcessManager.placed_fill (h.processes k p hp) c
    rwa [since_attempt] at hplaced
  · intro k t ht
    rw [hmanager] at ht
    obtain ⟨sample, hsample, hpid, hentry, hplaced⟩ := h.threads k t ht
    refine ⟨sample.attempt (w.manager.releases c), ?_, ?_, hentry, ?_⟩
    · rw [hhistory, hsample]
      rfl
    · rw [hmanager]
      exact hpid
    · rw [hmanager]
      exact ProcessManager.placed_fill hplaced c

/-- The threads after an `Update` are those of before it. -/
theorem threadPointed_update {query : Query} (h : Pointed w)
    (htaken : w.manager.taken (.update query) = some taken) {k : ProcessOrThreadKey} {t : ThreadInfo}
    (ht : (w.step m (.update query)).manager.threadsByKey.lookup k = some t) :
    ThreadPointed (w.step m (.update query)) k t := by
  obtain ⟨ticks, snapshot⟩ := taken
  have hq : (w.manager.queried query).result = some ⟨ticks, snapshot⟩ := htaken
  have hupdate := @ProcessManager.update_taken w.manager query m false 0 ticks snapshot hq
  have hsame : (w.step m (.update query)).manager.threadsByKey = w.manager.threadsByKey ∧
      (w.step m (.update query)).manager.threadsPid = w.manager.threadsPid := by
    show (w.manager.update m false 0 query).threadsByKey = _ ∧
      (w.manager.update m false 0 query).threadsPid = _
    rw [hupdate]
    exact ⟨rfl, rfl⟩
  obtain ⟨hbyKey, hthreadsPid⟩ := hsame
  rw [hbyKey] at ht
  obtain ⟨sample, hsample, hpid, hentry, hplaced⟩ := h.threads k t ht
  refine ⟨(sample.attempt (w.manager.releases (.update query))).turn, ?_, hthreadsPid.trans hpid,
    hentry, ProcessManager.placed_update hplaced htaken⟩
  show (w.history.next _ (.update query) (w.manager.taken _)).sample = _
  rw [htaken, History.next, hsample]
  rfl

/-- The threads after an `UpdateWithThreads` are those of its snapshot. -/
theorem threadPointed_updateWithThreads {pid : UInt32} {query : Query}
    (htaken : w.manager.taken (.updateWithThreads pid query) = some taken)
    {k : ProcessOrThreadKey} {t : ThreadInfo}
    (ht : (w.step m (.updateWithThreads pid query)).manager.threadsByKey.lookup k = some t) :
    ThreadPointed (w.step m (.updateWithThreads pid query)) k t := by
  have hplaced := placed_taken (m := m) htaken
  obtain ⟨ticks, snapshot⟩ := taken
  have hq : (w.manager.queried query).result = some ⟨ticks, snapshot⟩ := htaken
  have hupdate := @ProcessManager.update_taken w.manager query m true pid ticks snapshot hq
  have hbyKey : (w.step m (.updateWithThreads pid query)).manager.threadsByKey
      = ((threadWalk m (w.manager.fill query).buffers w.manager.bufIndex
          (m.delta w.manager.prevTicks ticks)).walk
        { old := w.manager.knownByKey pid, next := w.manager.nextThread }
          (snapshot.threadsOf pid)).byKey := by
    show (w.manager.update m true pid query).threadsByKey = _
    rw [hupdate]
    rfl
  have hpid : (w.step m (.updateWithThreads pid query)).manager.threadsPid = pid := by
    show (w.manager.update m true pid query).threadsPid = _
    rw [hupdate]
    rfl
  rw [hbyKey] at ht
  have hwalk : t.nativeInfo.place = current (w.manager.fill query).buffers w.manager.bufIndex ∧
      ∃ e ∈ snapshot.threadsOf pid, e.key = k := by
    rcases Differ.lookup_walk_byKey _ ht with hempty | ⟨e, he, hkey, ⟨i, rfl⟩ | ⟨t₀, rfl⟩⟩
    · simp at hempty
    · exact ⟨rfl, e, he, hkey⟩
    · exact ⟨rfl, e, he, hkey⟩
  obtain ⟨hplace, hentry⟩ := hwalk
  refine ⟨{ pid, ticks, snapshot }, ?_, hpid, hentry, ?_⟩
  · show (w.history.next _ (.updateWithThreads pid query) (w.manager.taken _)).sample = _
    rw [htaken]
    rfl
  · rw [hplace]
    exact hplaced

theorem pointed_step (h : Pointed w) (c : Call) : Pointed (w.step m c) := by
  cases htaken : w.manager.taken c with
  | none => exact pointed_failed h htaken
  | some taken =>
    constructor
    · intro k p hp
      rw [lookup_processesByKey htaken hp]
      exact placed_taken htaken
    · intro k t ht
      cases c with
      | update query => exact threadPointed_update h htaken ht
      | updateWithThreads pid query => exact threadPointed_updateWithThreads htaken ht

/-! ## what an update reads -/

/-- The processes' old times are there. -/
theorem foundProcesses_held (h : Pointed w) (c : Call) (snapshot : Snapshot) {p : ProcessInfo}
    (hp : p ∈ w.manager.foundProcesses m snapshot) :
    (readAt (w.manager.fill c.query).buffers p.nativeInfo.place).isSome := by
  obtain ⟨e, -, hlookup⟩ := Differ.lookup_of_mem_found _ hp
  have hplaced := ProcessManager.placed_fill (h.processes _ p hlookup) c
  rw [since_attempt] at hplaced
  exact hplaced.isSome_readAt rfl

/-- So are the threads' where the sample's buffer is. -/
theorem foundThreads_held (h : Pointed w) (hheld : SampleHeld w c)
    (hthreads : c.includeThreads = true) (htaken : w.manager.taken c = some taken) {t : ThreadInfo}
    (ht : t ∈ w.manager.foundThreads m c.pid taken.snapshot) :
    (readAt (w.manager.fill c.query).buffers t.nativeInfo.place).isSome := by
  obtain ⟨e', he', hlookup⟩ := Differ.lookup_of_mem_found _ ht
  change (w.manager.knownByKey c.pid).lookup e'.key = some t at hlookup
  unfold ProcessManager.knownByKey at hlookup
  split at hlookup
  · simp at hlookup
  · next hpid =>
    obtain ⟨sample, hsample, hsamplePid, ⟨e, he, hkey⟩, hplaced⟩ := h.threads _ t hlookup
    have hsame : sample.pid = c.pid := hsamplePid.symm.trans (not_not.mp hpid).symm
    have hfreed := hheld hthreads taken htaken sample hsample hsame e (hsame ▸ he) e' he' hkey.symm
    exact (ProcessManager.placed_fill hplaced c).isSome_readAt hfreed

/-- **An update reads only what is there**, when the buffer of the threads it meets again was not
given back. -/
theorem readsHeld_of_pointed (h : Pointed w) (hheld : SampleHeld w c) :
    w.manager.ReadsHeld m c := by
  intro p hp
  unfold ProcessManager.touched at hp
  split at hp
  · exact absurd hp List.not_mem_nil
  · next ticks snapshot hresult =>
    have htaken : w.manager.taken c = some ⟨ticks, snapshot⟩ := hresult
    rcases List.mem_append.mp hp with hp | hp
    · split at hp
      · exact absurd hp List.not_mem_nil
      · obtain ⟨process, hprocess, rfl⟩ := List.mem_map.mp hp
        exact foundProcesses_held h c snapshot hprocess
    · split at hp
      · next hthreads =>
        obtain ⟨thread, hthread, rfl⟩ := List.mem_map.mp hp
        exact foundThreads_held h hheld hthreads htaken hthread
      · exact absurd hp List.not_mem_nil

end Step

end WinSys.Process
