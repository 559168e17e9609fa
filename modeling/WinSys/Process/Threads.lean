import WinSys.Process.Figures
import WinSys.Process.Held

/-!
# Threads and their CPU

The thread lists are differences from the last `UpdateWithThreads`, when that was of the same
process; a plain `Update` leaves them alone. It still takes a snapshot: the buffers alternate and
the elapsed time starts over, while the thread objects keep pointing to the older snapshot, whose
buffer may even be given back. So a thread's CPU is that of the time since its last sample only when
no `Update` came between.

* `Sampled`: what a manager carries from one call to the next
* `update_taken_threadsDiffed`, `update_taken_usage`: one update
* `threads_sampledLast`: every run without an `Update` between two samples of a thread
-/

namespace WinSys.Process

open Infra

/-! ## the law -/

/-- The threads of the previous `UpdateWithThreads`, if it was of the same process. -/
def History.threadsBefore (h : History) (pid : UInt32) : List ThreadEntry :=
  match h.sample with
  | none => []
  | some sample => if pid = sample.pid then sample.snapshot.threadsOf pid else []

/-- An object stands for an entry of the snapshot at a place. -/
def ThreadInfo.StandsFor (place : Place) (e : ThreadEntry) (t : ThreadInfo) : Prop :=
  t.key = e.key ∧ t.nativeInfo = ⟨place, e.offset⟩

/-- An `UpdateWithThreads` from the threads `before` to the threads `now`. -/
structure ThreadsDiffed (s s' : ProcessManager) (before now : List ThreadEntry) : Prop where
  listed : List.Forall₂ (ThreadInfo.StandsFor s'.lastPlace) now s'.threads
  new : s'.newThreads = s'.threads.filter fun t => t.key ∉ before.map ThreadEntry.key
  terminated : s'.terminatedThreads.map ThreadInfo.key
    = ↑((before.map ThreadEntry.key).filter fun k => k ∉ now.map ThreadEntry.key)
  terminatedOld : ∀ t ∈ s'.terminatedThreads, t ∈ s.threads

/-- What any other call leaves. -/
structure ThreadsSame (s s' : ProcessManager) : Prop where
  threads : s'.threads = s.threads
  new : s'.newThreads = s.newThreads
  terminated : s'.terminatedThreads = s.terminatedThreads

/-- What a call does to the thread lists, given what was done before. -/
def ThreadListsLaw (m : Machine) (w : Watched) (c : Call) : Prop :=
  match c, w.manager.taken c with
  | .updateWithThreads pid _, some taken =>
    ThreadsDiffed w.manager (w.step m c).manager (w.history.threadsBefore pid)
      (taken.snapshot.threadsOf pid)
  | _, _ => ThreadsSame w.manager (w.step m c).manager

/-- What a thread used between two snapshots. -/
def usedBetween (sample : Sample) (taken : Taken) (e e' : ThreadEntry) : ℤ :=
  (taken.snapshot.buffer.thread e'.offset).sum - (sample.snapshot.buffer.thread e.offset).sum

/-- A thread known before has the share it used between its two samples. -/
def ThreadCpuLaw (m : Machine) (w : Watched) (c : Call) : Prop :=
  OfThreadsMetAgain w c fun sample taken e e' =>
    ∀ t ∈ (w.step m c).manager.threads, t.key = e.key →
      t.cpu.toInt = m.share sample.ticks taken.ticks (usedBetween sample taken e e')

def ThreadsLaw (m : Machine) (w : Watched) (c : Call) : Prop :=
  w.manager.ReadsHeld m c ∧ ThreadListsLaw m w c ∧ ThreadCpuLaw m w c

/-- When threads are met again, no `Update` succeeded since the `UpdateWithThreads` that took them,
its tick reading counts, no times went back, and the products and the figures fit. -/
def SampledLast (m : Machine) (w : Watched) (c : Call) : Prop :=
  OfThreadsMetAgain w c fun sample taken e e' =>
    sample.Last ∧ m.Measured sample.ticks taken.ticks (usedBetween sample taken e e')

instance (m : Machine) (w : Watched) : DecidablePred (SampledLast m w) := fun _ =>
  inferInstanceAs (Decidable (OfThreadsMetAgain _ _ _))

/-! ## what is carried between calls -/

/-- The threads an `UpdateWithThreads` looks up. -/
def ProcessManager.knownThreads (s : ProcessManager) (pid : UInt32) : List ThreadInfo :=
  if pid ≠ s.threadsPid then [] else s.threads

/-- The thread objects point to the sample; until the next successful update its buffer has it. -/
structure SampleKept (s : ProcessManager) (sample : Sample) : Prop where
  pid : s.threadsPid = sample.pid
  distinct : ((sample.snapshot.threadsOf sample.pid).map ThreadEntry.key).Nodup
  threads : ∃ place, PlacedSince s.buffers s.bufIndex sample.since place ∧
    List.Forall₂ (ThreadInfo.StandsFor place) (sample.snapshot.threadsOf sample.pid) s.threads
  ticks : sample.Last → s.prevTicks = sample.ticks
  content : sample.Last → (s.buffers (1 - s.bufIndex)).content = some sample.snapshot.buffer
  fresh : sample.Last → sample.since.freed = false

/-- The manager has the last sample's threads. -/
structure Sampled (s : ProcessManager) (h : History) : Prop where
  index : s.threadsByKey.Indexes ThreadInfo.key s.threads
  unsampled : h.sample = none → s.threads = []
  kept : ∀ sample ∈ h.sample, SampleKept s sample

theorem sampled_start : Sampled {} {} where
  index := Finmap.Indexes.empty
  unsampled _ := rfl
  kept _ hsample := absurd hsample (Option.not_mem_none _)

theorem keys_of_standFor {place : Place} {entries : List ThreadEntry} {threads : List ThreadInfo}
    (h : List.Forall₂ (ThreadInfo.StandsFor place) entries threads) :
    threads.map ThreadInfo.key = entries.map ThreadEntry.key := by
  induction h with
  | nil => rfl
  | cons hstands _ ih => rw [List.map_cons, List.map_cons, hstands.1, ih]

section Known

variable {s : ProcessManager} {h : History}

theorem Sampled.known (hs : Sampled s h) (pid : UInt32) :
    (s.knownByKey pid).Indexes ThreadInfo.key (s.knownThreads pid) := by
  unfold ProcessManager.knownByKey ProcessManager.knownThreads
  by_cases hp : pid ≠ s.threadsPid
  · rw [if_pos hp, if_pos hp]
    exact Finmap.Indexes.empty
  · rw [if_neg hp, if_neg hp]
    exact hs.index

/-- A sample's threads are those known, if they are of the same process. -/
theorem Sampled.threadsBefore (hs : Sampled s h) (pid : UInt32) :
    ((s.knownThreads pid).map ThreadInfo.key = (h.threadsBefore pid).map ThreadEntry.key) ∧
      ((h.threadsBefore pid).map ThreadEntry.key).Nodup := by
  rw [ProcessManager.knownThreads, History.threadsBefore]
  cases hsample : h.sample with
  | none =>
    refine ⟨?_, List.nodup_nil⟩
    rw [hs.unsampled hsample, ite_self]
    rfl
  | some sample =>
    obtain ⟨hpid, hdistinct, ⟨place, -, hstands⟩, -⟩ := hs.kept sample hsample
    rw [hpid]
    dsimp only
    by_cases hp : pid = sample.pid
    · subst hp
      rw [if_neg (not_not.mpr rfl), if_pos rfl]
      exact ⟨keys_of_standFor hstands, hdistinct⟩
    · rw [if_pos hp, if_neg hp]
      exact ⟨rfl, List.nodup_nil⟩

/-- The sample's object of a known thread. -/
theorem SampleKept.nativeInfo {sample : Sample} (hk : SampleKept s sample) :
    ∃ place, PlacedSince s.buffers s.bufIndex sample.since place ∧
      ∀ e ∈ sample.snapshot.threadsOf sample.pid, ∀ t ∈ s.threads, t.key = e.key →
        t.nativeInfo = ⟨place, e.offset⟩ := by
  obtain ⟨place, hplaced, hthreads⟩ := hk.threads
  refine ⟨place, hplaced, fun e he t ht hkey => ?_⟩
  obtain ⟨e₀, he₀, hstands⟩ := exists_of_forall₂ hthreads ht
  have heq : e₀ = e := List.inj_on_of_nodup_map hk.distinct he₀ he (hstands.1.symm.trans hkey)
  rw [hstands.2, heq]

end Known

/-! ## one update with threads -/

section Update

variable {m : Machine} {s : ProcessManager} {h : History} {pid : UInt32} {query : Query}
  {ticks : Int64} {snapshot : Snapshot}

/-- The walk over the threads of one successful update. -/
def ProcessManager.walkThreads (s : ProcessManager) (m : Machine) (pid : UInt32) (query : Query)
    (ticks : Int64) (snapshot : Snapshot) : Diff ProcessOrThreadKey ThreadInfo :=
  (threadWalk m (s.fill query).buffers s.bufIndex (m.delta s.prevTicks ticks)).walk
    { old := s.knownByKey pid, next := s.nextThread } (snapshot.threadsOf pid)

/-- The processes are taken apart from the threads. -/
theorem update_taken_threads (hq : (s.queried query).result = some ⟨ticks, snapshot⟩) :
    let s' := s.update m true pid query
    let d := s.walkThreads m pid query ticks snapshot
    s'.threads = d.current ∧ s'.newThreads = d.fresh ∧ s'.terminatedThreads = d.old.values ∧
      s'.threadsByKey = d.byKey ∧ s'.threadsPid = pid := by
  rw [ProcessManager.update_taken hq]
  exact ⟨rfl, rfl, rfl, rfl, rfl⟩

theorem walkThreads_diffed (m : Machine) (query : Query) (ticks : Int64) (hs : Sampled s h)
    (hd : snapshot.DistinctThreads pid) :
    (threadWalk m (s.fill query).buffers s.bufIndex (m.delta s.prevTicks ticks)).Diffed
      (s.knownByKey pid) (snapshot.threadsOf pid) (s.walkThreads m pid query ticks snapshot) :=
  Differ.walk_spec (f := threadWalk m (s.fill query).buffers s.bufIndex
    (m.delta s.prevTicks ticks)) (hs.known pid) hd s.nextThread

/-- Any thread stands for its entry. -/
theorem threadWalk_standsFor {buffers : Fin 2 → Storage Buffer} {index : Fin 2} {delta : Int64}
    {map : Finmap fun _ : ProcessOrThreadKey => ThreadInfo} {prev : List ThreadInfo}
    (hmap : map.Indexes ThreadInfo.key prev) {e : ThreadEntry} {t : ThreadInfo}
    (hb : (threadWalk m buffers index delta).Became map e t) :
    t.StandsFor (current buffers index) e := by
  have hkey : t.key = e.key := hb.keyOf hmap
  unfold Differ.Became at hb
  split at hb
  · obtain ⟨i, rfl⟩ := hb
    exact ⟨rfl, rfl⟩
  · next w hw => exact ⟨hkey, by rw [hb]; rfl⟩

theorem update_taken_standFor (hs : Sampled s h)
    (hq : (s.queried query).result = some ⟨ticks, snapshot⟩) (hd : snapshot.DistinctThreads pid) :
    List.Forall₂ (ThreadInfo.StandsFor (current (s.fill query).buffers s.bufIndex))
      (snapshot.threadsOf pid) (s.update m true pid query).threads := by
  rw [(update_taken_threads hq).1]
  exact (walkThreads_diffed m query ticks hs hd).current.imp fun e t hb =>
    threadWalk_standsFor (hs.known pid) hb

theorem update_taken_threadsDiffed (hs : Sampled s h)
    (hq : (s.queried query).result = some ⟨ticks, snapshot⟩) (hd : snapshot.DistinctThreads pid) :
    ThreadsDiffed s (s.update m true pid query) (h.threadsBefore pid)
      (snapshot.threadsOf pid) := by
  have hknown := hs.known pid
  obtain ⟨hkeys, hdistinct⟩ := hs.threadsBefore pid
  have hspec := walkThreads_diffed m query ticks hs hd
  have hleft := hspec.left hknown
  rw [← hkeys] at hdistinct
  have hvalues := hleft.values_eq
    (List.Nodup.sublist (List.Sublist.map _ List.filter_sublist) hdistinct)
  obtain ⟨hthreads, hnew, hterminated, -⟩ := @update_taken_threads m s pid query ticks snapshot hq
  refine ⟨?_, ?_, ?_, ?_⟩
  · rw [ProcessManager.update_taken_lastPlace hq]
    exact update_taken_standFor hs hq hd
  · rw [hnew, hthreads, ← hkeys]
    exact hspec.new hknown
  · rw [hterminated, hvalues, Multiset.map_coe, ← hkeys, List.filter_map]
    rfl
  · intro t ht
    rw [hterminated, hvalues, Multiset.mem_coe, List.mem_filter] at ht
    obtain ⟨ht, -⟩ := ht
    unfold ProcessManager.knownThreads at ht
    split at ht
    · exact absurd ht List.not_mem_nil
    · exact ht

/-- What is read of the sample while it is the last update's. -/
theorem SampleKept.bufferAt {sample : Sample} (hk : SampleKept s sample) (hlast : sample.Last)
    {place : Place} (hplaced : PlacedSince s.buffers s.bufIndex sample.since place) (query : Query) :
    Process.bufferAt (s.fill query).buffers place = sample.snapshot.buffer := by
  have hage : sample.since.age = 0 := hlast
  have hbuffer : place.buffer = 1 - s.bufIndex := by rw [hplaced.buffer, hage, slot_even rfl]
  have hcontent := hplaced.readAt_held (hk.fresh hlast)
  rw [hage, slot_even rfl, hk.content hlast] at hcontent
  rw [Process.bufferAt, readAt, hbuffer, ProcessManager.fill_other, ← hbuffer]
  rw [readAt] at hcontent
  rw [hcontent]
  rfl

/-- A known thread's CPU, when the last successful update took it too. -/
theorem update_taken_usage (hs : Sampled s h)
    (hq : (s.queried query).result = some ⟨ticks, snapshot⟩) (hd : snapshot.DistinctThreads pid)
    {sample : Sample} (hsample : h.sample = some sample) (hlast : sample.Last)
    (hpid : sample.pid = pid) {e e' : ThreadEntry} (he : e ∈ sample.snapshot.threadsOf pid)
    (he' : e' ∈ snapshot.threadsOf pid) (hkey : e'.key = e.key) {t : ThreadInfo}
    (ht : t ∈ (s.update m true pid query).threads) (htkey : t.key = e.key) :
    t.cpu = m.usage
      ((snapshot.buffer.thread e'.offset).total - (sample.snapshot.buffer.thread e.offset).total)
      (m.delta sample.ticks ticks) := by
  subst hpid
  have hk := hs.kept sample hsample
  rw [(update_taken_threads hq).1] at ht
  -- the thread was known, and its object points to the sample
  obtain ⟨a, ha, hb⟩ := (walkThreads_diffed m query ticks hs hd).exists_of_mem ht
  have hakey : t.key = a.key := hb.keyOf (hs.known sample.pid)
  obtain rfl : a = e' :=
    List.inj_on_of_nodup_map hd ha he' (hakey.symm.trans (htkey.trans hkey.symm))
  have hmem : e.key ∈ (s.knownThreads sample.pid).map ThreadInfo.key := by
    rw [(hs.threadsBefore sample.pid).1, History.threadsBefore, hsample]
    dsimp only
    rw [if_pos rfl]
    exact List.mem_map.mpr ⟨e, he, rfl⟩
  obtain ⟨w, hw, hwkey⟩ := List.mem_map.mp hmem
  have hlook : (s.knownByKey sample.pid).lookup a.key = some w :=
    (hs.known sample.pid a.key w).mpr ⟨hw, hwkey.trans hkey.symm⟩
  have hknown : s.knownThreads sample.pid = s.threads := by
    rw [ProcessManager.knownThreads, hk.pid, if_neg (not_not.mpr rfl)]
  rw [hknown] at hw
  obtain ⟨place, hplaced, hnative⟩ := hk.nativeInfo
  simp only [Differ.Became, threadWalk, hlook] at hb
  rw [hb]
  -- both samples are read
  simp only [hnative e he w hw hwkey, ProcessManager.bufferAt_current hq,
    hk.bufferAt hlast hplaced query, hk.ticks hlast]
  rw [Times.total, Times.total, Int64.add_comm (sample.snapshot.buffer.thread _).userTime]

theorem update_taken_sampled (hs : Sampled s h)
    (hq : (s.queried query).result = some ⟨ticks, snapshot⟩) (hd : snapshot.DistinctThreads pid) :
    Sampled (s.update m true pid query)
      { entries := snapshot.entries, sample := some { pid, ticks, snapshot } } := by
  obtain ⟨hthreads, -, -, hbyKey, hpid⟩ := @update_taken_threads m s pid query ticks snapshot hq
  obtain ⟨hbuffers, hindex, hticks⟩ :=
    @ProcessManager.update_taken_buffers s query m true pid ticks snapshot hq
  refine ⟨?_, fun hnone => absurd hnone (Option.some_ne_none _), fun sample hsample => ?_⟩
  · rw [hthreads, hbyKey]
    exact (walkThreads_diffed m query ticks hs hd).byKey
  · obtain rfl := Option.some.inj hsample
    refine ⟨hpid, hd, ?_, fun _ => hticks, fun _ => ?_, fun _ => rfl⟩
    · refine ⟨_, ?_, update_taken_standFor hs hq hd⟩
      rw [hbuffers, hindex]
      refine PlacedSince.start ?_
      rw [ProcessManager.fill_content hq]
      rfl
    · rw [hbuffers, hindex, one_sub_one_sub]
      exact ProcessManager.fill_content hq

end Update

/-! ## a call -/

section Call

variable {m : Machine} {w : Watched} {c : Call}

theorem Sample.not_last_turn (sample : Sample) (released : Bool) :
    ¬ (sample.attempt released).turn.Last :=
  Nat.succ_ne_zero _

theorem Sample.last_attempt {sample : Sample} {released : Bool}
    (h : (sample.attempt released).Last) : sample.Last := h

/-- The first query after a sample fills the other buffer. -/
theorem Sample.freed_attempt {sample : Sample} (h : sample.Last) (released : Bool) :
    (sample.attempt released).since.freed = sample.since.freed := by
  have hage : sample.since.age = 0 := h
  simp [Sample.attempt, Since.attempt, hage]

/-- A failed query fills the buffer that is next. -/
theorem fill_sampled (hs : Sampled w.manager w.history) (c : Call) :
    Sampled (w.manager.fill c.query)
      { w.history with
        sample := w.history.sample.map (Sample.attempt (w.manager.releases c)) } where
  index := hs.index
  unsampled hnone := hs.unsampled (Option.map_eq_none_iff.mp hnone)
  kept sample hsample := by
    obtain ⟨before, hbefore, rfl⟩ := Option.map_eq_some_iff.mp hsample
    obtain ⟨hpid, hdistinct, ⟨place, hplaced, hstands⟩, hticks, hcontent, hfresh⟩ :=
      hs.kept before hbefore
    refine ⟨hpid, hdistinct, ⟨place, ProcessManager.placed_fill hplaced c, hstands⟩, hticks,
      fun hlast => ?_, fun hlast => ?_⟩
    · exact (congrArg Storage.content (ProcessManager.fill_other _ _)).trans (hcontent hlast)
    · rw [Sample.freed_attempt (Sample.last_attempt hlast)]
      exact hfresh hlast

/-- An `Update` leaves the threads. -/
theorem update_taken_noThreads (hs : Sampled w.manager w.history) {query : Query} {ticks : Int64}
    {snapshot : Snapshot} (hq : (w.manager.queried query).result = some ⟨ticks, snapshot⟩) :
    Sampled (w.manager.update m false 0 query)
      { entries := snapshot.entries
        sample := w.history.sample.map fun sample =>
          (sample.attempt (w.manager.releases (.update query))).turn } := by
  have hupdate := @ProcessManager.update_taken w.manager query m false 0 ticks snapshot hq
  have hsame : (w.manager.update m false 0 query).threads = w.manager.threads ∧
      (w.manager.update m false 0 query).threadsByKey = w.manager.threadsByKey ∧
      (w.manager.update m false 0 query).threadsPid = w.manager.threadsPid := by
    rw [hupdate]
    exact ⟨rfl, rfl, rfl⟩
  obtain ⟨hthreads, hbyKey, hthreadsPid⟩ := hsame
  refine ⟨?_, fun hnone => ?_, fun sample hsample => ?_⟩
  · rw [hthreads, hbyKey]
    exact hs.index
  · rw [hthreads]
    exact hs.unsampled (Option.map_eq_none_iff.mp hnone)
  · obtain ⟨before, hbefore, rfl⟩ := Option.map_eq_some_iff.mp hsample
    obtain ⟨hpid, hdistinct, ⟨place, hplaced, hstands⟩, -⟩ := hs.kept before hbefore
    refine ⟨hthreadsPid.trans hpid, hdistinct, ⟨place, ?_, ?_⟩, fun hlast => ?_, fun hlast => ?_,
      fun hlast => ?_⟩
    · exact @ProcessManager.placed_update w.manager (.update query) m ticks snapshot _ _ hplaced hq
    · rw [hthreads]
      exact hstands
    -- the sample is no longer the last update's
    · exact absurd hlast (Sample.not_last_turn _ _)
    · exact absurd hlast (Sample.not_last_turn _ _)
    · exact absurd hlast (Sample.not_last_turn _ _)

theorem sampled_step (hs : Sampled w.manager w.history) (hd : DistinctThreads w.manager c) :
    Sampled (w.step m c).manager (w.step m c).history := by
  show Sampled (w.manager.step m c) (w.history.next _ c (w.manager.taken c))
  cases htaken : w.manager.taken c with
  | none =>
    rw [ProcessManager.step, ProcessManager.update_failed htaken, History.next_none]
    exact fill_sampled hs c
  | some taken =>
    obtain ⟨ticks, snapshot⟩ := taken
    cases c with
    | update query => exact update_taken_noThreads hs htaken
    | updateWithThreads pid query => exact update_taken_sampled hs htaken (hd rfl _ htaken)

/-- A call that takes no threads leaves them. -/
theorem threadsSame_of_fill (s : ProcessManager) (query : Query) : ThreadsSame s (s.fill query) :=
  ⟨rfl, rfl, rfl⟩

theorem threadListsLaw_of_sampled (hs : Sampled w.manager w.history)
    (hd : DistinctThreads w.manager c) : ThreadListsLaw m w c := by
  cases htaken : w.manager.taken c with
  | none =>
    have hsame : ThreadsSame w.manager (w.step m c).manager := by
      show ThreadsSame w.manager (w.manager.step m c)
      rw [ProcessManager.step, ProcessManager.update_failed htaken]
      exact threadsSame_of_fill _ _
    cases c <;> simpa only [ThreadListsLaw, htaken] using hsame
  | some taken =>
    obtain ⟨ticks, snapshot⟩ := taken
    cases c with
    | update query =>
      show ThreadsSame w.manager (w.manager.update m false 0 query)
      have hq : (w.manager.queried query).result = some ⟨ticks, snapshot⟩ := htaken
      rw [ProcessManager.update_taken hq]
      exact ⟨rfl, rfl, rfl⟩
    | updateWithThreads pid query =>
      simp only [ThreadListsLaw, htaken]
      exact update_taken_threadsDiffed hs htaken (hd rfl _ htaken)

/-- The figures the code adds up. -/
theorem toInt_total_sub (old new : Times) :
    (new.total - old.total).toInt = (new.sum - old.sum).bmod (2 ^ 64) := by
  rw [Int64.toInt_sub, Times.total, Times.total, Int64.toInt_add, Int64.toInt_add,
    Int.bmod_sub_bmod, Int.sub_bmod_bmod, Times.sum, Times.sum]

theorem threadCpuLaw_of_sampledLast (hf : 0 < m.qpcFrequency.toInt)
    (hN : 0 < m.totalProcessors.toNat) (hs : Sampled w.manager w.history)
    (hd : DistinctThreads w.manager c) (hlast : SampledLast m w c) : ThreadCpuLaw m w c := by
  intro hthreads taken htaken sample hsample hpid e he e' he' hkey t ht htkey
  obtain ⟨hsampleLast, hmeasured⟩ :=
    hlast hthreads taken htaken sample hsample hpid e he e' he' hkey
  obtain ⟨ticks, snapshot⟩ := taken
  have hupdate : (w.step m c).manager = w.manager.update m true c.pid c.query := by
    show w.manager.step m c = _
    rw [ProcessManager.step, hthreads]
  rw [hupdate] at ht
  rw [update_taken_usage hs htaken (hd hthreads _ htaken) hsample hsampleLast hpid he he' hkey ht
    htkey]
  exact usage_eq_share hf hN (toInt_total_sub _ _) hmeasured

/-- The sample was not given back when it is the last update's. -/
theorem sampleHeld_of_sampledLast (hs : Sampled w.manager w.history) (h : SampledLast m w c) :
    SampleHeld w c := by
  intro hthreads taken htaken sample hsample hpid e he e' he' hkey
  obtain ⟨hlast, -⟩ := h hthreads taken htaken sample hsample hpid e he e' he' hkey
  rw [Sample.freed_attempt hlast]
  exact (hs.kept sample hsample).fresh hlast

end Call

/-! ## every run -/

/--
**Where no `Update` comes between two samples of a thread, the thread lists are exactly the
differences between them and each CPU is the share used in the time between them**, in every run.
-/
theorem threads_sampledLast (m : Machine) (calls : List Call) (hf : 0 < m.qpcFrequency.toInt)
    (hN : 0 < m.totalProcessors.toNat)
    (hd : Along (Watched.step m) (fun w c => DistinctThreads w.manager c) {} calls)
    (h : Along (Watched.step m) (SampledLast m) {} calls) :
    Along (Watched.step m) (ThreadsLaw m) {} calls := by
  refine Along.mono_of_invariant (fun w => Sampled w.manager w.history ∧ Pointed w)
    (fun _ c hw hc => ⟨sampled_step hw.1 hc.1, pointed_step hw.2 c⟩) (fun w c hw hc => ?_)
    ⟨sampled_start, pointed_start⟩ (hd.and h)
  obtain ⟨hs, hpointed⟩ := hw
  obtain ⟨hdistinct, hlast⟩ := hc
  exact ⟨readsHeld_of_pointed hpointed (sampleHeld_of_sampledLast hs hlast),
    threadListsLaw_of_sampled hs hdistinct, threadCpuLaw_of_sampledLast hf hN hs hdistinct hlast⟩

/-! ## runs on one thread -/

/-- One processor, and a counter of 10 MHz. -/
def oneProcessor : Machine := ⟨1, 10000000⟩

/-- A process with one thread, which has used `used` so far. -/
def oneThread (used : Int64) : Snapshot where
  entries := [⟨0, 1, 4, 0, [⟨256, 2, 8, 4⟩]⟩]
  buffer := { thread := fun _ => ⟨0, used⟩ }

/-- Three samples, a second apart. -/
def sampledTwice : List Call :=
  [.update (.ok 10000000 (oneThread 0)), .updateWithThreads 0 (.ok 20000000 (oneThread 5000000)),
    .updateWithThreads 0 (.ok 30000000 (oneThread 10000000))]

theorem threads_sampledTwice :
    Along (Watched.step oneProcessor) (ThreadsLaw oneProcessor) {} sampledTwice :=
  threads_sampledLast oneProcessor sampledTwice (by decide) (by decide) (by decide) (by decide)

/-- An `Update` between two samples. -/
def updatedBetween : List Call :=
  [.updateWithThreads 0 (.ok 10000000 (oneThread 0)), .update (.ok 20000000 (oneThread 5000000)),
    .updateWithThreads 0 (.ok 30000000 (oneThread 10000000))]

/-- The thread used half of the two seconds since its last sample, but has CPU 0: its object points
to the buffer that the new snapshot overwrote. -/
theorem threads_updatedBetween :
    ¬ ∀ (m : Machine) (calls : List Call), 0 < m.qpcFrequency.toInt → 0 < m.totalProcessors.toNat →
      Along (Watched.step m) (fun w c => DistinctThreads w.manager c) {} calls →
        Along (Watched.step m) (ThreadsLaw m) {} calls := by
  intro hall
  have h := hall oneProcessor updatedBetween (by decide) (by decide) (by decide)
  have hcpu := h.2.2.1.2.2 rfl _ rfl _ rfl rfl ⟨256, 2, 8, 4⟩ (by decide) ⟨256, 2, 8, 4⟩
    (by decide) rfl ⟨0, ⟨⟨0, 1⟩, 256⟩, 8, 4, ⟨2, 8⟩, 0⟩ (by decide) rfl
  exact absurd hcpu (by decide)

end WinSys.Process
