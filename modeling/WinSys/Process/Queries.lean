import WinSys.Process.Manager

/-!
# What a query makes of its buffer

A query that is answered with a snapshot leaves it in the buffer. The buffer's memory is given back
exactly when the first answer is that it is too small, whatever comes after.

* `queried_content`: what a successful query leaves
* `queried_follows`: what becomes of the buffer's memory
-/

namespace WinSys.Process

open Infra

section Loop

variable {query : Query} {turns i : ℕ} {buffer : Storage Buffer} {size : UInt32}

/-- What was given back stays so. -/
theorem querySystemProcesses_gone {allocation : ℕ} (h : buffer.Gone allocation) :
    (querySystemProcesses query turns i buffer size).buffer.Gone allocation := by
  induction turns generalizing i buffer size with
  | zero => exact h
  | succ turns ih =>
    rw [querySystemProcesses]
    dsimp only
    cases hcontent : buffer.content with
    | none =>
      -- memory is allocated first, if there is any
      simp only [Option.isNone_none, Bool.true_and, if_true]
      split
      · exact h
      · split
        · exact (h.allocate {}).put rfl _
        · exact ih (h.allocate {}).release
        · exact (h.allocate {}).put rfl _
    | some b =>
      simp only [Option.isNone_some, Bool.false_and, Bool.false_eq_true, if_false]
      have hsome : buffer.content.isSome := by rw [hcontent]; rfl
      split
      · exact h.put hsome _
      · exact ih h.release
      · exact h.put hsome _

/-- A snapshot that is returned is in the buffer. -/
theorem querySystemProcesses_content {taken : Taken}
    (h : (querySystemProcesses query turns i buffer size).result = some taken) :
    (querySystemProcesses query turns i buffer size).buffer.content
      = some taken.snapshot.buffer := by
  induction turns generalizing i buffer size with
  | zero => exact absurd h.symm (Option.some_ne_none taken)
  | succ turns ih =>
    rw [querySystemProcesses] at h ⊢
    dsimp only at h ⊢
    split at h
    · exact absurd h.symm (Option.some_ne_none taken)
    · next hallocated =>
      rw [if_neg hallocated]
      split at h
      · obtain rfl := Option.some.inj h
        rfl
      · exact ih h
      · exact absurd h.symm (Option.some_ne_none taken)

/-- A turn on a buffer that has memory. -/
theorem querySystemProcesses_of_isSome (h : buffer.content.isSome) :
    querySystemProcesses query (turns + 1) i buffer size =
      match (query.turn i size).answer with
      | .success snapshot =>
        ⟨buffer.put snapshot.buffer, size, some ⟨(query.turn i size).ticks, snapshot⟩⟩
      | .infoLengthMismatch len =>
        querySystemProcesses query turns (i + 1) buffer.release (max (size * 2) (len + 0x10000))
      | .failed left => ⟨buffer.put left, size, none⟩ := by
  have hnull : buffer.content.isNone = false := by
    rw [← Option.not_isSome, h]
    rfl
  rw [querySystemProcesses]
  cases hanswer : (query.turn i size).answer <;>
    simp only [hnull, askedSize, hanswer, Bool.false_and, Bool.false_eq_true, if_false]

end Loop

namespace ProcessManager

variable {s : ProcessManager} {c : Call} {query : Query} {taken : Taken}

theorem queried_content (h : (s.queried query).result = some taken) :
    (s.queried query).buffer.content = some taken.snapshot.buffer :=
  querySystemProcesses_content h

/-- The memory is given back when the first answer is that it is too small. -/
theorem queried_follows (s : ProcessManager) (c : Call) :
    Storage.Follows (s.releases c) (s.buffers s.bufIndex) (s.queried c.query).buffer where
  kept hsome hkept := by
    rw [queried, querySystemProcesses_of_isSome hsome]
    rw [releases, hsome, Bool.true_and] at hkept
    split at hkept
    · exact absurd hkept.symm Bool.false_ne_true
    · next snapshot hanswer =>
      rw [hanswer]
      exact ⟨rfl, rfl⟩
    · next left hanswer =>
      rw [hanswer]
      exact ⟨rfl, rfl⟩
  released hsome hreleased := by
    rw [queried, querySystemProcesses_of_isSome hsome]
    rw [releases, hsome, Bool.true_and] at hreleased
    split at hreleased
    · next len hanswer =>
      rw [hanswer]
      exact querySystemProcesses_gone Storage.gone_release
    · exact absurd hreleased Bool.false_ne_true
    · exact absurd hreleased Bool.false_ne_true
  gone _ h := querySystemProcesses_gone h

/-- What a query leaves that fails with its memory. -/
theorem queried_left (hsome : (s.buffers s.bufIndex).content.isSome)
    (hkept : s.releases c = false) (h : (s.queried c.query).result = none) :
    ∃ left, (c.query.turn 0 (s.bufferSizes s.bufIndex)).answer = .failed left ∧
      (s.queried c.query).buffer.content = some left := by
  rw [queried, querySystemProcesses_of_isSome hsome] at h ⊢
  rw [releases, hsome, Bool.true_and] at hkept
  split at hkept
  · exact absurd hkept.symm Bool.false_ne_true
  · next snapshot hanswer =>
    rw [hanswer] at h
    exact absurd h (Option.some_ne_none _)
  · next left hanswer =>
    rw [hanswer]
    exact ⟨left, rfl, rfl⟩

/-! ## the buffers behind a query -/

/-- The other buffer is left alone. -/
theorem fill_other (s : ProcessManager) (query : Query) :
    (s.fill query).buffers (1 - s.bufIndex) = s.buffers (1 - s.bufIndex) :=
  Function.update_of_ne (one_sub_ne _) _ _

theorem fill_current (s : ProcessManager) (query : Query) :
    (s.fill query).buffers s.bufIndex = (s.queried query).buffer :=
  Function.update_self _ _ _

theorem lastPlace_fill (s : ProcessManager) (query : Query) :
    (s.fill query).lastPlace = s.lastPlace := by
  show current (s.fill query).buffers (1 - s.bufIndex) = _
  rw [current, fill_other]
  rfl

/-- What a successful query put into the buffer. -/
theorem fill_content (h : (s.queried query).result = some taken) :
    ((s.fill query).buffers s.bufIndex).content = some taken.snapshot.buffer := by
  rw [fill_current]
  exact queried_content h

theorem bufferAt_current (h : (s.queried query).result = some taken) :
    bufferAt (s.fill query).buffers (current (s.fill query).buffers s.bufIndex)
      = taken.snapshot.buffer := by
  rw [bufferAt, readAt, current]
  dsimp only
  rw [Storage.read_self, fill_content h]
  rfl

/-- Where a place is after a query. -/
theorem placed_fill {since : Since} {place : Place}
    (h : PlacedSince s.buffers s.bufIndex since place) (c : Call) :
    PlacedSince (s.fill c.query).buffers s.bufIndex (since.attempt (s.releases c)) place :=
  h.attempt (queried_follows s c)

/-! ## an update -/

variable {m : Machine} {includeThreads : Bool} {pid : UInt32} {ticks : Int64} {snapshot : Snapshot}

theorem update_failed (h : (s.queried query).result = none) :
    s.update m includeThreads pid query = s.fill query := by
  rw [update, h]

theorem update_taken (h : (s.queried query).result = some ⟨ticks, snapshot⟩) :
    s.update m includeThreads pid query =
      let delta := m.delta s.prevTicks ticks
      let s' := (s.fill query).updateProcesses m delta snapshot
      (if includeThreads then s'.updateThreads m pid delta snapshot else s').flip ticks := by
  rw [update, h]

/-- Where an update leaves its buffers. -/
theorem update_taken_buffers (h : (s.queried query).result = some ⟨ticks, snapshot⟩) :
    (s.update m includeThreads pid query).buffers = (s.fill query).buffers ∧
      (s.update m includeThreads pid query).bufIndex = 1 - s.bufIndex ∧
      (s.update m includeThreads pid query).prevTicks = ticks := by
  rw [update_taken h]
  cases includeThreads <;> exact ⟨rfl, rfl, rfl⟩

/-- Where the snapshot is behind an update. -/
theorem update_taken_lastPlace (h : (s.queried query).result = some ⟨ticks, snapshot⟩) :
    (s.update m includeThreads pid query).lastPlace
      = current (s.fill query).buffers s.bufIndex := by
  obtain ⟨hbuffers, hindex, -⟩ :=
    @update_taken_buffers s query m includeThreads pid ticks snapshot h
  rw [lastPlace, hbuffers, hindex, one_sub_one_sub]

/-- Where a place is after a successful update. -/
theorem placed_update {since : Since} {place : Place}
    (hplaced : PlacedSince s.buffers s.bufIndex since place)
    (h : s.taken c = some ⟨ticks, snapshot⟩) :
    PlacedSince (s.step m c).buffers (s.step m c).bufIndex (since.attempt (s.releases c)).turn
      place := by
  obtain ⟨hbuffers, hindex, -⟩ :=
    @update_taken_buffers s c.query m c.includeThreads c.pid ticks snapshot h
  rw [step, hbuffers, hindex]
  exact (placed_fill hplaced c).turn

end ProcessManager

end WinSys.Process
