import Mathlib.Data.List.Chain
import WinSys.FileIo.Tracker
import WinSys.Infra.Run
import WinSys.Infra.Ticks

/-!
# What pruning forgets

The event thread and the resolver share the tables under a lock, but for a read or write, the
resolver's answers and `Prune` the clock is read before the lock is taken. `Prune` erases by
`tick - LastTick`, in 64-bit unsigned arithmetic: from a tick above the pruning one the difference
wraps around.

* `Threads`, `Move`: the tracker with what its threads have read of the clock
* `PrunesIdle`, `Exact`: only what was idle is erased, and a row in use has all of its events
* `Current`: what a `Prune` must find
* `prune_keeps_recent`
-/

namespace WinSys.FileIo

open Infra

/-! ## the threads -/

/-- A read or write, as it is counted. -/
structure Op where
  size : UInt32
  write : Bool
  tick : UInt64
deriving DecidableEq, Repr

structure Threads where
  tracker : FileIoTracker := {}
  /-- The last reading of the clock. -/
  clock : UInt64 := 0
  /-- What `OnReadWrite` has read before it locks. -/
  eventTick : Option UInt64 := none
  /-- What `Resolve` has. -/
  resolveTick : Option UInt64 := none
  /-- What `Prune` has. -/
  pruneTick : Option UInt64 := none
  /-- History: the reads and writes since the process was last removed, the latest first. -/
  given : FileId → List Op := fun _ => []
  /-- History: those counted into the row as it is. -/
  counted : FileId → List Op := fun _ => []
  /-- History: the ticks a key's name was learned and used at, the latest first. -/
  named : UInt64 → List UInt64 := fun _ => []
  /-- History: the same for a file object's name. -/
  objectNamed : UInt64 → List UInt64 := fun _ => []

/-- A step of one of the threads, or of a caller. -/
inductive Move
  /-- `OnReadWrite`, which returns at once without a key, reads the clock. -/
  | readsEvent (now : UInt64)
  | readWrite (fileObject key : UInt64) (pid size : UInt32) (write : Bool) (time : ℤ)
  /-- The clock is read under the lock. -/
  | nameCreate (key : UInt64) (name : WString) (now : UInt64)
  | create (fileObject : UInt64) (name : WString) (now : UInt64)
  /-- `Resolve` swaps `m_Pending` out. -/
  | takes
  | readsResolve (now : UInt64)
  | storeNames (names : List (UInt64 × WString)) (unnamed : List UInt64)
  | readsPrune (now : UInt64)
  | prune
  | removeProcess (pid : UInt32)

namespace Threads

variable (s : Threads)

/-- The resolver is in neither `Resolve`'s end nor `Prune`. -/
def resolverFree : Bool := s.resolveTick.isNone && s.pruneTick.isNone

/-- A thread reads the clock, which never goes back, and locks after it has read it. -/
def enabled : Move → Bool
  | .readsEvent now | .nameCreate _ _ now | .create _ _ now =>
    s.eventTick.isNone && s.clock ≤ now
  | .readWrite _ key .. => s.eventTick.isSome && key ≠ 0
  | .takes => s.resolverFree
  | .readsResolve now | .readsPrune now => s.resolverFree && s.clock ≤ now
  | .storeNames .. => s.resolveTick.isSome
  | .prune => s.pruneTick.isSome
  | .removeProcess _ => true

/-- What a step does to the tables. -/
def moved : Move → FileIoTracker
  | .readWrite fileObject key pid size write time =>
    s.tracker.onReadWrite fileObject key pid size write time (s.eventTick.getD 0)
  | .nameCreate key name now => s.tracker.onNameCreate key name now
  | .create fileObject name now => s.tracker.onCreate fileObject name now
  | .takes => (Resolver.take s.tracker).2
  | .storeNames names unnamed => s.tracker.storeNames names unnamed (s.resolveTick.getD 0)
  | .prune => s.tracker.prune (s.pruneTick.getD 0)
  | .removeProcess pid => s.tracker.removeProcess pid
  | .readsEvent _ | .readsResolve _ | .readsPrune _ => s.tracker

/-- The reads and writes of a row, with a step's own. -/
def addOp (ops : FileId → List Op) : Move → FileId → List Op
  | .readWrite _ key pid size write _ =>
    Function.update ops ⟨pid, key⟩ (⟨size, write, s.eventTick.getD 0⟩ :: ops ⟨pid, key⟩)
  | _ => ops

def givenAfter (a : Move) (id : FileId) : List Op :=
  match a with
  | .removeProcess pid => if id.pid = pid then [] else s.given id
  | a => s.addOp s.given a id

/-- A row that is erased has none. -/
def countedAfter (a : Move) (id : FileId) : List Op :=
  if id ∈ (s.moved a).files then s.addOp s.counted a id else []

def namedAfter (a : Move) (k : UInt64) : List UInt64 :=
  match a with
  | .readWrite fileObject key .. =>
    let tick := s.eventTick.getD 0
    if k ≠ key then s.named k
    else if key ∈ s.tracker.names then tick :: s.named k
    else if fileObject ∈ s.tracker.objectNames then [tick]
    else s.named k
  | .nameCreate key name now => if k = key ∧ key ≠ 0 ∧ name ≠ [] then [now] else s.named k
  | .storeNames names _ =>
    if k ∉ s.tracker.names ∧ k ∈ names.map Prod.fst then [s.resolveTick.getD 0] else s.named k
  | _ => s.named k

def objectNamedAfter (a : Move) (o : UInt64) : List UInt64 :=
  match a with
  | .readWrite fileObject key .. =>
    if o = fileObject ∧ key ∉ s.tracker.names ∧ o ∈ s.tracker.objectNames then
      s.eventTick.getD 0 :: s.objectNamed o
    else s.objectNamed o
  | .create fileObject name now =>
    if o = fileObject ∧ fileObject ≠ 0 ∧ name ≠ [] then [now] else s.objectNamed o
  | _ => s.objectNamed o

def clockAfter : Move → UInt64
  | .readsEvent now | .nameCreate _ _ now | .create _ _ now | .readsResolve now
  | .readsPrune now => now
  | _ => s.clock

def step (a : Move) : Threads where
  tracker := s.moved a
  clock := s.clockAfter a
  eventTick :=
    match a with
    | .readsEvent now => some now
    | .readWrite .. => none
    | _ => s.eventTick
  resolveTick :=
    match a with
    | .readsResolve now => some now
    | .storeNames .. => none
    | _ => s.resolveTick
  pruneTick :=
    match a with
    | .readsPrune now => some now
    | .prune => none
    | _ => s.pruneTick
  given := s.givenAfter a
  counted := s.countedAfter a
  named := s.namedAfter a
  objectNamed := s.objectNamedAfter a

end Threads

/-! ## the law -/

/-- What `Prune` removes was idle: every read or write of a row, every time a name was learned or
used, lies more than the idle time below the pruning tick. -/
structure PrunesIdle (s : Threads) (tick : UInt64) : Prop where
  file : ∀ id file, s.tracker.files.lookup id = some file →
    (s.tracker.prune tick).files.lookup id = none →
    ∀ op ∈ s.counted id, op.tick.toNat + fileIdle.toNat < tick.toNat
  name : ∀ key n, s.tracker.names.lookup key = some n →
    (s.tracker.prune tick).names.lookup key = none →
    ∀ u ∈ s.named key, u.toNat + nameIdle.toNat < tick.toNat
  objectName : ∀ o n, s.tracker.objectNames.lookup o = some n →
    (s.tracker.prune tick).objectNames.lookup o = none →
    ∀ u ∈ s.objectNamed o, u.toNat + nameIdle.toNat < tick.toNat

/-- Up to now no `FileIdle` of time is without one of the operations, given the latest first. -/
def Steady (clock : UInt64) (ops : List Op) : Prop :=
  (∀ last ∈ ops.head?, clock.toNat ≤ last.tick.toNat + fileIdle.toNat)
    ∧ ops.IsChain fun later earlier => later.tick.toNat ≤ earlier.tick.toNat + fileIdle.toNat

/-- A row's counts are the sums over the operations. -/
structure File.HasSums (file : File) (ops : List Op) : Prop where
  bytesRead : file.bytesRead = (ops.map fun op => if op.write then 0 else op.size.toUInt64).sum
  bytesWritten :
    file.bytesWritten = (ops.map fun op => if op.write then op.size.toUInt64 else 0).sum
  reads : file.reads = (ops.map fun op => if op.write then 0 else 1).sum
  writes : file.writes = (ops.map fun op => if op.write then 1 else 0).sum

/-- A row that is steadily used has all of its events since the process was last removed. -/
def Exact (s : Threads) : Prop :=
  ∀ id, s.given id ≠ [] → Steady s.clock (s.given id) →
    ∃ file, s.tracker.files.lookup id = some file ∧ file.HasSums (s.given id)

/-- A name's tick is not above the pruning tick, and of the times it was learned or used each later
one is idle as well. -/
def Newest (last : UInt64) (noted : List UInt64) (tick : UInt64) : Prop :=
  last ≤ tick ∧ ∀ u ∈ noted, u ≤ last ∨ u.toNat + nameIdle.toNat < tick.toNat

instance (last : UInt64) (noted : List UInt64) (tick : UInt64) : Decidable (Newest last noted tick) :=
  inferInstanceAs (Decidable (_ ∧ _))

/-- What a `Prune` finds: nothing it takes for idle has a tick above the pruning one, and no such
name was in use later than its tick; and a row that was not idle yet by the clock of an event still
to be counted is not idle by the pruning tick. -/
structure Current (s : Threads) (tick : UInt64) : Prop where
  file : ∀ id file, s.tracker.files.lookup id = some file →
    tick - file.lastTick > fileIdle → file.lastTick ≤ tick
  coming : ∀ id file, s.tracker.files.lookup id = some file → ∀ now ∈ s.eventTick,
    now.toNat ≤ file.lastTick.toNat + fileIdle.toNat →
    tick.toNat ≤ file.lastTick.toNat + fileIdle.toNat
  name : ∀ key n, s.tracker.names.lookup key = some n →
    tick - n.tick > nameIdle → Newest n.tick (s.named key) tick
  objectName : ∀ o n, s.tracker.objectNames.lookup o = some n →
    tick - n.tick > nameIdle → Newest n.tick (s.objectNamed o) tick

/-- A condition on a step, if it is a `Prune`. -/
def AtPrune (ok : Threads → UInt64 → Prop) (s : Threads) : Move → Prop
  | .prune => ok s (s.pruneTick.getD 0)
  | _ => True

/-! ## one prune -/

section Prune

variable {s : Threads} {tick : UInt64} {id : FileId} {file : File}

/-- Each operation of a row is at most as late as its tick. -/
def Dated (s : Threads) : Prop :=
  ∀ id file, s.tracker.files.lookup id = some file → ∀ op ∈ s.counted id, op.tick ≤ file.lastTick

theorem Current.idle (h : Current s tick) (hf : s.tracker.files.lookup id = some file)
    (hn : (s.tracker.prune tick).files.lookup id = none) :
    file.lastTick.toNat + fileIdle.toNat < tick.toNat := by
  have hgt : tick - file.lastTick > fileIdle := by simpa using Finmap.of_eraseIf_none hf hn
  exact idle_of_sub_gt (h.file id file hf hgt) hgt

theorem Newest.idle {last u : UInt64} {noted : List UInt64} (h : Newest last noted tick)
    (hgt : tick - last > nameIdle) (hu : u ∈ noted) : u.toNat + nameIdle.toNat < tick.toNat := by
  have hage := idle_of_sub_gt h.1 hgt
  rcases h.2 u hu with hul | hidle
  · have hul' := UInt64.le_iff_toNat_le.mp hul
    omega
  · exact hidle

theorem prunesIdle_of_current (hd : Dated s) (h : Current s tick) : PrunesIdle s tick where
  file id file hf hn op hop := by
    have hidle := h.idle hf hn
    have hle := UInt64.le_iff_toNat_le.mp (hd id file hf op hop)
    omega
  name key n hk hn u hu := by
    have hgt : tick - n.tick > nameIdle := by simpa using Finmap.of_eraseIf_none hk hn
    exact (h.name key n hk hgt).idle hgt hu
  objectName o n ho hn u hu := by
    have hgt : tick - n.tick > nameIdle := by simpa using Finmap.of_eraseIf_none ho hn
    exact (h.objectName o n ho hgt).idle hgt hu

end Prune

/-! ## the rows' files -/

section Files

variable {t : FileIoTracker} {fileObject key tick : UInt64} {pid size : UInt32} {write : Bool}
  {time : ℤ}

@[simp]
theorem nameKey_files : (t.nameKey fileObject key tick).files = t.files := by
  unfold FileIoTracker.nameKey
  split
  · rfl
  · split
    · rfl
    · split <;> rfl

theorem onReadWrite_files (hk : key ≠ 0) :
    (t.onReadWrite fileObject key pid size write time tick).files
      = t.files.insert ⟨pid, key⟩
        (((t.files.lookup ⟨pid, key⟩).getD {}).note size write time tick) := by
  rw [FileIoTracker.onReadWrite, if_neg hk, nameKey_files]

theorem onNameCreate_files (name : WString) : (t.onNameCreate key name tick).files = t.files := by
  unfold FileIoTracker.onNameCreate
  split <;> rfl

theorem onCreate_files (name : WString) : (t.onCreate key name tick).files = t.files := by
  unfold FileIoTracker.onCreate
  split <;> rfl

theorem File.note_lastTick (file : File) : (file.note size write time tick).lastTick = tick := by
  unfold File.note
  dsimp only
  split <;> rfl

theorem File.HasSums.note {file : File} {ops : List Op} (h : file.HasSums ops) :
    (file.note size write time tick).HasSums (⟨size, write, tick⟩ :: ops) := by
  obtain ⟨hread, hwritten, hreads, hwrites⟩ := h
  unfold File.note
  cases write with
  | true =>
    refine ⟨?_, ?_, ?_, ?_⟩
    · simpa using hread
    · simp [hwritten, UInt64.add_comm]
    · simpa using hreads
    · simp [hwrites, UInt64.add_comm]
  | false =>
    refine ⟨?_, ?_, ?_, ?_⟩
    · simp [hread, UInt64.add_comm]
    · simpa using hwritten
    · simp [hreads, UInt64.add_comm]
    · simpa using hwrites

end Files

/-! ## the invariant -/

/-- The tick of the next read or write to be counted is this at least. -/
def Threads.next (s : Threads) : UInt64 := s.eventTick.getD s.clock

/-- The first operation of a row as it is, or the one to come. -/
def Threads.since (s : Threads) (id : FileId) : UInt64 :=
  ((s.counted id).getLast?.map Op.tick).getD s.next

structure Sound (s : Threads) : Prop where
  event : ∀ now ∈ s.eventTick, now ≤ s.clock
  pruning : ∀ now ∈ s.pruneTick, now ≤ s.clock
  past : ∀ id, ∀ op ∈ s.given id, op.tick ≤ s.next
  dated : Dated s
  row : ∀ id file, s.tracker.files.lookup id = some file →
    file.HasSums (s.counted id) ∧ ∃ last ∈ (s.counted id).head?, file.lastTick = last.tick
  erased : ∀ id, s.tracker.files.lookup id = none → s.counted id = []
  /-- What a row doesn't have any more is more than `FileIdle` older than what it has. -/
  cut : ∀ id, ∃ older, s.given id = s.counted id ++ older
    ∧ ∀ op ∈ older.head?, op.tick.toNat + fileIdle.toNat < (s.since id).toNat

section Sound

variable {s : Threads}

theorem Sound.start : Sound {} where
  event now h := by cases h
  pruning now h := by cases h
  past id op h := absurd h List.not_mem_nil
  dated id file h := by simp at h
  row id file h := by simp at h
  erased _ _ := rfl
  cut _ := ⟨[], rfl, fun op h => by cases h⟩

/-- A row that is steadily used was not erased. -/
theorem Sound.exact (h : Sound s) : Exact s := by
  intro id hgiven hsteady
  obtain ⟨older, hsplit, hcut⟩ := h.cut id
  have hnext : s.next ≤ s.clock := by
    unfold Threads.next
    cases he : s.eventTick with
    | none => exact UInt64.le_refl _
    | some now => exact h.event now he
  have hnone : older = [] := by
    cases older with
    | nil => rfl
    | cons op older =>
      have hgap := hcut op rfl
      obtain ⟨hlast, hchain⟩ := hsteady
      rw [hsplit] at hlast hchain
      unfold Threads.since at hgap
      cases hfirst : (s.counted id).getLast? with
      | none =>
        -- the row was erased: there was nothing from its last operation up to now
        rw [hfirst] at hgap
        rw [List.getLast?_eq_none_iff.mp hfirst] at hlast
        have hle := hlast op rfl
        have hclock := UInt64.le_iff_toNat_le.mp hnext
        simp only [Option.map_none, Option.getD_none] at hgap
        omega
      | some first =>
        -- nothing was counted in between
        rw [hfirst] at hgap
        have hle := (List.isChain_append.mp hchain).2.2 first hfirst op rfl
        simp only [Option.map_some, Option.getD_some] at hgap
        omega
  rw [hnone, List.append_nil] at hsplit
  cases hf : s.tracker.files.lookup id with
  | none => exact absurd (hsplit.trans (h.erased id hf)) hgiven
  | some file =>
    rw [hsplit]
    exact ⟨file, rfl, (h.row id file hf).1⟩

theorem since_mono {s' : Threads} {id : FileId} (hcounted : s'.counted id = s.counted id)
    (hnext : s.next ≤ s'.next) : (s.since id).toNat ≤ (s'.since id).toNat := by
  unfold Threads.since
  rw [hcounted]
  cases (s.counted id).getLast? with
  | none => exact UInt64.le_iff_toNat_le.mp hnext
  | some op => exact Nat.le_refl _

/-- A step that changes no row, while time goes on. -/
theorem Sound.of_frame {s' : Threads} (h : Sound s)
    (hfiles : s'.tracker.files = s.tracker.files) (hgiven : s'.given = s.given)
    (hcounted : s'.counted = s.counted) (hnext : s.next ≤ s'.next)
    (hevent : ∀ now ∈ s'.eventTick, now ≤ s'.clock)
    (hpruning : ∀ now ∈ s'.pruneTick, now ≤ s'.clock) : Sound s' where
  event := hevent
  pruning := hpruning
  past id op hop := by
    rw [hgiven] at hop
    exact UInt64.le_trans (h.past id op hop) hnext
  dated id file hf := by
    rw [hfiles] at hf
    rw [hcounted]
    exact h.dated id file hf
  row id file hf := by
    rw [hfiles] at hf
    rw [hcounted]
    exact h.row id file hf
  erased id hf := by
    rw [hfiles] at hf
    rw [hcounted]
    exact h.erased id hf
  cut id := by
    obtain ⟨older, hsplit, hcut⟩ := h.cut id
    refine ⟨older, by rw [hgiven, hcounted, hsplit], fun op hop => ?_⟩
    exact Nat.lt_of_lt_of_le (hcut op hop) (since_mono (congrFun hcounted id) hnext)

/-- What counts as a row's operations after a step that changes no row. -/
theorem Sound.countedAfter_eq (h : Sound s) {a : Move} (hfiles : (s.moved a).files = s.tracker.files)
    (hops : s.addOp s.counted a = s.counted) : s.countedAfter a = s.counted := by
  funext id
  unfold Threads.countedAfter
  rw [hfiles, hops]
  split
  · rfl
  · next hid => exact (h.erased id (Finmap.lookup_eq_none.mpr hid)).symm

theorem next_mono {s' : Threads} (hevent : s'.eventTick = s.eventTick) (hclock : s.clock ≤ s'.clock) :
    s.next ≤ s'.next := by
  unfold Threads.next
  rw [hevent]
  cases s.eventTick with
  | none => exact hclock
  | some now => exact UInt64.le_refl now

/-- A step that changes no row and takes no tick of the event thread's. -/
theorem Sound.frame {a : Move} (h : Sound s) (hfiles : (s.moved a).files = s.tracker.files)
    (hgiven : s.givenAfter a = s.given) (hops : s.addOp s.counted a = s.counted)
    (hevent : (s.step a).eventTick = s.eventTick) (hclock : s.clock ≤ s.clockAfter a)
    (hpruning : ∀ now ∈ (s.step a).pruneTick, now ≤ s.clockAfter a) : Sound (s.step a) :=
  h.of_frame hfiles hgiven (h.countedAfter_eq hfiles hops) (next_mono hevent hclock)
    (fun now hnow => UInt64.le_trans (h.event now (hevent ▸ hnow)) hclock) hpruning

theorem Sound.readsEvent {now : UInt64} (h : Sound s) (ha : s.enabled (.readsEvent now) = true) :
    Sound (s.step (.readsEvent now)) := by
  simp only [Threads.enabled, Bool.and_eq_true, decide_eq_true_eq, Option.isNone_iff_eq_none] at ha
  obtain ⟨hnone, hle⟩ := ha
  refine h.of_frame rfl rfl (h.countedAfter_eq rfl rfl) ?_ ?_ ?_
  · unfold Threads.next
    rw [hnone]
    exact hle
  · intro n hn
    cases hn
    exact UInt64.le_refl now
  · exact fun n hn => UInt64.le_trans (h.pruning n hn) hle

theorem Sound.counted_sub (h : Sound s) {id : FileId} {op : Op} (hop : op ∈ s.counted id) :
    op ∈ s.given id := by
  obtain ⟨older, hsplit, -⟩ := h.cut id
  rw [hsplit]
  exact List.mem_append_left older hop

/-- What an event finds of its row, a new one included. -/
theorem Sound.hasSums (h : Sound s) (id : FileId) :
    ((s.tracker.files.lookup id).getD {}).HasSums (s.counted id) := by
  cases hf : s.tracker.files.lookup id with
  | none =>
    rw [h.erased id hf]
    exact ⟨rfl, rfl, rfl, rfl⟩
  | some file => exact (h.row id file hf).1

/-- What a read or write counted at `now` does to the rows and their histories. -/
structure Counts (s s' : Threads) (row : FileId) (op : Op) : Prop where
  file : ∃ time, s'.tracker.files.lookup row
    = some (((s.tracker.files.lookup row).getD {}).note op.size op.write time op.tick)
  given : s'.given row = op :: s.given row
  counted : s'.counted row = op :: s.counted row
  others : ∀ id, id ≠ row → s'.tracker.files.lookup id = s.tracker.files.lookup id
    ∧ s'.given id = s.given id ∧ s'.counted id = s.counted id

theorem Sound.counts {fileObject key now : UInt64} {pid size : UInt32} {write : Bool} {time : ℤ}
    (h : Sound s) (hkey : key ≠ 0) (hnow : s.eventTick = some now) :
    Counts s (s.step (.readWrite fileObject key pid size write time)) ⟨pid, key⟩
      ⟨size, write, now⟩ := by
  have hfiles : ∀ id, (s.moved (.readWrite fileObject key pid size write time)).files.lookup id
      = if id = ⟨pid, key⟩ then
          some (((s.tracker.files.lookup ⟨pid, key⟩).getD {}).note size write time now)
        else s.tracker.files.lookup id := by
    intro id
    rw [Threads.moved, hnow, Option.getD_some, onReadWrite_files hkey, Finmap.lookup_insert_eq]
  have hadd : ∀ ops : FileId → List Op, s.addOp ops (.readWrite fileObject key pid size write time)
      = Function.update ops ⟨pid, key⟩ (⟨size, write, now⟩ :: ops ⟨pid, key⟩) := by
    intro ops
    rw [Threads.addOp, hnow, Option.getD_some]
  refine ⟨⟨time, ?_⟩, ?_, ?_, fun id hid => ⟨?_, ?_, ?_⟩⟩
  · exact (hfiles _).trans (if_pos rfl)
  · exact (congrFun (hadd s.given) _).trans (Function.update_self ..)
  · show (if _ ∈ _ then _ else _) = _
    rw [if_pos (Finmap.mem_of_lookup_eq_some ((hfiles _).trans (if_pos rfl)))]
    exact (congrFun (hadd s.counted) _).trans (Function.update_self ..)
  · exact (hfiles id).trans (if_neg hid)
  · exact (congrFun (hadd s.given) id).trans (Function.update_of_ne hid ..)
  · show (if _ ∈ _ then _ else _) = _
    rw [hadd, Function.update_of_ne hid]
    split
    · rfl
    · next hmem =>
      have hnone := Finmap.lookup_eq_none.mpr hmem
      rw [hfiles, if_neg hid] at hnone
      exact (h.erased id hnone).symm

/-- A read or write is counted at the tick that was read for it. -/
theorem Sound.of_counts {s' : Threads} {row : FileId} {op : Op} (h : Sound s)
    (hc : Counts s s' row op) (hop : s.next = op.tick) (hnext : s.next ≤ s'.next)
    (hevent : ∀ now ∈ s'.eventTick, now ≤ s'.clock)
    (hpruning : ∀ now ∈ s'.pruneTick, now ≤ s'.clock) : Sound s' := by
  obtain ⟨time, hfile⟩ := hc.file
  have hpast : ∀ id, ∀ o ∈ s.given id, o.tick ≤ op.tick := hop ▸ h.past
  refine ⟨hevent, hpruning, fun id o ho => ?_, fun id file hf o ho => ?_, fun id file hf => ?_,
    fun id hf => ?_, fun id => ?_⟩
  · refine UInt64.le_trans (b := op.tick) ?_ (hop ▸ hnext)
    by_cases hid : id = row
    · rw [hid, hc.given] at ho
      rcases List.mem_cons.mp ho with rfl | ho
      · exact UInt64.le_refl _
      · exact hpast row o ho
    · rw [(hc.others id hid).2.1] at ho
      exact hpast id o ho
  · by_cases hid : id = row
    · subst hid
      rw [hfile] at hf
      cases hf
      rw [hc.counted] at ho
      rw [File.note_lastTick]
      rcases List.mem_cons.mp ho with rfl | ho
      · exact UInt64.le_refl _
      · exact hpast id o (h.counted_sub ho)
    · obtain ⟨hold, -, hcounted⟩ := hc.others id hid
      rw [hold] at hf
      rw [hcounted] at ho
      exact h.dated id file hf o ho
  · by_cases hid : id = row
    · subst hid
      rw [hfile] at hf
      cases hf
      rw [hc.counted]
      exact ⟨(h.hasSums id).note, op, rfl, File.note_lastTick _⟩
    · obtain ⟨hold, -, hcounted⟩ := hc.others id hid
      rw [hold] at hf
      rw [hcounted]
      exact h.row id file hf
  · by_cases hid : id = row
    · rw [hid, hfile] at hf
      cases hf
    · obtain ⟨hold, -, hcounted⟩ := hc.others id hid
      rw [hold] at hf
      rw [hcounted]
      exact h.erased id hf
  · obtain ⟨older, hsplit, hcut⟩ := h.cut id
    by_cases hid : id = row
    · subst hid
      refine ⟨older, by rw [hc.given, hc.counted, hsplit]; rfl, fun o ho => ?_⟩
      have hgap := hcut o ho
      unfold Threads.since at hgap ⊢
      rw [hc.counted, List.getLast?_cons]
      cases hfirst : (s.counted id).getLast? with
      | none =>
        rw [hfirst] at hgap
        simpa [hop] using hgap
      | some first =>
        rw [hfirst] at hgap
        exact hgap
    · obtain ⟨-, hgiven, hcounted⟩ := hc.others id hid
      refine ⟨older, by rw [hgiven, hcounted, hsplit], fun o ho => ?_⟩
      exact Nat.lt_of_lt_of_le (hcut o ho) (since_mono hcounted hnext)

theorem Sound.readWrite {fileObject key : UInt64} {pid size : UInt32} {write : Bool} {time : ℤ}
    (h : Sound s) (ha : s.enabled (.readWrite fileObject key pid size write time) = true) :
    Sound (s.step (.readWrite fileObject key pid size write time)) := by
  simp only [Threads.enabled, Bool.and_eq_true, decide_eq_true_eq] at ha
  obtain ⟨hsome, hkey⟩ := ha
  obtain ⟨now, hnow⟩ := Option.isSome_iff_exists.mp hsome
  have hnext : s.next = now := by rw [Threads.next, hnow]; rfl
  exact h.of_counts (h.counts hkey hnow) hnext (hnext ▸ h.event now hnow) (fun n hn => by cases hn)
    h.pruning

theorem Sound.prune (h : Sound s) (ha : s.enabled .prune = true)
    (hc : Current s (s.pruneTick.getD 0)) : Sound (s.step .prune) := by
  obtain ⟨tick, htick⟩ := Option.isSome_iff_exists.mp (show s.pruneTick.isSome = true from ha)
  rw [htick, Option.getD_some] at hc
  have hfiles : (s.step .prune).tracker = s.tracker.prune tick := by
    show s.tracker.prune (s.pruneTick.getD 0) = _
    rw [htick, Option.getD_some]
  have hcounted : ∀ id, (s.step .prune).counted id
      = if id ∈ (s.tracker.prune tick).files then s.counted id else [] := by
    intro id
    show (if id ∈ (s.step .prune).tracker.files then s.counted id else []) = _
    rw [hfiles]
  have hkept : ∀ id file, (s.step .prune).tracker.files.lookup id = some file →
      s.tracker.files.lookup id = some file ∧ (s.step .prune).counted id = s.counted id := by
    intro id file hf
    rw [hfiles] at hf
    exact ⟨Finmap.of_lookup_eraseIf hf,
      (hcounted id).trans (if_pos (Finmap.mem_of_lookup_eq_some hf))⟩
  refine ⟨h.event, fun n hn => (by cases hn), h.past, fun id file hf op hop => ?_,
    fun id file hf => ?_, fun id hf => ?_, fun id => ?_⟩
  · obtain ⟨hold, hsame⟩ := hkept id file hf
    exact h.dated id file hold op (hsame ▸ hop)
  · obtain ⟨hold, hsame⟩ := hkept id file hf
    exact hsame ▸ h.row id file hold
  · rw [hfiles] at hf
    rw [hcounted, if_neg (Finmap.lookup_eq_none.mp hf)]
  · obtain ⟨older, hsplit, hcut⟩ := h.cut id
    cases hold : s.tracker.files.lookup id with
    | none =>
      -- there was no row
      have hnone := h.erased id hold
      have hsame : (s.step .prune).counted id = s.counted id := by
        rw [hcounted, hnone, ite_self]
      exact ⟨older, hsame ▸ hsplit, fun op hop =>
        Nat.lt_of_lt_of_le (hcut op hop) (since_mono hsame (UInt64.le_refl _))⟩
    | some file =>
      cases hnew : (s.tracker.prune tick).files.lookup id with
      | some file' =>
        have hsame := (hkept id file' (by rw [hfiles]; exact hnew)).2
        exact ⟨older, hsame ▸ hsplit, fun op hop =>
          Nat.lt_of_lt_of_le (hcut op hop) (since_mono hsame (UInt64.le_refl _))⟩
      | none =>
        -- the row is erased: what is to come is not of its time
        obtain ⟨-, last, hlast, htime⟩ := h.row id file hold
        have hidle := hc.idle hold hnew
        have hempty : (s.step .prune).counted id = [] := by
          rw [hcounted, if_neg (Finmap.lookup_eq_none.mp hnew)]
        refine ⟨s.given id, by rw [hempty]; rfl, fun op hop => ?_⟩
        obtain ⟨ops, hops⟩ := List.head?_eq_some_iff.mp hlast
        rw [hsplit, hops] at hop
        cases hop
        have hnext : file.lastTick.toNat + fileIdle.toNat < s.next.toNat := by
          have hclock := UInt64.le_iff_toNat_le.mp (h.pruning tick htick)
          unfold Threads.next
          cases hevent : s.eventTick with
          | none =>
            rw [Option.getD_none]
            omega
          | some now =>
            have hcoming := hc.coming id file hold now hevent
            rw [Option.getD_some]
            omega
        rw [← htime]
        unfold Threads.since
        rw [hempty]
        exact hnext

theorem Sound.removeProcess {pid : UInt32} (h : Sound s) : Sound (s.step (.removeProcess pid)) := by
  have hlookup : ∀ id, (s.step (.removeProcess pid)).tracker.files.lookup id
      = if id.pid = pid then none else s.tracker.files.lookup id := by
    intro id
    refine (Finmap.lookup_eraseIf _ _ _).trans ?_
    cases s.tracker.files.lookup id with
    | none => simp
    | some file => by_cases hid : id.pid = pid <;> simp [Option.filter_some, hid]
  have hgiven : ∀ id, (s.step (.removeProcess pid)).given id
      = if id.pid = pid then [] else s.given id := fun _ => rfl
  have hcounted : ∀ id, (s.step (.removeProcess pid)).counted id
      = if id.pid = pid then [] else s.counted id := by
    intro id
    show (if id ∈ (s.step (.removeProcess pid)).tracker.files then s.counted id else []) = _
    by_cases hid : id.pid = pid
    · have hnone := Finmap.lookup_eq_none.mp ((hlookup id).trans (if_pos hid))
      rw [if_neg hnone, if_pos hid]
    · rw [if_neg hid]
      split
      · rfl
      · next hmem =>
        have hnone := Finmap.lookup_eq_none.mpr hmem
        rw [hlookup, if_neg hid] at hnone
        exact (h.erased id hnone).symm
  have hothers : ∀ id, id.pid ≠ pid → (s.step (.removeProcess pid)).counted id = s.counted id :=
    fun id hid => (hcounted id).trans (if_neg hid)
  refine ⟨h.event, h.pruning, fun id op hop => ?_, fun id file hf op hop => ?_,
    fun id file hf => ?_, fun id hf => ?_, fun id => ?_⟩
  · rw [hgiven] at hop
    split at hop
    · cases hop
    · exact h.past id op hop
  · rw [hlookup] at hf
    split at hf
    · cases hf
    · next hid => exact h.dated id file hf op (hothers id hid ▸ hop)
  · rw [hlookup] at hf
    split at hf
    · cases hf
    · next hid => exact hothers id hid ▸ h.row id file hf
  · rw [hlookup] at hf
    rw [hcounted]
    split
    · rfl
    · next hid =>
      rw [if_neg hid] at hf
      exact h.erased id hf
  · by_cases hid : id.pid = pid
    · refine ⟨[], ?_, fun op hop => (by cases hop)⟩
      rw [hgiven, hcounted, if_pos hid, if_pos hid]
      rfl
    · obtain ⟨older, hsplit, hcut⟩ := h.cut id
      refine ⟨older, ?_, fun op hop => ?_⟩
      · rw [hgiven, hothers id hid, if_neg hid, hsplit]
      · exact Nat.lt_of_lt_of_le (hcut op hop) (since_mono (hothers id hid) (UInt64.le_refl _))

theorem Sound.step {a : Move} (h : Sound s) (ha : s.enabled a = true) (hc : AtPrune Current s a) :
    Sound (s.step a) := by
  cases a with
  | readsEvent now => exact h.readsEvent ha
  | readWrite fileObject key pid size write time => exact h.readWrite ha
  | nameCreate key name now =>
    simp only [Threads.enabled, Bool.and_eq_true, decide_eq_true_eq] at ha
    exact h.frame (onNameCreate_files name) rfl rfl rfl ha.2
      fun n hn => UInt64.le_trans (h.pruning n hn) ha.2
  | create fileObject name now =>
    simp only [Threads.enabled, Bool.and_eq_true, decide_eq_true_eq] at ha
    exact h.frame (onCreate_files name) rfl rfl rfl ha.2
      fun n hn => UInt64.le_trans (h.pruning n hn) ha.2
  | takes => exact h.frame rfl rfl rfl rfl (UInt64.le_refl _) h.pruning
  | readsResolve now =>
    simp only [Threads.enabled, Bool.and_eq_true, decide_eq_true_eq] at ha
    exact h.frame rfl rfl rfl rfl ha.2 fun n hn => UInt64.le_trans (h.pruning n hn) ha.2
  | storeNames names unnamed => exact h.frame rfl rfl rfl rfl (UInt64.le_refl _) h.pruning
  | readsPrune now =>
    simp only [Threads.enabled, Bool.and_eq_true, decide_eq_true_eq] at ha
    refine h.frame rfl rfl rfl rfl ha.2 fun n hn => ?_
    cases hn
    exact UInt64.le_refl now
  | prune => exact h.prune ha hc
  | removeProcess pid => exact h.removeProcess

end Sound

/-! ## every interleaving -/

/--
**What is in use is kept**: in every interleaving of the two threads in which each `Prune` finds
current ticks, only what was idle is erased, and a row that is steadily used has the sums of all its
events since its process was last removed.
-/
theorem prune_keeps_recent (moves : List Move)
    (ha : Along Threads.step (fun s a => s.enabled a = true) {} moves)
    (hc : Along Threads.step (AtPrune Current) {} moves) :
    Along Threads.step (fun s a => AtPrune PrunesIdle s a ∧ Exact (s.step a)) {} moves := by
  refine Along.mono_of_invariant Sound (fun s a h hok => h.step hok.1 hok.2)
    (fun s a h hok => ⟨?_, (h.step hok.1 hok.2).exact⟩) Sound.start (ha.and hc)
  cases a with
  | prune => exact prunesIdle_of_current h.dated hok.2
  | _ => trivial

instance (s : Threads) (tick : UInt64) : Decidable (Current s tick) :=
  decidable_of_iff
    ((∀ id file, s.tracker.files.lookup id = some file →
        tick - file.lastTick > fileIdle → file.lastTick ≤ tick)
      ∧ (∀ id file, s.tracker.files.lookup id = some file → ∀ now ∈ s.eventTick,
        now.toNat ≤ file.lastTick.toNat + fileIdle.toNat →
        tick.toNat ≤ file.lastTick.toNat + fileIdle.toNat)
      ∧ (∀ key n, s.tracker.names.lookup key = some n →
        tick - n.tick > nameIdle → Newest n.tick (s.named key) tick)
      ∧ ∀ o n, s.tracker.objectNames.lookup o = some n →
        tick - n.tick > nameIdle → Newest n.tick (s.objectNamed o) tick)
    ⟨fun h => ⟨h.1, h.2.1, h.2.2.1, h.2.2.2⟩,
      fun h => ⟨h.file, h.coming, h.name, h.objectName⟩⟩

instance (s : Threads) : DecidablePred (AtPrune Current s)
  | .prune => inferInstanceAs (Decidable (Current s _))
  | .readsEvent _ | .readWrite .. | .nameCreate .. | .create .. | .takes | .readsResolve _
  | .storeNames .. | .readsPrune _ | .removeProcess _ => .isTrue trivial

/-- A file is named, read at tick 6 and again at tick 8; between the two the resolver prunes. -/
def pruneInOrder : List Move :=
  [.nameCreate 8 (wide "a") 5, .readsEvent 6, .readWrite 16 8 4 100 false 1, .readsPrune 7, .prune,
    .readsEvent 8, .readWrite 16 8 4 100 false 2]

theorem prune_keeps_recent_inOrder :
    Along Threads.step (fun s a => AtPrune PrunesIdle s a ∧ Exact (s.step a)) {} pruneInOrder :=
  prune_keeps_recent pruneInOrder (by decide) (by decide)

/-- The resolver reads the clock before the event thread does, and locks after it. -/
def pruneLate : List Move :=
  [.readsPrune 5, .readsEvent 6, .readWrite 16 8 4 100 false 1, .prune]

theorem late_prune_erases :
    ¬ ∀ moves, Along Threads.step (fun s a => s.enabled a = true) {} moves →
      Along Threads.step (fun s a => AtPrune PrunesIdle s a ∧ Exact (s.step a)) {} moves := by
  intro hall
  obtain ⟨-, -, -, ⟨hprune, -⟩, -⟩ := hall pruneLate (by decide)
  -- the row of tick 6, which the `Prune` of tick 5 erases
  have hop := hprune.file ⟨4, 8⟩ _ rfl (by decide) ⟨100, false, 6⟩ List.mem_cons_self
  exact absurd hop (by decide)

end WinSys.FileIo
