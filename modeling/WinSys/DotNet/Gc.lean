import WinSys.Infra.Payload
import WinSys.Infra.Run

/-!
# A process's garbage collections

`DotNetGcMonitor::ApplyGcEvent` adds what one event says to the statistics; the session's callback
hands it the events of one process.

* `GcRecord`, `applyGcEvent`, `onGcEvent`
* `GcRecord.tells`: what an event says, if it is whole
* `Collected`, `Paused`: the statistics are those of what was said
* `getStats_said`: they are so in every session
-/

namespace WinSys.DotNet

open Infra Reads PayloadReader

/-! ## the statistics -/

structure DotNetGcStats where
  collections : UInt32 := 0
  byGeneration : Vector UInt32 3 := .replicate 3 0
  /-- `GCStart`'s depth and reason. -/
  lastGeneration : UInt32 := 0
  lastReason : UInt32 := 0
  hasHeap : Bool := false
  generationSize : Vector UInt64 3 := .replicate 3 0
  lohSize : UInt64 := 0
  pohSize : UInt64 := 0
  pinnedObjects : UInt32 := 0
  gcHandles : UInt32 := 0
  lastPause : UInt64 := 0
  maxPause : UInt64 := 0
  totalPause : UInt64 := 0
  /-- The time stamp of a suspension in progress, else 0. -/
  suspendStart : Int64 := 0
deriving DecidableEq, Repr

/-! ## the source -/

def gcStart : UInt16 := 1
def gcRestartEEEnd : UInt16 := 3
def gcHeapStats : UInt16 := 4
def gcSuspendEEBegin : UInt16 := 9

structure GcStart where
  depth : UInt32
  reason : UInt32
deriving DecidableEq, Repr

def readStart : PayloadReader GcStart := do
  let _count ← uint32
  let depth ← uint32
  let reason ← uint32
  return { depth, reason }

structure GcHeapStats where
  generationSize : Vector UInt64 3
  lohSize : UInt64
  pohSize : UInt64
  pinnedObjects : UInt32
  gcHandles : UInt32
deriving DecidableEq, Repr

/-- A generation's size; the promoted size is not kept. -/
def readSize : PayloadReader UInt64 := do
  let size ← uint64
  let _promoted ← uint64
  return size

/-- The fields of all versions. -/
def readHeap : PayloadReader GcHeapStats := do
  let size0 ← readSize
  let size1 ← readSize
  let size2 ← readSize
  let size3 ← readSize
  let _finalizationPromotedSize ← uint64
  let _finalizationPromotedCount ← uint64
  let pinned ← uint32
  let _sinkBlocks ← uint32
  let handles ← uint32
  let _clrInstanceId ← uint16
  return { generationSize := #v[size0, size1, size2], lohSize := size3, pohSize := 0,
           pinnedObjects := pinned, gcHandles := handles }

/-- The pinned object heap's size, since version 2; none where it is cut. -/
def readPoh (version : UInt8) : PayloadReader UInt64 :=
  if version ≥ 2 then do
    let poh ← uint64
    let ok ← isOk
    return if ok then poh else 0
  else pure 0

def readHeapStats (version : UInt8) : PayloadReader (Option GcHeapStats) := do
  let heap ← readHeap
  let ok ← isOk
  if ok then do
    let poh ← readPoh version
    return some { heap with pohSize := poh }
  else return none

namespace DotNetGcStats

def addStart (stats : DotNetGcStats) (start : GcStart) : DotNetGcStats :=
  { stats with
    collections := stats.collections + 1
    byGeneration :=
      if h : start.depth.toNat < 3 then
        stats.byGeneration.set start.depth.toNat (stats.byGeneration[start.depth.toNat] + 1)
      else stats.byGeneration
    lastGeneration := start.depth
    lastReason := start.reason }

def setHeap (stats : DotNetGcStats) (heap : GcHeapStats) : DotNetGcStats :=
  { stats with
    hasHeap := true
    generationSize := heap.generationSize
    lohSize := heap.lohSize
    pohSize := heap.pohSize
    pinnedObjects := heap.pinnedObjects
    gcHandles := heap.gcHandles }

def restart (stats : DotNetGcStats) (timeStamp : Int64) : Bool × DotNetGcStats :=
  if stats.suspendStart = 0 ∨ timeStamp < stats.suspendStart then (false, stats)
  else
    let lastPause := (timeStamp - stats.suspendStart).toUInt64
    (true, { stats with
      lastPause := lastPause
      maxPause := max stats.maxPause lastPause
      totalPause := stats.totalPause + lastPause
      suspendStart := 0 })

end DotNetGcStats

/-- Whether the event is one that counts, with what it leaves. -/
def applyGcEvent (eventId : UInt16) (version : UInt8) (data : Bytes) (timeStamp : Int64)
    (stats : DotNetGcStats) : Reads (Bool × DotNetGcStats) :=
  if eventId = gcStart then
    if version < 1 then pure (false, stats)
    else do
      match ← read readStart data with
      | some start => return (true, stats.addStart start)
      | none => return (false, stats)
  else if eventId = gcHeapStats then do
    match ← readHeapStats version data {} with
    | (some heap, _) => return (true, stats.setHeap heap)
    | (none, _) => return (false, stats)
  else if eventId = gcSuspendEEBegin then pure (true, { stats with suspendStart := timeStamp })
  else if eventId = gcRestartEEEnd then pure (stats.restart timeStamp)
  else pure (false, stats)

structure GcRecord where
  providerId : Vector UInt8 16
  processId : UInt32
  id : UInt16
  version : UInt8
  data : Bytes
  timeStamp : Int64
deriving DecidableEq, Repr

/-- `Microsoft-Windows-DotNETRuntime`, as it lies in memory. -/
def runtimeProvider : Vector UInt8 16 :=
  #v[0x23, 0x0D, 0x3C, 0xE1, 0xBC, 0xCC, 0x12, 0x4E, 0x93, 0x1B, 0xD9, 0xCC, 0x2E, 0xEE, 0x27, 0xE4]

def onGcEvent (pid : UInt32) (stats : DotNetGcStats) (record : GcRecord) : Reads DotNetGcStats :=
  if record.providerId ≠ runtimeProvider ∨ record.processId ≠ pid then pure stats
  else do
    let (_, stats) ← applyGcEvent record.id record.version record.data record.timeStamp stats
    return stats

/-! ## what an event says -/

inductive GcEvent
  | start (start : GcStart)
  | heapStats (heap : GcHeapStats)
  | suspend
  | restart
deriving DecidableEq, Repr

/-- What an event that is whole leaves. -/
def GcEvent.apply (timeStamp : Int64) (stats : DotNetGcStats) : GcEvent → DotNetGcStats
  | .start s => stats.addStart s
  | .heapStats heap => stats.setHeap heap
  | .suspend => { stats with suspendStart := timeStamp }
  | .restart => (stats.restart timeStamp).2

/-- The fields of all versions, where they lie. -/
def heapAt (data : Bytes) : GcHeapStats where
  generationSize := #v[u64At data 0, u64At data 16, u64At data 32]
  lohSize := u64At data 48
  pohSize := 0
  pinnedObjects := u32At data 80
  gcHandles := u32At data 88

/-- What is whole of a payload. -/
def GcRecord.tells (record : GcRecord) : Option GcEvent :=
  if record.id = gcStart then
    if record.version < 1 ∨ record.data.length < 12 then none
    else some (.start ⟨u32At record.data 4, u32At record.data 8⟩)
  else if record.id = gcHeapStats then
    if record.data.length < 94 then none
    else some (.heapStats { heapAt record.data with
      pohSize := if record.version ≥ 2 ∧ 102 ≤ record.data.length then u64At record.data 94 else 0 })
  else if record.id = gcSuspendEEBegin then some .suspend
  else if record.id = gcRestartEEEnd then some .restart
  else none

/-! ## the readers -/

theorem takes_readStart :
    Takes readStart 12 fun data => ⟨u32At data 4, u32At data 8⟩ := by
  have h := takes_uint32.bind fun _ => takes_uint32.bind fun depth =>
    takes_uint32.map fun reason => (⟨depth, reason⟩ : GcStart)
  simp only [List.drop_drop] at h
  exact h

theorem takes_readSize : Takes readSize 16 u64 :=
  takes_uint64.bind fun size => takes_uint64.map fun _ => size

instance : Sticky readSize := by
  unfold readSize
  infer_instance

instance : Sticky readHeap := by
  unfold readHeap
  infer_instance

instance (version : UInt8) : Sticky (readPoh version) := by
  unfold readPoh
  infer_instance

instance (version : UInt8) : Sticky (readHeapStats version) := by
  unfold readHeapStats
  infer_instance

instance : Sticky readStart := by
  unfold readStart
  infer_instance

theorem takes_readHeap : Takes readHeap 94 heapAt := by
  have h := takes_readSize.bind fun size0 => takes_readSize.bind fun size1 =>
    takes_readSize.bind fun size2 => takes_readSize.bind fun size3 =>
    takes_uint64.bind fun _ => takes_uint64.bind fun _ => takes_uint32.bind fun pinned =>
    takes_uint32.bind fun _ => takes_uint32.bind fun handles => takes_uint16.map fun _ =>
      ({ generationSize := #v[size0, size1, size2], lohSize := size3, pohSize := 0,
         pinnedObjects := pinned, gcHandles := handles } : GcHeapStats)
  simp only [List.drop_drop] at h
  exact h

/-- What is read behind a heap's fields. -/
theorem value_readPoh (version : UInt8) (data : Bytes) (h : 94 ≤ data.length) :
    (readPoh version data ⟨94, true⟩).value.1
      = if version ≥ 2 ∧ 102 ≤ data.length then u64At data 94 else 0 := by
  by_cases hversion : version ≥ 2
  · rw [readPoh, if_pos hversion]
    by_cases hlength : 102 ≤ data.length
    · have hwhole := takes_uint64.whole data ⟨94, true⟩ rfl hlength
      rw [if_pos ⟨hversion, hlength⟩, value_bind_of_eq hwhole]
      rfl
    · have hcut := takes_uint64.cut data ⟨94, true⟩ rfl h (Nat.lt_of_not_le hlength)
      have hnot : ¬(version ≥ 2 ∧ 102 ≤ data.length) := fun hboth => hlength hboth.2
      rw [if_neg hnot, value_bind_isOk_of_failed hcut]
      rfl
  · rw [readPoh, if_neg hversion, if_neg fun h => hversion h.1]
    rfl

/-- A heap's event that is cut in the pinned object heap's size has none. -/
theorem value_readHeapStats (version : UInt8) (data : Bytes) :
    (readHeapStats version data {}).value.1 = if data.length < 94 then none
      else some { heapAt data with
        pohSize := if version ≥ 2 ∧ 102 ≤ data.length then u64At data 94 else 0 } := by
  by_cases hlt : data.length < 94
  · have hcut := takes_readHeap.cut data {} rfl (Nat.zero_le _) hlt
    rw [if_pos hlt, readHeapStats, value_bind_isOk_of_failed hcut]
    rfl
  · have hwhole := takes_readHeap.whole data {} rfl (Nat.le_of_not_lt hlt)
    have hpoh := value_readPoh version data (Nat.le_of_not_lt hlt)
    rw [if_neg hlt, readHeapStats, value_bind_of_eq hwhole, ← hpoh]
    rfl

/-! ## one event -/

theorem safe_applyGcEvent {id : UInt16} {version : UInt8} {data : Bytes} {timeStamp : Int64}
    {stats : DotNetGcStats} : (applyGcEvent id version data timeStamp stats).Safe := by
  unfold applyGcEvent
  refine Safe.ite (fun _ => Safe.ite (fun _ => safe_pure _) fun _ => ?_) fun _ => ?_
  · refine (safe_bind _ _).mpr ⟨safe_read data, ?_⟩
    split <;> exact safe_pure _
  · refine Safe.ite (fun _ => ?_) fun _ => ?_
    · refine (safe_bind _ _).mpr ⟨Sticky.safe data {} (Nat.zero_le _), ?_⟩
      split <;> exact safe_pure _
    · exact Safe.ite (fun _ => safe_pure _) fun _ => Safe.ite (fun _ => safe_pure _) fun _ => safe_pure _

/-- An event leaves what it says; one that isn't whole leaves everything as it is. -/
theorem value_applyGcEvent (record : GcRecord) (stats : DotNetGcStats) :
    (applyGcEvent record.id record.version record.data record.timeStamp stats).value.2
      = (record.tells.map (·.apply record.timeStamp stats)).getD stats := by
  unfold applyGcEvent GcRecord.tells
  by_cases hstart : record.id = gcStart
  · rw [if_pos hstart, if_pos hstart]
    by_cases hversion : record.version < 1
    · rw [if_pos hversion, if_pos (.inl hversion)]
      rfl
    · rw [if_neg hversion, Reads.value_bind, takes_readStart.read]
      by_cases hlength : record.data.length < 12
      · rw [if_pos hlength, if_pos (.inr hlength)]
        rfl
      · rw [if_neg hlength, if_neg (not_or.mpr ⟨hversion, hlength⟩)]
        rfl
  · rw [if_neg hstart, if_neg hstart]
    by_cases hheap : record.id = gcHeapStats
    · rw [if_pos hheap, if_pos hheap, Reads.value_bind]
      have hvalue := value_readHeapStats record.version record.data
      cases hread : (readHeapStats record.version record.data {}).value with
      | mk heap c =>
        rw [hread] at hvalue
        dsimp only at hvalue
        subst hvalue
        by_cases hlength : record.data.length < 94
        · rw [if_pos hlength, if_pos hlength]
          rfl
        · rw [if_neg hlength, if_neg hlength]
          rfl
    · rw [if_neg hheap, if_neg hheap]
      by_cases hsuspend : record.id = gcSuspendEEBegin
      · rw [if_pos hsuspend, if_pos hsuspend]
        rfl
      · rw [if_neg hsuspend, if_neg hsuspend]
        by_cases hrestart : record.id = gcRestartEEEnd
        · rw [if_pos hrestart, if_pos hrestart]
          rfl
        · rw [if_neg hrestart, if_neg hrestart]
          rfl

/-- What the process's runtime says with an event. -/
def GcRecord.tellsOf (pid : UInt32) (record : GcRecord) : Option (GcEvent × Int64) :=
  if record.providerId = runtimeProvider ∧ record.processId = pid then
    record.tells.map (·, record.timeStamp)
  else none

theorem value_onGcEvent (pid : UInt32) (stats : DotNetGcStats) (record : GcRecord) :
    (onGcEvent pid stats record).value
      = ((record.tellsOf pid).map fun e => e.1.apply e.2 stats).getD stats := by
  unfold onGcEvent GcRecord.tellsOf
  by_cases hown : record.providerId = runtimeProvider ∧ record.processId = pid
  · rw [if_pos hown, if_neg (by simpa only [ne_eq, not_or, not_not] using hown), Reads.value_bind]
    refine (value_applyGcEvent record stats).trans ?_
    rw [Option.map_map]
    rfl
  · rw [if_neg hown, if_pos (by simpa only [ne_eq, ← not_and_or] using hown)]
    rfl

/-! ## neighbours in a list -/

/-- Each two neighbours. -/
def adjacent {α : Type} : List α → List (α × α)
  | a :: b :: as => (a, b) :: adjacent (b :: as)
  | _ => []

theorem adjacent_concat {α : Type} (as : List α) (a : α) :
    adjacent (as ++ [a]) = adjacent as ++ (as.getLast?.map (·, a)).toList := by
  induction as with
  | nil => rfl
  | cons b as ih =>
    cases as with
    | nil => rfl
    | cons c as =>
      rw [List.cons_append, List.cons_append, adjacent, ← List.cons_append, ih, adjacent,
        List.getLast?_cons_cons, List.cons_append]

/-! ## what the statistics are of -/

/-- What the runtime says, each thing with its time. -/
abbrev Said : Type := List (GcEvent × Int64)

namespace GcEvent

def start? : GcEvent → Option GcStart
  | .start s => some s
  | _ => none

def heap? : GcEvent → Option GcHeapStats
  | .heapStats heap => some heap
  | _ => none

def isPause : GcEvent → Bool
  | .suspend | .restart => true
  | _ => false

end GcEvent

namespace Said

variable (said : Said)

def starts : List GcStart := said.filterMap (·.1.start?)

def heaps : List GcHeapStats := said.filterMap (·.1.heap?)

def suspensions : Said := said.filter (·.1.isPause)

/-- Since when the runtime is suspended, else 0. -/
def suspendedAt : Int64 :=
  match said.suspensions.getLast? with
  | some (.suspend, since) => since
  | _ => 0

/-- A pause: the runtime goes on, with nothing in between since it was suspended. -/
def pauseOf : (GcEvent × Int64) × (GcEvent × Int64) → Option ℕ
  | ((.suspend, since), (.restart, now)) => some (now.toNatClampNeg - since.toNatClampNeg)
  | _ => none

/-- How long the pauses are. -/
def pauses : List ℕ := (adjacent said.suspensions).filterMap pauseOf

/-- Its times are in order, and past the start of time. -/
structure InOrder : Prop where
  pos : ∀ e ∈ said, 0 < e.2
  le : said.Pairwise fun e e' => e.2 ≤ e'.2

instance : Decidable said.InOrder :=
  decidable_of_iff (_ ∧ _) ⟨fun h => ⟨h.1, h.2⟩, fun h => ⟨h.pos, h.le⟩⟩

end Said

namespace DotNetGcStats

/-- The last heap, once there is one. -/
def heap? (stats : DotNetGcStats) : Option GcHeapStats :=
  if stats.hasHeap then
    some ⟨stats.generationSize, stats.lohSize, stats.pohSize, stats.pinnedObjects, stats.gcHandles⟩
  else none

/-- The collections and the heap are those of what was said. -/
structure Collected (said : Said) (stats : DotNetGcStats) : Prop where
  collections : stats.collections = said.starts.length.toUInt32
  byGeneration : ∀ g (hg : g < 3), stats.byGeneration[g]
    = (said.starts.countP (·.depth.toNat = g)).toUInt32
  last : ∀ start ∈ said.starts.getLast?,
    stats.lastGeneration = start.depth ∧ stats.lastReason = start.reason
  heap : stats.heap? = said.heaps.getLast?

/-- The pauses are those of what was said. -/
structure Paused (said : Said) (stats : DotNetGcStats) : Prop where
  suspendStart : stats.suspendStart = said.suspendedAt
  last : stats.lastPause.toNat = said.pauses.getLastD 0
  max : stats.maxPause.toNat = said.pauses.foldl Nat.max 0
  total : stats.totalPause.toNat = said.pauses.sum

end DotNetGcStats

/-! ## one event more -/

section Concat

variable {said : Said} {e : GcEvent × Int64} {stats : DotNetGcStats}

namespace Said

theorem starts_concat_of_none (h : e.1.start? = none) :
    Said.starts (said ++ [e]) = said.starts := by
  rw [starts, List.filterMap_append, List.filterMap_cons, h]
  exact List.append_nil _

theorem starts_concat_start (start : GcStart) (now : Int64) :
    Said.starts (said ++ [(.start start, now)]) = said.starts ++ [start] :=
  List.filterMap_append

theorem heaps_concat_of_none (h : e.1.heap? = none) : Said.heaps (said ++ [e]) = said.heaps := by
  rw [heaps, List.filterMap_append, List.filterMap_cons, h]
  exact List.append_nil _

theorem heaps_concat_heapStats (heap : GcHeapStats) (now : Int64) :
    Said.heaps (said ++ [(.heapStats heap, now)]) = said.heaps ++ [heap] :=
  List.filterMap_append

theorem suspensions_concat_of_not (h : e.1.isPause = false) :
    Said.suspensions (said ++ [e]) = said.suspensions := by
  rw [suspensions, List.filter_append, ← suspensions, List.filter_singleton, h]
  exact List.append_nil _

theorem suspensions_concat (h : e.1.isPause = true) :
    Said.suspensions (said ++ [e]) = said.suspensions ++ [e] := by
  rw [suspensions, List.filter_append, ← suspensions, List.filter_singleton, h]
  rfl

/-- What isn't a suspension or a restart is no matter to the pauses. -/
theorem pauses_concat_of_not (said : Said) (h : e.1.isPause = false) :
    Said.pauses (said ++ [e]) = said.pauses ∧ Said.suspendedAt (said ++ [e]) = said.suspendedAt := by
  rw [pauses, suspendedAt, suspensions_concat_of_not h]
  exact ⟨rfl, rfl⟩

theorem pauses_suspend (said : Said) (now : Int64) :
    Said.pauses (said ++ [(.suspend, now)]) = said.pauses
      ∧ Said.suspendedAt (said ++ [(.suspend, now)]) = now := by
  rw [pauses, suspendedAt, suspensions_concat rfl, adjacent_concat, List.filterMap_append,
    List.getLast?_concat, ← pauses]
  refine ⟨?_, rfl⟩
  cases said.suspensions.getLast? with
  | none => exact List.append_nil _
  | some last =>
    obtain ⟨last, since⟩ := last
    cases last <;> exact List.append_nil _

/-- A restart is a pause's end where the runtime is suspended. -/
theorem pauses_restart {said : Said} (hpos : ∀ e ∈ said, 0 < e.2) (now : Int64) :
    Said.pauses (said ++ [(.restart, now)]) = said.pauses ++ (if said.suspendedAt = 0 then []
        else [now.toNatClampNeg - said.suspendedAt.toNatClampNeg])
      ∧ Said.suspendedAt (said ++ [(.restart, now)]) = 0 := by
  rw [pauses, suspensions_concat rfl, adjacent_concat, List.filterMap_append, ← pauses]
  refine ⟨congrArg _ ?_, by rw [suspendedAt, suspensions_concat rfl, List.getLast?_concat]⟩
  unfold suspendedAt
  cases hlast : said.suspensions.getLast? with
  | none => rfl
  | some last =>
    obtain ⟨last, since⟩ := last
    have hmem : (last, since) ∈ said :=
      List.mem_of_mem_filter (List.mem_of_getLast? hlast)
    have hsince : since ≠ 0 := fun h => by
      have hlt : 0 < since := hpos _ hmem
      rw [h] at hlt
      exact absurd hlt (by decide)
    cases last with
    | start _ => rfl
    | heapStats _ => rfl
    | restart => rfl
    | suspend =>
      rw [if_neg hsince]
      rfl

/-- While the runtime is suspended, it is since a time that was there. -/
theorem suspendedAt_mem (h : said.suspendedAt ≠ 0) : ∃ e ∈ said, e.2 = said.suspendedAt := by
  unfold suspendedAt at h ⊢
  cases hlast : said.suspensions.getLast? with
  | none =>
    rw [hlast] at h
    exact absurd rfl h
  | some last =>
    rw [hlast] at h
    obtain ⟨last, since⟩ := last
    have hmem : (last, since) ∈ said := List.mem_of_mem_filter (List.mem_of_getLast? hlast)
    cases last with
    | suspend => exact ⟨_, hmem, rfl⟩
    | start _ => exact absurd rfl h
    | heapStats _ => exact absurd rfl h
    | restart => exact absurd rfl h

theorem InOrder.concat_iff : InOrder (said ++ [e]) ↔
    said.InOrder ∧ 0 < e.2 ∧ ∀ e' ∈ said, e'.2 ≤ e.2 := by
  constructor
  · rintro ⟨hpos, hle⟩
    obtain ⟨hsaid, -, hlast⟩ := List.pairwise_append.mp hle
    exact ⟨⟨fun e he => hpos e (List.mem_append_left _ he), hsaid⟩,
      hpos e (List.mem_append_right _ (List.mem_singleton_self e)),
      fun e' he' => hlast e' he' e (List.mem_singleton_self e)⟩
  · rintro ⟨⟨hpos, hle⟩, he, hlast⟩
    refine ⟨fun e' he' => ?_, List.pairwise_append.mpr ⟨hle, List.pairwise_singleton _ _, ?_⟩⟩
    · obtain he' | he' := List.mem_append.mp he'
      · exact hpos e' he'
      · rw [List.mem_singleton.mp he']
        exact he
    · intro e' he' e'' he''
      rw [List.mem_singleton.mp he'']
      exact hlast e' he'

theorem InOrder.head_le (h : said.InOrder) {first : GcEvent × Int64} (hfirst : first ∈ said.head?)
    (e : GcEvent × Int64) (he : e ∈ said) : first.2 ≤ e.2 := by
  obtain ⟨rest, rfl⟩ := List.head?_eq_some_iff.mp hfirst
  obtain rfl | hrest := List.mem_cons.mp he
  · exact Int64.le_refl _
  · exact (List.pairwise_cons.mp h.le).1 e hrest

theorem InOrder.le_getLast (h : said.InOrder) {last : GcEvent × Int64}
    (hlast : last ∈ said.getLast?) (e : GcEvent × Int64) (he : e ∈ said) : e.2 ≤ last.2 := by
  obtain ⟨front, rfl⟩ := List.getLast?_eq_some_iff.mp hlast
  obtain hfront | hlast := List.mem_append.mp he
  · exact (List.pairwise_append.mp h.le).2.2 e hfront last (List.mem_singleton_self last)
  · rw [List.mem_singleton.mp hlast]
    exact Int64.le_refl _

/-- The pauses lie apart: they fit between the first time and the last one, or the time since when
the runtime is suspended. -/
theorem InOrder.sum_pauses_le (h : said.InOrder) {first : ℕ}
    (hfirst : ∀ e ∈ said, first ≤ e.2.toNatClampNeg) :
    (∀ last : ℕ, first ≤ last → (∀ e ∈ said, e.2.toNatClampNeg ≤ last) →
        first + said.pauses.sum ≤ last)
      ∧ (said.suspendedAt ≠ 0 → first + said.pauses.sum ≤ said.suspendedAt.toNatClampNeg) := by
  induction said using List.reverseRecOn with
  | nil => exact ⟨fun last hlast _ => hlast, fun h => absurd rfl h⟩
  | append_singleton said e ih =>
    obtain ⟨hsaid, hpos, hle⟩ := InOrder.concat_iff.mp h
    obtain ⟨hlast, hsuspended⟩ := ih hsaid fun e' he' => hfirst e' (List.mem_append_left _ he')
    have hbefore : first + (Said.pauses said).sum ≤ e.2.toNatClampNeg :=
      hlast _ (hfirst e (List.mem_append_right _ (List.mem_singleton_self e)))
        fun e' he' => Int64.toNatClampNeg_le (hle e' he')
    have hupTo {last : ℕ} (hend : ∀ e' ∈ said ++ [e], e'.2.toNatClampNeg ≤ last) :
        e.2.toNatClampNeg ≤ last := hend e (List.mem_append_right _ (List.mem_singleton_self e))
    obtain ⟨e, now⟩ := e
    cases hkind : e.isPause with
    | false =>
      obtain ⟨hpauses, hat⟩ := pauses_concat_of_not said (e := (e, now)) hkind
      rw [hpauses, hat]
      exact ⟨fun last _ hend => hbefore.trans (hupTo hend), hsuspended⟩
    | true =>
      cases e with
      | start _ => cases hkind
      | heapStats _ => cases hkind
      | suspend =>
        obtain ⟨hpauses, hat⟩ := pauses_suspend said now
        rw [hpauses, hat]
        exact ⟨fun last _ hend => hbefore.trans (hupTo hend), fun _ => hbefore⟩
      | restart =>
        obtain ⟨hpauses, hat⟩ := pauses_restart hsaid.pos now
        rw [hpauses, hat]
        refine ⟨fun last _ hend => ?_, fun h => absurd rfl h⟩
        have hnow := hupTo hend
        by_cases hzero : Said.suspendedAt said = 0
        · rw [if_pos hzero, List.append_nil]
          exact hbefore.trans hnow
        · rw [if_neg hzero, List.sum_append, List.sum_singleton]
          have hsince := hsuspended hzero
          obtain ⟨e', he', hat'⟩ := suspendedAt_mem hzero
          have hle' : (Said.suspendedAt said).toNatClampNeg ≤ now.toNatClampNeg := by
            rw [← hat']
            exact Int64.toNatClampNeg_le (hle e' he')
          dsimp only at hnow
          omega

end Said

namespace DotNetGcStats

/-- A restart is no collection. -/
theorem Collected.restart (h : Collected said stats) (now : Int64) :
    Collected said (stats.restart now).2 := by
  unfold DotNetGcStats.restart
  split
  · exact h
  · exact ⟨h.collections, h.byGeneration, h.last, h.heap⟩

theorem Collected.addStart (h : Collected said stats) (start : GcStart) (now : Int64) :
    Collected (said ++ [(.start start, now)]) (stats.addStart start) where
  collections := by
    rw [Said.starts_concat_start, List.length_append, List.length_singleton, Nat.toUInt32_eq,
      UInt32.ofNat_add]
    exact congrArg (· + 1) h.collections
  byGeneration g hg := by
    rw [Said.starts_concat_start, List.countP_append, List.countP_singleton]
    unfold DotNetGcStats.addStart
    by_cases hdepth : start.depth.toNat < 3
    · by_cases heq : start.depth.toNat = g
      · subst heq
        simp only [hdepth, ↓reduceDIte, Vector.getElem_set_self, ↓reduceIte, decide_true,
          Nat.toUInt32_eq, UInt32.ofNat_add]
        exact congrArg (· + 1) (h.byGeneration _ hdepth)
      · simp only [hdepth, ↓reduceDIte, Vector.getElem_set, heq, ↓reduceIte, decide_false]
        exact h.byGeneration g hg
    · -- a generation beyond those that are counted
      have hne : start.depth.toNat ≠ g := fun heq => hdepth (heq ▸ hg)
      simp only [hdepth, ↓reduceDIte, hne, decide_false]
      exact h.byGeneration g hg
  last start' hstart := by
    rw [Said.starts_concat_start, List.getLast?_concat] at hstart
    cases hstart
    exact ⟨rfl, rfl⟩
  heap := by
    rw [Said.heaps_concat_of_none rfl]
    exact h.heap

theorem Collected.apply (h : Collected said stats) :
    Collected (said ++ [e]) (e.1.apply e.2 stats) := by
  have hsame (hstart : e.1.start? = none) (hheap : e.1.heap? = none)
      {stats' : DotNetGcStats} (h' : Collected said stats') : Collected (said ++ [e]) stats' := by
    obtain ⟨hcollections, hgeneration, hlast, hheaps⟩ := h'
    rw [← Said.starts_concat_of_none hstart] at hcollections hgeneration hlast
    rw [← Said.heaps_concat_of_none hheap] at hheaps
    exact ⟨hcollections, hgeneration, hlast, hheaps⟩
  obtain ⟨e, now⟩ := e
  cases e with
  | start start => exact h.addStart start now
  | heapStats heap =>
    obtain ⟨hcollections, hgeneration, hlast, -⟩ := h
    have hnone : (GcEvent.heapStats heap, now).1.start? = none := rfl
    rw [← Said.starts_concat_of_none hnone] at hcollections hgeneration hlast
    refine ⟨hcollections, hgeneration, hlast, ?_⟩
    rw [Said.heaps_concat_heapStats, List.getLast?_concat]
    rfl
  | suspend => exact hsame rfl rfl ⟨h.collections, h.byGeneration, h.last, h.heap⟩
  | restart => exact hsame rfl rfl (h.restart now)

theorem toNat_max (a b : UInt64) : (Max.max a b).toNat = Nat.max a.toNat b.toNat := by
  show (if a ≤ b then b else a).toNat = _
  by_cases h : a ≤ b
  · rw [if_pos h]
    exact (Nat.max_eq_right (UInt64.le_iff_toNat_le.mp h)).symm
  · rw [if_neg h]
    exact (Nat.max_eq_left (UInt64.lt_iff_toNat_lt.mp (UInt64.not_le.mp h)).le).symm

/-- A restart ends a pause as long as the time since the suspension, without an overflow. -/
theorem Paused.restart {now : Int64} (h : Paused said stats)
    (horder : Said.InOrder (said ++ [(.restart, now)])) :
    Paused (said ++ [(.restart, now)]) (stats.restart now).2 := by
  obtain ⟨hsaid, hpos, hle⟩ := Said.InOrder.concat_iff.mp horder
  obtain ⟨hpauses, hat⟩ := Said.pauses_restart hsaid.pos now
  have hspan := horder.sum_pauses_le fun _ _ => Nat.zero_le _
  have hroom := hspan.1
  unfold DotNetGcStats.restart
  rw [h.suspendStart]
  by_cases hzero : said.suspendedAt = 0
  · rw [if_pos hzero, List.append_nil] at hpauses
    rw [if_pos (.inl hzero)]
    exact ⟨h.suspendStart.trans (hzero.trans hat.symm), hpauses ▸ h.last, hpauses ▸ h.max,
      hpauses ▸ h.total⟩
  · obtain ⟨e, he, hsince⟩ := Said.suspendedAt_mem hzero
    have hstart : 0 ≤ said.suspendedAt := hsince ▸ Int64.le_of_lt (hsaid.pos e he)
    have hafter : said.suspendedAt ≤ now := hsince ▸ hle e he
    have hlength : (now - said.suspendedAt).toUInt64.toNat
        = now.toNatClampNeg - said.suspendedAt.toNatClampNeg := by
      rw [Int64.toNat_toUInt64_of_le (Int64.sub_nonneg_of_le hstart hafter),
        Int64.toNatClampNeg_sub_of_le hstart hafter]
    rw [if_neg hzero, ← hlength] at hpauses
    have hnot : ¬(said.suspendedAt = 0 ∨ now < said.suspendedAt) :=
      not_or.mpr ⟨hzero, Int64.not_lt.mpr hafter⟩
    rw [if_neg hnot]
    have hsum : said.pauses.sum + (now - said.suspendedAt).toUInt64.toNat < 2 ^ 64 := by
      have hend := hroom now.toNatClampNeg (Nat.zero_le _) fun e' he' => by
        obtain he' | he' := List.mem_append.mp he'
        · exact Int64.toNatClampNeg_le (hle e' he')
        · rw [List.mem_singleton.mp he']
      rw [hpauses, List.sum_append, List.sum_singleton] at hend
      have hnow := now.toNatClampNeg_lt
      omega
    constructor
    · exact hat.symm
    · rw [hpauses, List.getLastD_concat]
    · rw [hpauses, List.foldl_append, ← h.max]
      exact toNat_max _ _
    · rw [hpauses, List.sum_append, List.sum_singleton, ← h.total]
      rw [← h.total] at hsum
      exact (UInt64.toNat_add _ _).trans (Nat.mod_eq_of_lt hsum)

theorem Paused.apply (h : Paused said stats) (horder : Said.InOrder (said ++ [e])) :
    Paused (said ++ [e]) (e.1.apply e.2 stats) := by
  have hsame (hkind : e.1.isPause = false) {stats' : DotNetGcStats} (h' : Paused said stats') :
      Paused (said ++ [e]) stats' := by
    obtain ⟨hpauses, hat⟩ := Said.pauses_concat_of_not said hkind
    exact ⟨hat ▸ h'.suspendStart, hpauses ▸ h'.last, hpauses ▸ h'.max, hpauses ▸ h'.total⟩
  obtain ⟨e, now⟩ := e
  cases e with
  | start start => exact hsame rfl ⟨h.suspendStart, h.last, h.max, h.total⟩
  | heapStats heap => exact hsame rfl ⟨h.suspendStart, h.last, h.max, h.total⟩
  | suspend =>
    obtain ⟨hpauses, hat⟩ := Said.pauses_suspend said now
    exact ⟨hat.symm, hpauses ▸ h.last, hpauses ▸ h.max, hpauses ▸ h.total⟩
  | restart => exact h.restart horder

end DotNetGcStats

end Concat

/-! ## a session -/

/-- The statistics after the session's events. -/
def getStats (pid : UInt32) (records : List GcRecord) : DotNetGcStats :=
  run (fun stats record => (onGcEvent pid stats record).value) {} records

/-- What the process's runtime said in a session. -/
def saidOf (pid : UInt32) (records : List GcRecord) : Said := records.filterMap (·.tellsOf pid)

theorem safe_onGcEvent (pid : UInt32) (stats : DotNetGcStats) (record : GcRecord) :
    (onGcEvent pid stats record).Safe :=
  Safe.ite (fun _ => safe_pure _) fun _ => (safe_bind _ _).mpr ⟨safe_applyGcEvent, safe_pure _⟩

/-- One event more. -/
theorem getStats_concat (pid : UInt32) (records : List GcRecord) (record : GcRecord) :
    getStats pid (records ++ [record])
      = ((record.tellsOf pid).map fun e => e.1.apply e.2 (getStats pid records)).getD
        (getStats pid records) := by
  rw [getStats, run_append, ← getStats]
  exact value_onGcEvent pid _ record

theorem saidOf_concat (pid : UInt32) (records : List GcRecord) (record : GcRecord) :
    saidOf pid (records ++ [record]) = saidOf pid records ++ (record.tellsOf pid).toList := by
  rw [saidOf, List.filterMap_append, ← saidOf]
  cases h : record.tellsOf pid <;> simp [h]

theorem collected_getStats (pid : UInt32) (records : List GcRecord) :
    DotNetGcStats.Collected (saidOf pid records) (getStats pid records) := by
  induction records using List.reverseRecOn with
  | nil => exact ⟨rfl, fun g hg => Vector.getElem_replicate hg, nofun, rfl⟩
  | append_singleton records record ih =>
    rw [getStats_concat, saidOf_concat]
    cases record.tellsOf pid with
    | none =>
      rw [Option.toList_none, List.append_nil]
      exact ih
    | some e => exact ih.apply

theorem paused_getStats (pid : UInt32) {records : List GcRecord}
    (h : (saidOf pid records).InOrder) :
    DotNetGcStats.Paused (saidOf pid records) (getStats pid records) := by
  induction records using List.reverseRecOn with
  | nil => exact ⟨rfl, rfl, rfl, rfl⟩
  | append_singleton records record ih =>
    rw [getStats_concat]
    rw [saidOf_concat] at h ⊢
    cases htells : record.tellsOf pid with
    | none =>
      rw [htells, Option.toList_none, List.append_nil] at h
      rw [Option.toList_none, List.append_nil]
      exact ih h
    | some e =>
      rw [htells] at h
      exact (ih (Said.InOrder.concat_iff.mp h).1).apply h

/-- What a list of lengths says of the longest and of the last one. -/
theorem getLastD_le_foldl_max (lengths : List ℕ) :
    lengths.getLastD 0 ≤ lengths.foldl Nat.max 0 ∧ lengths.foldl Nat.max 0 ≤ lengths.sum := by
  induction lengths using List.reverseRecOn with
  | nil => exact ⟨Nat.le_refl 0, Nat.le_refl 0⟩
  | append_singleton lengths n ih =>
    rw [List.getLastD_concat, List.foldl_append, List.sum_append, List.sum_singleton]
    exact ⟨Nat.le_max_right _ _, Nat.max_le.mpr ⟨ih.2.trans (Nat.le_add_right _ _),
      Nat.le_add_left _ _⟩⟩

/-- **The statistics are those of the process's events**, whatever other events come in between and
whatever events are cut: the collections and the last heap always; the pauses where the times are in
order, and then their lengths add up to no more than the time that went by. -/
theorem getStats_said (pid : UInt32) (records : List GcRecord) :
    (∀ stats, ∀ record ∈ records, (onGcEvent pid stats record).Safe)
      ∧ DotNetGcStats.Collected (saidOf pid records) (getStats pid records)
      ∧ ((saidOf pid records).InOrder →
        DotNetGcStats.Paused (saidOf pid records) (getStats pid records)
          ∧ (getStats pid records).lastPause ≤ (getStats pid records).maxPause
          ∧ (getStats pid records).maxPause ≤ (getStats pid records).totalPause
          ∧ ∀ first ∈ (saidOf pid records).head?, ∀ last ∈ (saidOf pid records).getLast?,
            first.2.toNatClampNeg + (getStats pid records).totalPause.toNat
              ≤ last.2.toNatClampNeg) := by
  refine ⟨fun stats record _ => safe_onGcEvent pid stats record, collected_getStats pid records,
    fun horder => ?_⟩
  have hpaused := paused_getStats pid horder
  obtain ⟨hlast, hmax⟩ := getLastD_le_foldl_max (saidOf pid records).pauses
  rw [← hpaused.last, ← hpaused.max] at hlast
  rw [← hpaused.max, ← hpaused.total] at hmax
  refine ⟨hpaused, UInt64.le_iff_toNat_le.mpr hlast, UInt64.le_iff_toNat_le.mpr hmax, ?_⟩
  intro first hfirst last hend
  have hspan := horder.sum_pauses_le fun e he => Int64.toNatClampNeg_le (horder.head_le hfirst e he)
  rw [hpaused.total]
  exact hspan.1 _ (Int64.toNatClampNeg_le (horder.head_le hfirst last (List.mem_of_getLast? hend)))
    fun e he => Int64.toNatClampNeg_le (horder.le_getLast hend e he)

/-! A collection of generation 1 while the runtime was suspended, with another process's event, an
event that is cut and a restart of a runtime that goes on already. -/

def someRecords : List GcRecord :=
  let own (id : UInt16) (data : Bytes) (timeStamp : Int64) : GcRecord :=
    ⟨runtimeProvider, 7, id, 1, data, timeStamp⟩
  [own gcSuspendEEBegin [] 100, own gcStart (leBytes 4 1 ++ leBytes 4 1 ++ leBytes 4 0) 110,
    ⟨runtimeProvider, 8, gcSuspendEEBegin, 1, [], 115⟩, own gcStart (leBytes 4 2) 120,
    own gcRestartEEEnd [] 150, own gcRestartEEEnd [] 160]

theorem getStats_said_someRecords :
    (getStats 7 someRecords).collections = (saidOf 7 someRecords).starts.length.toUInt32
      ∧ (getStats 7 someRecords).totalPause.toNat = (saidOf 7 someRecords).pauses.sum
      ∧ (saidOf 7 someRecords).pauses = [50] := by
  obtain ⟨-, hcollected, hpaused⟩ := getStats_said 7 someRecords
  have horder : (saidOf 7 someRecords).InOrder := by decide
  exact ⟨hcollected.collections, (hpaused horder).1.total, by decide⟩

end WinSys.DotNet
