import WinSys.Infra.Diff
import WinSys.Infra.Run
import WinSys.Infra.TwoBuffers
import Mathlib.Data.UInt

/-!
# The process manager

`ProcessManager` takes a snapshot of the system's processes and their threads on each update, and
keeps the object of each process and thread it knows. The snapshots go to two buffers in turn, and
an object's `NativeInfo` points into the buffer of the snapshot it was last met in. A buffer that is
too small is given back and a larger one taken; what points into it is not told.

A buffer is modelled by what is read through a pointer into it, so that reading through a pointer
to a snapshot overwritten since gives whatever the new one has at the offset. What a pointer reads
whose memory was given back is not said: `touched` lists the pointers that an update reads. An
object is its fields and a number that stands for its address; every container that has the objects
an update changes is filled anew by that update.
-/

namespace WinSys.Process

open Infra

/-! ## snapshots -/

structure ProcessOrThreadKey where
  created : Int64
  id : UInt32
deriving DecidableEq, Repr

/-- The times in a process's or thread's structure, in 100 ns. -/
structure Times where
  kernelTime : Int64 := 0
  userTime : Int64 := 0
deriving DecidableEq, Repr

def Times.total (t : Times) : Int64 := t.kernelTime + t.userTime

/-- What a buffer has: the times read through a pointer to an offset of it. -/
structure Buffer where
  process : ℕ → Times := fun _ => {}
  thread : ℕ → Times := fun _ => {}

/-- `SYSTEM_EXTENDED_THREAD_INFORMATION`. -/
structure ThreadEntry where
  offset : ℕ
  createTime : Int64
  uniqueThread : UInt64
  uniqueProcess : UInt64
deriving DecidableEq, Repr

/-- `SYSTEM_PROCESS_INFORMATION`. -/
structure ProcessEntry where
  offset : ℕ
  createTime : Int64
  uniqueProcessId : UInt64
  inheritedFromUniqueProcessId : UInt64
  threads : List ThreadEntry
deriving DecidableEq, Repr

def ThreadEntry.key (t : ThreadEntry) : ProcessOrThreadKey := ⟨t.createTime, t.uniqueThread.toUInt32⟩

def ProcessEntry.key (p : ProcessEntry) : ProcessOrThreadKey :=
  ⟨p.createTime, p.uniqueProcessId.toUInt32⟩

/-- A buffer filled by the system. -/
structure Snapshot where
  entries : List ProcessEntry
  buffer : Buffer

/-! ## queries -/

/-- What `NtQuerySystemInformation` answers. -/
inductive Answer
  | success (snapshot : Snapshot)
  /-- `STATUS_INFO_LENGTH_MISMATCH`, and the length there should be. -/
  | infoLengthMismatch (len : UInt32)
  /-- Any other status; `left` is what the buffer has now. -/
  | failed (left : Buffer)

/-- What the system does in one turn of `QuerySystemProcesses`. -/
structure Turn where
  /-- Whether `VirtualAlloc` gives memory, if it is asked. -/
  allocated : Bool := true
  ticks : Int64 := 0
  answer : Answer

/-- What the system does in each turn, for the buffer's size then. -/
structure Query where
  turn : ℕ → UInt32 → Turn

/-- A snapshot is given at once. -/
def Query.ok (ticks : Int64) (snapshot : Snapshot) : Query :=
  ⟨fun _ _ => { ticks, answer := .success snapshot }⟩

def Query.failed (left : Buffer) : Query := ⟨fun _ _ => { answer := .failed left }⟩

/-- The buffer is too small at first. -/
def Query.grown (ticks : Int64) (snapshot : Snapshot) : Query :=
  ⟨fun i _ => { ticks, answer := if i = 0 then .infoLengthMismatch 0x500000 else .success snapshot }⟩

/-- A snapshot and the ticks read before it. -/
structure Taken where
  ticks : Int64
  snapshot : Snapshot

/-- What `QuerySystemProcesses` makes of the buffer, and what it returns. -/
structure Queried where
  buffer : Storage Buffer
  size : UInt32
  result : Option Taken

/-- The size a buffer is asked for with. -/
def askedSize (null : Bool) (size : UInt32) : UInt32 := if null && size == 0 then 0x400000 else size

/-- The turns of `QuerySystemProcesses` from the `i`th on. -/
def querySystemProcesses (query : Query) : (turns i : ℕ) → Storage Buffer → UInt32 → Queried
  | 0, _, buffer, size => ⟨buffer, size, none⟩
  | turns + 1, i, buffer, size =>
    let null := buffer.content.isNone
    let size := askedSize null size
    let turn := query.turn i size
    if null && !turn.allocated then ⟨buffer, size, none⟩
    else
      let buffer := if null then buffer.allocate {} else buffer
      match turn.answer with
      | .success snapshot => ⟨buffer.put snapshot.buffer, size, some ⟨turn.ticks, snapshot⟩⟩
      | .infoLengthMismatch len =>
        querySystemProcesses query turns (i + 1) buffer.release
          (max (size * 2) (len + 0x10000))
      | .failed left => ⟨buffer.put left, size, none⟩

/-! ## objects -/

/-- A pointer into one of the two buffers. -/
structure Pointer where
  place : Place
  offset : ℕ
deriving DecidableEq, Repr

structure ProcessInfo where
  object : ℕ
  nativeInfo : Pointer
  id : UInt32
  parentId : UInt32
  key : ProcessOrThreadKey
  cpu : Int32 := 0
  kernelCPU : Int32 := 0
deriving DecidableEq, Repr

structure ThreadInfo where
  object : ℕ
  nativeInfo : Pointer
  id : UInt32
  processId : UInt32
  key : ProcessOrThreadKey
  cpu : Int32 := 0
deriving DecidableEq, Repr

/-- What is the same for all managers. -/
structure Machine where
  totalProcessors : UInt32
  qpcFrequency : Int64

structure ProcessManager where
  processesById : Finmap fun _ : UInt32 => ProcessInfo := ∅
  processes : List ProcessInfo := []
  terminatedProcesses : Multiset ProcessInfo := 0
  newProcesses : List ProcessInfo := []
  processesByKey : Finmap fun _ : ProcessOrThreadKey => ProcessInfo := ∅
  threads : List ThreadInfo := []
  newThreads : List ThreadInfo := []
  terminatedThreads : Multiset ThreadInfo := 0
  threadsById : Finmap fun _ : UInt32 => ThreadInfo := ∅
  threadsByKey : Finmap fun _ : ProcessOrThreadKey => ThreadInfo := ∅
  /-- The process whose threads were taken last (0: all). -/
  threadsPid : UInt32 := 0
  prevTicks : Int64 := 0
  buffers : Fin 2 → Storage Buffer := fun _ => {}
  bufferSizes : Fin 2 → UInt32 := fun _ => 0
  bufIndex : Fin 2 := 0
  /-- The numbers of the next objects. -/
  nextProcess : ℕ := 0
  nextThread : ℕ := 0

/-! ## CPU -/

namespace Machine

variable (m : Machine)

/-- From one tick reading to another, in 100 ns. -/
def elapsed (since ticks : Int64) : Int64 := (ticks - since) * 10000000 / m.qpcFrequency

/-- Since the previous update: 0 when there was none. -/
def delta (prevTicks ticks : Int64) : Int64 :=
  if prevTicks = 0 then 0 else m.elapsed prevTicks ticks

/-- The share of the machine used, in millionths: `used` of `elapsed`. -/
def usage (used elapsed : Int64) : Int32 :=
  if elapsed = 0 then 0
  else (used * 1000000 / elapsed / m.totalProcessors.toUInt64.toInt64).toInt32

end Machine

/-! ## an update -/

section Walks

variable (m : Machine) (buffers : Fin 2 → Storage Buffer) (index : Fin 2) (delta : Int64)

/-- Where the buffer `index` is now. -/
def current : Place := ⟨index, (buffers index).allocation⟩

/-- What a place has; nothing is said of one given back. -/
def bufferAt (place : Place) : Buffer := (readAt buffers place).getD {}

/-- `Update`'s walk over the processes, with the process part of `BuildProcessInfo`: a known one's
`NativeInfo` is read, then set to the snapshot in `index`. -/
def processWalk : Differ ProcessEntry ProcessOrThreadKey ProcessInfo where
  key e := e.key
  keyOf p := p.key
  keep e p :=
    let old := (bufferAt buffers p.nativeInfo.place).process p.nativeInfo.offset
    let new := (bufferAt buffers (current buffers index)).process e.offset
    { p with
      nativeInfo := ⟨current buffers index, e.offset⟩
      cpu := m.usage (new.kernelTime + new.userTime - old.userTime - old.kernelTime) delta
      kernelCPU := m.usage (new.kernelTime - old.kernelTime) delta }
  make i e :=
    { object := i
      nativeInfo := ⟨current buffers index, e.offset⟩
      id := e.uniqueProcessId.toUInt32
      parentId := e.inheritedFromUniqueProcessId.toUInt32
      key := e.key }
  keyOf_keep _ _ := rfl
  keyOf_make _ _ := rfl

/-- The thread part of `BuildProcessInfo`, over the threads of all processes asked for. -/
def threadWalk : Differ ThreadEntry ProcessOrThreadKey ThreadInfo where
  key e := e.key
  keyOf t := t.key
  keep e t :=
    let old := (bufferAt buffers t.nativeInfo.place).thread t.nativeInfo.offset
    let new := (bufferAt buffers (current buffers index)).thread e.offset
    { t with
      nativeInfo := ⟨current buffers index, e.offset⟩
      cpu := m.usage (new.kernelTime + new.userTime - (old.userTime + old.kernelTime)) delta }
  make i e :=
    { object := i
      nativeInfo := ⟨current buffers index, e.offset⟩
      id := e.uniqueThread.toUInt32
      processId := e.uniqueProcess.toUInt32
      key := e.key }
  keyOf_keep _ _ := rfl
  keyOf_make _ _ := rfl

end Walks

/-- Whether an update with the threads of `pid` takes a process's threads (never the idle
process's). -/
def ProcessEntry.takes (pid : UInt32) (e : ProcessEntry) : Bool :=
  (pid = 0 || pid = e.key.id) && e.key.id > 0

/-- The threads an update takes, in order. -/
def Snapshot.threadsOf (s : Snapshot) (pid : UInt32) : List ThreadEntry :=
  (s.entries.filter fun e => e.takes pid).flatMap ProcessEntry.threads

/-- Objects by ID, the first one of an ID. -/
def byId {ν : Type*} (idOf : ν → UInt32) (l : List ν) : Finmap fun _ : UInt32 => ν :=
  l.foldl (fun map v => map.insertNew (idOf v) v) ∅

namespace ProcessManager

variable (m : Machine) (s : ProcessManager)

/-- The threads an update looks up: another process's are forgotten. -/
def knownByKey (pid : UInt32) : Finmap fun _ : ProcessOrThreadKey => ThreadInfo :=
  if pid ≠ s.threadsPid then ∅ else s.threadsByKey

/-- `Update`'s changes to the threads. -/
def updateThreads (pid : UInt32) (delta : Int64) (snapshot : Snapshot) : ProcessManager :=
  let d := (threadWalk m s.buffers s.bufIndex delta).walk
    { old := s.knownByKey pid, next := s.nextThread } (snapshot.threadsOf pid)
  { s with
    threadsPid := pid
    threads := d.current
    newThreads := d.fresh
    terminatedThreads := d.old.values
    threadsByKey := d.byKey
    threadsById := byId ThreadInfo.id d.current
    nextThread := d.next }

/-- `Update`'s changes to the processes. -/
def updateProcesses (delta : Int64) (snapshot : Snapshot) : ProcessManager :=
  let d := (processWalk m s.buffers s.bufIndex delta).walk
    { old := s.processesByKey, next := s.nextProcess } snapshot.entries
  { s with
    processes := d.current
    newProcesses := d.fresh
    terminatedProcesses := d.old.values
    processesByKey := d.byKey
    processesById := byId ProcessInfo.id d.current
    nextProcess := d.next }

/-- The current buffer's query. -/
def queried (query : Query) : Queried :=
  querySystemProcesses query 4 0 (s.buffers s.bufIndex) (s.bufferSizes s.bufIndex)

/-- What a query makes of the buffers. -/
def fill (query : Query) : ProcessManager :=
  { s with
    buffers := Function.update s.buffers s.bufIndex (s.queried query).buffer
    bufferSizes := Function.update s.bufferSizes s.bufIndex (s.queried query).size }

/-- The other buffer is next. -/
def flip (ticks : Int64) : ProcessManager :=
  { s with prevTicks := ticks, bufIndex := 1 - s.bufIndex }

def update (includeThreads : Bool) (pid : UInt32) (query : Query) : ProcessManager :=
  match (s.queried query).result with
  | none => s.fill query
  | some ⟨ticks, snapshot⟩ =>
    let delta := m.delta s.prevTicks ticks
    let s := (s.fill query).updateProcesses m delta snapshot
    let s := if includeThreads then s.updateThreads m pid delta snapshot else s
    s.flip ticks

/-- Where the last snapshot is. -/
def lastPlace : Place := current s.buffers (1 - s.bufIndex)

/-- The known processes that an update meets. -/
def foundProcesses (snapshot : Snapshot) : List ProcessInfo :=
  (processWalk m s.buffers s.bufIndex 0).found { old := s.processesByKey } snapshot.entries

/-- The known threads that an update meets. -/
def foundThreads (pid : UInt32) (snapshot : Snapshot) : List ThreadInfo :=
  (threadWalk m s.buffers s.bufIndex 0).found { old := s.knownByKey pid } (snapshot.threadsOf pid)

/-- The pointers an update reads: a process's where there is a time to divide by, a thread's
always. -/
def touched (includeThreads : Bool) (pid : UInt32) (query : Query) : List Pointer :=
  match (s.queried query).result with
  | none => []
  | some ⟨ticks, snapshot⟩ =>
    (if m.delta s.prevTicks ticks = 0 then []
      else (s.foundProcesses m snapshot).map ProcessInfo.nativeInfo) ++
    if includeThreads then (s.foundThreads m pid snapshot).map ThreadInfo.nativeInfo else []

def getProcessByKey (key : ProcessOrThreadKey) : Option ProcessInfo := s.processesByKey.lookup key

end ProcessManager

/-! ## runs -/

inductive Call
  | update (query : Query)
  | updateWithThreads (pid : UInt32) (query : Query)

def Call.query : Call → Query
  | .update query => query
  | .updateWithThreads _ query => query

def Call.includeThreads : Call → Bool
  | .update _ => false
  | .updateWithThreads _ _ => true

def Call.pid : Call → UInt32
  | .update _ => 0
  | .updateWithThreads pid _ => pid

namespace ProcessManager

variable (m : Machine) (s : ProcessManager) (c : Call)

def step : ProcessManager := s.update m c.includeThreads c.pid c.query

/-- What a call gets from the system. -/
def taken : Option Taken := (s.queried c.query).result

/-- No pointer that a call reads dangles. -/
def ReadsHeld : Prop :=
  ∀ p ∈ s.touched m c.includeThreads c.pid c.query,
    (readAt (s.fill c.query).buffers p.place).isSome

/-- Whether a call gives back its buffer's memory: the first answer is that it is too small. -/
def releases : Bool :=
  (s.buffers s.bufIndex).content.isSome &&
    match (c.query.turn 0 (s.bufferSizes s.bufIndex)).answer with
    | .infoLengthMismatch _ => true
    | .success _ | .failed _ => false

end ProcessManager

/-! ## distinct keys -/

/-- The processes' (creation time, ID) pairs are distinct. -/
def Snapshot.DistinctProcesses (s : Snapshot) : Prop := (s.entries.map ProcessEntry.key).Nodup

/-- The processes a call gets are distinct. -/
def DistinctProcesses (s : ProcessManager) (c : Call) : Prop :=
  ∀ taken ∈ s.taken c, taken.snapshot.DistinctProcesses

instance : DecidablePred Snapshot.DistinctProcesses := fun _ =>
  inferInstanceAs (Decidable (List.Nodup _))

instance (s : ProcessManager) : DecidablePred (DistinctProcesses s) := fun _ =>
  inferInstanceAs (Decidable (∀ _ ∈ _, _))

/-- The threads' (creation time, ID) pairs are distinct. -/
def Snapshot.DistinctThreads (s : Snapshot) (pid : UInt32) : Prop :=
  ((s.threadsOf pid).map ThreadEntry.key).Nodup

/-- The threads a call takes are distinct. -/
def DistinctThreads (s : ProcessManager) (c : Call) : Prop :=
  c.includeThreads = true → ∀ taken ∈ s.taken c, taken.snapshot.DistinctThreads c.pid

instance (s : Snapshot) : DecidablePred s.DistinctThreads := fun _ =>
  inferInstanceAs (Decidable (List.Nodup _))

instance (s : ProcessManager) : DecidablePred (DistinctThreads s) := fun _ =>
  inferInstanceAs (Decidable (_ → ∀ _ ∈ _, _))

/-- The keys of what a call gets are distinct. -/
def DistinctKeys (s : ProcessManager) (c : Call) : Prop :=
  DistinctProcesses s c ∧ DistinctThreads s c

instance (s : ProcessManager) : DecidablePred (DistinctKeys s) := fun _ =>
  inferInstanceAs (Decidable (_ ∧ _))

/-! ## history -/

/-- A successful `UpdateWithThreads`. -/
structure Sample where
  pid : UInt32
  ticks : Int64
  snapshot : Snapshot
  /-- The successful updates since, and whether its buffer was given back. -/
  since : Since := {}

/-- What was done so far, in the calls' own terms. -/
structure History where
  /-- The last successful update's entries. -/
  entries : List ProcessEntry := []
  sample : Option Sample := none

/-- The last successful update was the sample's. -/
def Sample.Last (sample : Sample) : Prop := sample.since.age = 0

instance : DecidablePred Sample.Last := fun _ => inferInstanceAs (Decidable (_ = _))

/-- A query comes after a sample. -/
def Sample.attempt (released : Bool) (sample : Sample) : Sample :=
  { sample with since := sample.since.attempt released }

/-- An update succeeds after a sample. -/
def Sample.turn (sample : Sample) : Sample := { sample with since := sample.since.turn }

/-- What a call adds that gets `taken`, `released` if it gives its buffer's memory back. -/
def History.next (h : History) (released : Bool) : Call → Option Taken → History
  | _, none => { h with sample := h.sample.map (Sample.attempt released) }
  | .update _, some ⟨_, snapshot⟩ =>
    { entries := snapshot.entries
      sample := h.sample.map fun sample => (sample.attempt released).turn }
  | .updateWithThreads pid _, some ⟨ticks, snapshot⟩ =>
    { entries := snapshot.entries, sample := some { pid, ticks, snapshot } }

@[simp]
theorem History.next_none (h : History) (released : Bool) (c : Call) :
    h.next released c none = { h with sample := h.sample.map (Sample.attempt released) } := by
  cases c <;> rfl

@[simp]
theorem History.next_some_entries (h : History) (released : Bool) (c : Call) (taken : Taken) :
    (h.next released c (some taken)).entries = taken.snapshot.entries := by
  cases c <;> rfl

/-- A manager and what it was asked to do. -/
structure Watched where
  manager : ProcessManager := {}
  history : History := {}

def Watched.step (m : Machine) (w : Watched) (c : Call) : Watched :=
  ⟨w.manager.step m c, w.history.next (w.manager.releases c) c (w.manager.taken c)⟩

end WinSys.Process
