import WinSys.Infra.Bytes
import WinSys.Infra.Dict
import WinSys.Infra.Wide

/-!
# File I/O per process and file

`FileIoTracker` counts reads and writes from the file provider's events. A file is known by its
file key, and named by `NameCreate` for the key, else by the `Create` of the file object that a read
or write uses, else by a thread of the tracker's own, the resolver, from a handle to the object.

* `FileRecord.event`: an event's payload
* `FileIoTracker`: what the events and the resolver do to the tables
* `Resolver`: one pass of the resolver, in its steps
-/

namespace WinSys.FileIo

open Infra

/-! ## payloads -/

/-- An event's payload, read field by field; a field past its end reads as zero. -/
structure Payload where
  data : Bytes
  pointerSize : ℕ
deriving DecidableEq, Repr

namespace Payload

variable (p : Payload) (offset : ℕ)

def pointer : UInt64 :=
  if offset + p.pointerSize ≤ p.data.length then
    (leNat ((p.data.drop offset).take p.pointerSize)).toUInt64
  else 0

def uint32 : UInt32 := if offset + 4 ≤ p.data.length then u32 (p.data.drop offset) else 0

def string : WString := (units (p.data.drop offset)).takeWhile (· ≠ 0)

end Payload

structure FileRecord where
  id : UInt16
  version : UInt8 := 1
  is32Bit : Bool := false
  processId : UInt32 := 0
  userData : Bytes
deriving DecidableEq, Repr

def nameCreate : UInt16 := 10

def create : UInt16 := 12

def read : UInt16 := 15

def write : UInt16 := 16

inductive FileEvent
  | nameCreate (key : UInt64) (name : WString)
  | create (fileObject : UInt64) (name : WString)
  | readWrite (fileObject fileKey : UInt64) (pid size : UInt32) (write : Bool)
deriving DecidableEq, Repr

/-- What an event says; `none` if it is not one the tracker reads. -/
def FileRecord.event (record : FileRecord) : Option FileEvent :=
  let p := if record.is32Bit then 4 else 8
  let data : Payload := ⟨record.userData, p⟩
  let v0 := record.version = 0
  if record.id = nameCreate then some (.nameCreate (data.pointer 0) (data.string p))
  else if record.id = create then
    -- v0: Irp, ThreadId (a pointer), FileObject; v1: Irp, FileObject, IssuingThreadId
    some (.create (data.pointer (if v0 then 2 * p else p))
      (data.string (if v0 then 3 * p + 12 else 2 * p + 16)))
  else if record.id = read ∨ record.id = write then
    if v0 then
      some (.readWrite (data.pointer (8 + 2 * p)) (data.pointer (8 + 3 * p)) record.processId
        (data.uint32 (8 + 4 * p)) (record.id = write))
    else
      some (.readWrite (data.pointer (8 + p)) (data.pointer (8 + 2 * p)) record.processId
        (data.uint32 (8 + 3 * p + 4)) (record.id = write))
  else none

/-! ## the tables -/

structure FileId where
  pid : UInt32
  key : UInt64
deriving DecidableEq, Repr

structure File where
  bytesRead : UInt64 := 0
  bytesWritten : UInt64 := 0
  reads : UInt64 := 0
  writes : UInt64 := 0
  firstSeen : ℤ := 0
  lastSeen : ℤ := 0
  lastTick : UInt64 := 0
deriving DecidableEq, Repr

structure Name where
  text : WString
  /-- When it was learned or last used. -/
  tick : UInt64 := 0
deriving DecidableEq, Repr

/-- The drives' devices, as `\Device\HarddiskVolume3\`, each with its drive, as `C:\`. -/
abbrev DosNames := List (WString × WString)

/-- The name itself if no drive maps it. -/
def DosNames.convert (devices : DosNames) (name : WString) : WString :=
  match devices.find? fun d => startsWithFold name d.1 with
  | some d => d.2 ++ name.drop d.1.length
  | none => name

structure FileIoTracker where
  files : Finmap fun _ : FileId => File := ∅
  /-- By file key. -/
  names : Finmap fun _ : UInt64 => Name := ∅
  /-- By file object, from `Create` events. -/
  objectNames : Finmap fun _ : UInt64 => Name := ∅
  /-- File keys without a name, to the file object last used. -/
  pending : Finmap fun _ : UInt64 => UInt64 := ∅
  /-- File keys the resolver looked for, and how often. -/
  attempts : Finmap fun _ : UInt64 => ℕ := ∅
  dosNames : Option DosNames := none

structure FileIoCounters where
  pid : UInt32
  fileKey : UInt64
  name : WString
  bytesRead : UInt64
  bytesWritten : UInt64
  reads : UInt64
  writes : UInt64
  firstSeen : ℤ
  lastSeen : ℤ
deriving DecidableEq, Repr

def fileIdle : UInt64 := 60000

def nameIdle : UInt64 := 120000

def maxAttempts : ℕ := 3

/-- A row after a read or write. -/
def File.note (file : File) (size : UInt32) (write : Bool) (time : ℤ) (tick : UInt64) : File :=
  let file := { file with
    firstSeen := if file.firstSeen = 0 then time else file.firstSeen
    lastSeen := time
    lastTick := tick }
  if write then
    { file with bytesWritten := file.bytesWritten + size.toUInt64, writes := file.writes + 1 }
  else { file with bytesRead := file.bytesRead + size.toUInt64, reads := file.reads + 1 }

namespace FileIoTracker

variable (t : FileIoTracker)

def onNameCreate (key : UInt64) (name : WString) (tick : UInt64) : FileIoTracker :=
  if key ≠ 0 ∧ name ≠ [] then
    { t with names := t.names.insert key ⟨name, tick⟩, pending := t.pending.erase key }
  else t

def onCreate (fileObject : UInt64) (name : WString) (tick : UInt64) : FileIoTracker :=
  if fileObject ≠ 0 ∧ name ≠ [] then
    { t with objectNames := t.objectNames.insert fileObject ⟨name, tick⟩ }
  else t

/-- Names a key that was read or written through a file object, or leaves it to the resolver. -/
def nameKey (fileObject key tick : UInt64) : FileIoTracker :=
  match t.names.lookup key with
  | some name => { t with names := t.names.insert key { name with tick := tick } }
  | none =>
    match t.objectNames.lookup fileObject with
    | some name => { t with names := t.names.insert key ⟨name.text, tick⟩ }
    | none =>
      if (t.attempts.lookup key).all (· < maxAttempts) then
        { t with pending := t.pending.insert key fileObject }
      else t

def onReadWrite (fileObject key : UInt64) (pid size : UInt32) (write : Bool) (time : ℤ)
    (tick : UInt64) : FileIoTracker :=
  if key = 0 then t
  else
    let file := ((t.files.lookup ⟨pid, key⟩).getD {}).note size write time tick
    { t with files := t.files.insert ⟨pid, key⟩ file }.nameKey fileObject key tick

def onFileEvent (event : FileEvent) (time : ℤ) (tick : UInt64) : FileIoTracker :=
  match event with
  | .nameCreate key name => t.onNameCreate key name tick
  | .create fileObject name => t.onCreate fileObject name tick
  | .readWrite fileObject key pid size write =>
    t.onReadWrite fileObject (if key ≠ 0 then key else fileObject) pid size write time tick

def onEvent (record : FileRecord) (time : ℤ) (tick : UInt64) : FileIoTracker :=
  match record.event with
  | some event => t.onFileEvent event time tick
  | none => t

/-- A name as it is shown. -/
def dosName (name : WString) : WString := t.dosNames.elim name fun devices => devices.convert name

def shownName (key : UInt64) : WString :=
  match t.names.lookup key with
  | some name => t.dosName name.text
  | none => []

/-- Every process and file, in no particular order. -/
def getFiles : Multiset FileIoCounters :=
  t.files.entries.map fun ⟨id, file⟩ =>
    { pid := id.pid
      fileKey := id.key
      name := t.shownName id.key
      bytesRead := file.bytesRead
      bytesWritten := file.bytesWritten
      reads := file.reads
      writes := file.writes
      firstSeen := file.firstSeen
      lastSeen := file.lastSeen }

def removeProcess (pid : UInt32) : FileIoTracker :=
  { t with files := t.files.eraseIf fun id _ => id.pid = pid }

def prune (tick : UInt64) : FileIoTracker :=
  let files := t.files.eraseIf fun _ file => tick - file.lastTick > fileIdle
  { t with
    files := files
    names := t.names.eraseIf fun _ name => tick - name.tick > nameIdle
    objectNames := t.objectNames.eraseIf fun _ name => tick - name.tick > nameIdle
    -- the attempts of the keys still in use
    attempts := t.attempts.eraseIf fun key _ => decide (key ∉ files.keys.image FileId.key) }

/-- The resolver's answers; a name learned meanwhile stays. -/
def storeNames (names : List (UInt64 × WString)) (unnamed : List UInt64) (tick : UInt64) :
    FileIoTracker :=
  { t with
    names := names.foldl (fun m n => m.insertNew n.1 ⟨n.2, tick⟩) t.names
    attempts := unnamed.foldl (fun m key => m.insert key ((m.lookup key).getD 0 + 1)) t.attempts }

end FileIoTracker

/-! ## the resolver -/

structure SystemHandleEntry where
  pid : UInt32
  value : UInt64
  object : UInt64
  typeIndex : UInt16
deriving DecidableEq, Repr

/-- The files among the handles, by file object: the first handle of each. -/
def byObject (handles : List SystemHandleEntry) (isFile : UInt16 → Bool) :
    Finmap fun _ : UInt64 => SystemHandleEntry :=
  handles.foldl
    (fun m h => if isFile h.typeIndex && h.object ≠ 0 then m.insertNew h.object h else m) ∅

/-- Where a pass of `Resolve` is. -/
inductive Resolver
  | idle
  /-- `m_Pending` is swapped out. -/
  | taken (pending : Finmap fun _ : UInt64 => UInt64)
  /-- The handle table is read; some of the names are queried. -/
  | asking (handles : Finmap fun _ : UInt64 => SystemHandleEntry)
      (pending : Finmap fun _ : UInt64 => UInt64) (names : List (UInt64 × WString))
      (unnamed : List UInt64)

namespace Resolver

/-- The keys without a name, and the tracker without them. -/
def take (t : FileIoTracker) : Resolver × FileIoTracker :=
  (if t.pending = ∅ then .idle else .taken t.pending, { t with pending := ∅ })

/-- Without the handle table the pass ends. -/
def readHandles (handles : Option (List SystemHandleEntry)) (isFile : UInt16 → Bool) :
    Resolver → Resolver
  | .taken pending =>
    match handles with
    | some handles => .asking (byObject handles isFile) pending [] []
    | none => .idle
  | r => r

/-- The file object that a key's name is queried for, if there is a handle to it. -/
def target (key : UInt64) : Resolver → Option UInt64
  | .asking handles pending _ _ => (pending.lookup key).filter (· ∈ handles)
  | _ => none

/-- A key's name is queried, in any order of the keys; it is empty if the query fails. -/
def ask (key : UInt64) (answer : WString) : Resolver → Resolver
  | .asking handles pending names unnamed =>
    match pending.lookup key with
    | some fileObject =>
      if fileObject ∈ handles ∧ answer ≠ [] then
        .asking handles (pending.erase key) (names ++ [(key, answer)]) unnamed
      else .asking handles (pending.erase key) names (unnamed ++ [key])
    | none => .asking handles pending names unnamed
  | r => r

/-- Once every name is queried the answers are stored. -/
def store (t : FileIoTracker) (tick : UInt64) : Resolver → Resolver × FileIoTracker
  | .asking handles pending names unnamed =>
    if pending = ∅ then (.idle, t.storeNames names unnamed tick)
    else (.asking handles pending names unnamed, t)
  | r => (r, t)

/-- Every name is queried. -/
def done : Resolver → Bool
  | .asking _ pending _ _ => pending = ∅
  | _ => false

/-- The keys whose names are still to be queried, each with its file object. -/
def toAsk : Resolver → Finmap fun _ : UInt64 => UInt64
  | .asking _ pending _ _ => pending
  | _ => ∅

/-- The answers so far. -/
def answers : Resolver → List (UInt64 × WString)
  | .asking _ _ names _ => names
  | _ => []

end Resolver

end WinSys.FileIo
