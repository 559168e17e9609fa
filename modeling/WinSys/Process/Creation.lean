import WinSys.Infra.Bytes
import WinSys.Infra.Dict
import WinSys.Infra.Run
import WinSys.Infra.Wide
import WinSys.Process.Manager
import WinSys.Texts

/-!
# Process starts and stops

`ProcessCreationTracker` merges the start and the stop of a process into one record per process
key, and hands out each exited process once. Microsoft-Windows-Kernel-Process's events come with
their properties as TDH gives them by name; what is asked of the system as a start arrives comes
with the event too.
-/

namespace WinSys.Creation

open Infra Texts
open Process (ProcessOrThreadKey)

/-! ## records -/

inductive ProcessCreator
  | parent | onBehalf | other
deriving DecidableEq, Repr

structure ProcessCreation where
  pid : UInt32 := 0
  createTime : Int64 := 0
  parentPid : UInt32 := 0
  creatorPid : UInt32 := 0
  creatorTid : UInt32 := 0
  creator : ProcessCreator := .parent
  creatorService : WString := []
  creatorName : WString := []
  imagePath : WString := []
  started : Bool := false
  exitTime : Int64 := 0
  exitCode : Option UInt32 := none
  taken : Bool := false
deriving DecidableEq, Repr

def ProcessCreation.key (c : ProcessCreation) : ProcessOrThreadKey := ⟨c.createTime, c.pid⟩

/-! ## events -/

structure EventRecord where
  /-- The event's provider is Microsoft-Windows-Kernel-Process. -/
  kernelProcess : Bool := true
  id : UInt16
  version : UInt8 := 0
  processId : UInt32 := 0
  threadId : UInt32 := 0
  userData : Bytes := []
  /-- `TdhGetProperty`. -/
  property : WString → Option Bytes := fun _ => none

/-- What the system answers while an event is handled. -/
structure System where
  /-- The process a service runs in. -/
  serviceProcess : WString → UInt32
  /-- `QueryFullProcessImageName`. -/
  imagePath : UInt32 → Option WString

def processStartId : UInt16 := 1

def processStopId : UInt16 := 2

def onBehalfServices : List WString := [wide "Appinfo", wide "seclogon"]

namespace EventRecord

variable (record : EventRecord)

def getProperty (name : WString) : Option Bytes := (record.property name).filter (· ≠ [])

def getValue32 (name : WString) : Option UInt32 :=
  match record.getProperty name with
  | none => none
  | some value => if value.length < 4 then none else some (u32 value)

def getValue64 (name : WString) : Option Int64 :=
  match record.getProperty name with
  | none => none
  | some value => if value.length < 8 then none else some (u64 value).toInt64

/-- A `UnicodeString`'s or an `AnsiString`'s text. -/
def getText (name : WString) (ansi : Bool) : WString :=
  match record.getProperty name with
  | none => []
  | some value =>
    if ansi then widen (value.takeWhile (· ≠ 0))
    else (units value).takeWhile (· ≠ 0)

end EventRecord

/-- `ProcessCreationParser::Parse`. -/
def parse (id : UInt16) (version : UInt8) (data : Bytes) : Option ProcessCreation :=
  -- version 3 has each process's sequence number after its ID
  let sequence := if version ≥ 3 then 8 else 0
  if id ≠ processStartId ∨ data.length < 16 + sequence then none
  else some
    { pid := u32 data
      createTime := (u64 (data.drop (4 + sequence))).toInt64
      parentPid := u32 (data.drop (12 + sequence)) }

/-- `_wcsicmp(a, b) == 0`, up to the first NUL. -/
def sameFold (a b : WString) : Bool :=
  (a.takeWhile (· ≠ 0)).map foldCase == (b.takeWhile (· ≠ 0)).map foldCase

def classify (creatorPid parentPid : UInt32) (creatorService : WString) : ProcessCreator :=
  if creatorPid = parentPid then .parent
  else if onBehalfServices.any (sameFold creatorService) then .onBehalf
  else .other

namespace System

variable (system : System)

def onBehalfService (pid : UInt32) : WString :=
  (onBehalfServices.find? fun name => system.serviceProcess name = pid && pid ≠ 0).getD []

/-- The part of the path after its last backslash. -/
def imageName (pid : UInt32) : WString :=
  match system.imagePath pid with
  | none => []
  | some path => (path.reverse.takeWhile (· ≠ backslash)).reverse

end System

/-- A stop's fields. -/
structure ProcessStop where
  pid : UInt32
  created : Int64
  exited : Int64
  code : Option UInt32
  name : WString
deriving DecidableEq, Repr

def ProcessStop.key (e : ProcessStop) : ProcessOrThreadKey := ⟨e.created, e.pid⟩

namespace EventRecord

variable (record : EventRecord)

def stop : Option ProcessStop :=
  match record.getValue32 (wide "ProcessID"), record.getValue64 (wide "CreateTime"),
    record.getValue64 (wide "ExitTime") with
  | some pid, some created, some exited =>
    some
      { pid := pid
        created := created
        exited := exited
        code := record.getValue32 (wide "ExitCode")
        name := record.getText (wide "ImageName") true }
  | _, _, _ => none

def start (system : System) : Option ProcessCreation :=
  match parse record.id record.version record.userData with
  | none => none
  | some c =>
    -- logged in the creating thread's context
    let asked := record.processId ≠ c.parentPid
    let service := if asked then system.onBehalfService record.processId else []
    some { c with
      creatorPid := record.processId
      creatorTid := record.threadId
      creatorService := service
      creatorName := if asked then system.imageName record.processId else []
      creator := classify record.processId c.parentPid service
      imagePath := record.getText (wide "ImageName") false
      started := true }

end EventRecord

/-! ## the tracker -/

structure ProcessCreationTracker where
  creations : Finmap fun _ : ProcessOrThreadKey => ProcessCreation := ∅

/-- A stop's fields go in the record field by field. -/
def ProcessStop.fill (e : ProcessStop) (c : ProcessCreation) : ProcessCreation := { c with
  pid := e.pid
  createTime := e.created
  exitTime := e.exited
  exitCode := e.code
  imagePath := if c.imagePath = [] then e.name else c.imagePath }

/-- A start takes the record's place, with the exit that may be there already. -/
def ProcessCreation.replace (c existing : ProcessCreation) : ProcessCreation := { c with
  exitTime := existing.exitTime
  exitCode := existing.exitCode }

/-- 10 minutes. -/
def exitedKept : ℤ := 10 * 60 * 10000000

namespace ProcessCreationTracker

variable (t : ProcessCreationTracker)

def onStop (e : ProcessStop) : ProcessCreationTracker :=
  { creations := t.creations.insert e.key (e.fill ((t.creations.lookup e.key).getD {})) }

def onStart (c : ProcessCreation) : ProcessCreationTracker :=
  { creations := t.creations.insert c.key (c.replace ((t.creations.lookup c.key).getD {})) }

def onEvent (system : System) (record : EventRecord) : ProcessCreationTracker :=
  if record.kernelProcess = false then t
  else if record.id = processStopId then
    match record.stop with
    | none => t
    | some e => t.onStop e
  else
    match record.start system with
    | none => t
    | some c => t.onStart c

end ProcessCreationTracker

/-- What `TakeExited` returns. -/
def ProcessCreation.exits (c : ProcessCreation) : Bool := c.exitTime ≠ 0 && !c.taken && c.started

/-- What `TakeExited` erases. -/
def ProcessCreation.expired (now : ℤ) (c : ProcessCreation) : Bool :=
  c.exitTime ≠ 0 && now - c.exitTime.toInt > exitedKept

def ProcessCreation.take (c : ProcessCreation) : ProcessCreation :=
  if c.exits then { c with taken := true } else c

namespace ProcessCreationTracker

variable (t : ProcessCreationTracker)

/-- The exited processes, in no particular order, and the tracker afterwards. -/
def takeExited (now : ℤ) : Multiset ProcessCreation × ProcessCreationTracker :=
  ((t.creations.entries.filter fun e => e.2.exits).map fun e => e.2.take,
    { creations := (t.creations.mapAll fun _ c => c.take).eraseIf fun _ c => c.expired now })

def remove (key : ProcessOrThreadKey) : ProcessCreationTracker :=
  { creations := t.creations.erase key }

end ProcessCreationTracker

/-! ## calls -/

inductive Call
  | onEvent (system : System) (record : EventRecord)
  | takeExited
  | remove (key : ProcessOrThreadKey)

/-- A call at a time. -/
def ProcessCreationTracker.step (t : ProcessCreationTracker) (now : ℤ) :
    Call → ProcessCreationTracker
  | .onEvent system record => t.onEvent system record
  | .takeExited => (t.takeExited now).2
  | .remove key => t.remove key

end WinSys.Creation
