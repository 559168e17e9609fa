import WinSys.Infra.Bytes
import WinSys.Infra.Wide

/-!
# The driver's requests

`WinSysDeviceControl` reads a request from the system buffer and writes its result over it. Every
access to the buffer is kept, in order, as is what the request completes with.
-/

namespace WinSys.Driver

open Infra

/-! ## requests -/

/-- `CTL_CODE` of a buffered request for any access. -/
def ctlCode (function : UInt32) : UInt32 := (0x8088 : UInt32) <<< 16 ||| function <<< 2

def ioctlGetVersion : UInt32 := ctlCode 0x800

def ioctlDupHandle : UInt32 := ctlCode 0x802

def ioctlOpenObjectByName : UInt32 := ctlCode 0x803

def ioctlOpenProcess : UInt32 := ctlCode 0x804

def ioctlOpenThread : UInt32 := ctlCode 0x805

/-- A request, with the system buffer and what memory has after it. There is no buffer if both
lengths are 0. -/
structure Request where
  controlCode : UInt32
  inputLength : UInt32
  outputLength : UInt32
  buffer : Bytes
  after : Bytes
  size : buffer.length = max inputLength.toNat outputLength.toNat

structure Access where
  write : Bool
  offset : ℕ
  size : ℕ
deriving DecidableEq, Repr

/-- A request that is being served: memory from the buffer's start on, and the accesses to it. -/
structure Irp where
  memory : Bytes
  accesses : List Access := []

/-- `completed` has the status and `Information`; it is `none` after a page fault. -/
structure Outcome where
  memory : Bytes
  accesses : List Access
  completed : Option (UInt32 × UInt64)

/-- `NT_SUCCESS`. -/
def success (status : UInt32) : Bool := status < 0x80000000

def statusSuccess : UInt32 := 0

def statusInvalidParameter : UInt32 := 0xC000000D

def statusInvalidDeviceRequest : UInt32 := 0xC0000010

def statusBufferTooSmall : UInt32 := 0xC0000023

namespace Irp

variable (p : Irp)

def read (offset size : ℕ) : Irp := { p with accesses := p.accesses ++ [⟨false, offset, size⟩] }

def u16At (offset : ℕ) : UInt16 := u16 (p.memory.drop offset)

def u32At (offset : ℕ) : UInt32 := u32 (p.memory.drop offset)

def write (offset : ℕ) (bytes : Bytes) : Irp where
  memory := p.memory.take offset ++ bytes ++ p.memory.drop (offset + bytes.length)
  accesses := p.accesses ++ [⟨true, offset, bytes.length⟩]

/-- `CompleteRequest`. -/
def complete (status : UInt32) (information : UInt64) : Outcome :=
  ⟨p.memory, p.accesses, some (status, information)⟩

/-- A handle goes to the buffer's start if there is one. -/
def finish (result : UInt32 × UInt64) : Outcome :=
  if success result.1 then (p.write 0 (leBytes 8 result.2.toNat)).complete result.1 8
  else p.complete result.1 0

end Irp

def Request.start (r : Request) : Irp := { memory := r.buffer ++ r.after }

/-! ## the system -/

/-- The kernel's routines, each with a status and a handle, and `g_ObjectTypes`. -/
structure Kernel where
  zwOpenProcess : (pid access : UInt32) → UInt32 × UInt64
  zwOpenThread : (tid access : UInt32) → UInt32 × UInt64
  zwDuplicateObject : (process : UInt64) → (source access flags : UInt32) → UInt32 × UInt64
  obOpenObjectByName : (type : UInt64) → (access : UInt32) → (name : WString) → UInt32 × UInt64
  zwOpenSession : (access : UInt32) → (name : WString) → UInt32 × UInt64
  zwOpenSymbolicLinkObject : (access : UInt32) → (name : WString) → UInt32 × UInt64
  objectTypes : Fin 256 → UInt64

def kwinsysVersion : UInt32 := 0x100

def processDupHandle : UInt32 := 0x40

/-- Object types that the kernel does not export. -/
def typeSession : UInt64 := 1

def typeSymbolicLink : UInt64 := 2

/-! ## serving a request -/

/-- `RtlInitUnicodeString`: the characters up to a zero, read one by one. -/
def scanName : Bytes → ℕ → List Access × Option WString
  | a :: b :: rest, offset =>
    if u16 [a, b] = 0 then ([⟨false, offset, 2⟩], some [])
    else
      (⟨false, offset, 2⟩ :: (scanName rest (offset + 2)).1,
        (scanName rest (offset + 2)).2.map (u16 [a, b] :: ·))
  | _, offset => ([⟨false, offset, 2⟩], none)

section Serving

variable (k : Kernel) (r : Request)

def getVersion : Outcome :=
  if r.buffer = [] ∨ r.outputLength < 4 then r.start.complete statusInvalidParameter 0
  else (r.start.write 0 (leBytes 4 kwinsysVersion.toNat)).complete statusSuccess 4

/-- `DupHandleData`: SourceHandle, SourcePid, AccessMask, Flags. -/
def dupHandle : Outcome :=
  if r.buffer = [] then r.start.complete statusInvalidParameter 0
  else if r.inputLength < 16 ∨ r.outputLength < 8 then r.start.complete statusBufferTooSmall 0
  else
    let p := r.start.read 4 4
    let process := k.zwOpenProcess (p.u32At 4) processDupHandle
    if !success process.1 then (p.read 4 4).complete process.1 0
    else
      let p := ((p.read 0 4).read 8 4).read 12 4
      p.finish (k.zwDuplicateObject process.2 (p.u32At 0) (p.u32At 8) (p.u32At 12))

/-- `OpenProcessThreadData`: Id, AccessMask. -/
def openProcessThread : Outcome :=
  if r.buffer = [] then r.start.complete statusInvalidParameter 0
  else if r.inputLength < 8 ∨ r.outputLength < 8 then r.start.complete statusBufferTooSmall 0
  else
    let p := (r.start.read 0 4).read 4 4
    if r.controlCode = ioctlOpenProcess then p.finish (k.zwOpenProcess (p.u32At 0) (p.u32At 4))
    else p.finish (k.zwOpenThread (p.u32At 0) (p.u32At 4))

/-- An object of a type is opened by the name at 6; a type the table does not have leaves the
status as it was. -/
def openNamed (p : Irp) (type : UInt64) (name : WString) : Outcome :=
  let q := (p.read 0 4).read 6 (2 * name.length)
  if type = 0 then p.complete statusInvalidDeviceRequest 0
  else if type > 0x10000 then q.finish (k.obOpenObjectByName type (p.u32At 0) name)
  else if type = typeSession then q.finish (k.zwOpenSession (p.u32At 0) name)
  else if type = typeSymbolicLink then q.finish (k.zwOpenSymbolicLinkObject (p.u32At 0) name)
  else p.complete statusInvalidDeviceRequest 0

/-- `OpenObjectByNameData`: Access, TypeIndex (of 16 bits), Name. -/
def openObjectByName : Outcome :=
  if r.buffer = [] ∨ r.outputLength < 8 ∨ r.inputLength < 8 ∨ r.inputLength > 2048 then
    r.start.complete statusInvalidParameter 0
  else
    let p := r.start.read 4 2
    if h : p.u16At 4 > 255 then p.complete statusInvalidParameter 0
    else
      have hindex : (p.u16At 4).toNat < 256 := by
        have hle := UInt16.le_iff_toNat_le.mp (UInt16.not_lt.mp h)
        exact Nat.lt_succ_of_le hle
      -- make sure name is NULL-terminated
      let p := p.write (r.inputLength.toNat - 2) [0, 0]
      let scanned := scanName (p.memory.drop 6) 6
      let p := { p with accesses := p.accesses ++ scanned.1 }
      match scanned.2 with
      | some name =>
        openNamed k (p.read 4 2) (k.objectTypes ⟨(r.start.u16At 4).toNat, hindex⟩) name
      | none => ⟨p.memory, p.accesses, none⟩

def winSysDeviceControl : Outcome :=
  if r.controlCode = ioctlGetVersion then getVersion r
  else if r.controlCode = ioctlDupHandle then dupHandle k r
  else if r.controlCode = ioctlOpenProcess ∨ r.controlCode = ioctlOpenThread then
    openProcessThread k r
  else if r.controlCode = ioctlOpenObjectByName then openObjectByName k r
  else r.start.complete statusInvalidDeviceRequest 0

end Serving

end WinSys.Driver
