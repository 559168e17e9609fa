import WinSys.Infra.Masks
import WinSys.Infra.Wide

/-!
# Access masks in words

`AccessMaskDecoder::Decode`: the rights of a type's table, then the standard ones, then what is left
as a number. The rights are taken against the whole mask, so that combinations may share bits; each
adds bits not shown yet.

* `types`, `standard`
* `decode`
* `naming`: the rights that were added, and what was left
-/

namespace WinSys.Security

open Infra

/-! ## tables -/

structure Right where
  mask : UInt32
  name : WString
deriving DecidableEq, Repr

structure TypeRights where
  type : WString
  allAccess : UInt32
  /-- combinations first, then the single rights -/
  rights : List Right
deriving DecidableEq, Repr

def right (mask : UInt32) (name : String) : Right := ⟨mask, wide name⟩

/-! ### the SDK's masks -/

def processAllAccess : UInt32 := 0x1FFFFF

def threadAllAccess : UInt32 := 0x1FFFFF

def fileAllAccess : UInt32 := 0x1F01FF

def fileGenericRead : UInt32 := 0x120089

def fileGenericWrite : UInt32 := 0x120116

def keyAllAccess : UInt32 := 0xF003F

def keyRead : UInt32 := 0x20019

def keyWrite : UInt32 := 0x20006

def eventAllAccess : UInt32 := 0x1F0003

def mutantAllAccess : UInt32 := 0x1F0001

def semaphoreAllAccess : UInt32 := 0x1F0003

def timerAllAccess : UInt32 := 0x1F0003

def sectionAllAccess : UInt32 := 0xF001F

def tokenAllAccess : UInt32 := 0xF01FF

def serviceAllAccess : UInt32 := 0xF01FF

def jobObjectAllAccess : UInt32 := 0x1F003F

def genericRead : UInt32 := 0x80000000

def genericWrite : UInt32 := 0x40000000

/-! ### types -/

def queryModify : List Right := [right 0x0001 "QUERY_STATE", right 0x0002 "MODIFY_STATE"]

def file : TypeRights where
  type := wide "File"
  allAccess := fileAllAccess
  rights :=
    [right fileGenericRead "GENERIC_READ", right fileGenericWrite "GENERIC_WRITE",
      right 0x0001 "READ_DATA", right 0x0002 "WRITE_DATA", right 0x0004 "APPEND_DATA",
      right 0x0008 "READ_EA", right 0x0010 "WRITE_EA", right 0x0020 "EXECUTE",
      right 0x0040 "DELETE_CHILD", right 0x0080 "READ_ATTRIBUTES",
      right 0x0100 "WRITE_ATTRIBUTES"]

/-- `s_Types` -/
def types : List TypeRights :=
  [⟨wide "Process", processAllAccess,
      [right 0x0001 "TERMINATE", right 0x0002 "CREATE_THREAD", right 0x0004 "SET_SESSIONID",
        right 0x0008 "VM_OPERATION", right 0x0010 "VM_READ", right 0x0020 "VM_WRITE",
        right 0x0040 "DUP_HANDLE", right 0x0080 "CREATE_PROCESS", right 0x0100 "SET_QUOTA",
        right 0x0200 "SET_INFORMATION", right 0x0400 "QUERY_INFORMATION",
        right 0x0800 "SUSPEND_RESUME", right 0x1000 "QUERY_LIMITED_INFORMATION",
        right 0x2000 "SET_LIMITED_INFORMATION"]⟩,
    ⟨wide "Thread", threadAllAccess,
      [right 0x0001 "TERMINATE", right 0x0002 "SUSPEND_RESUME", right 0x0004 "ALERT",
        right 0x0008 "GET_CONTEXT", right 0x0010 "SET_CONTEXT", right 0x0020 "SET_INFORMATION",
        right 0x0040 "QUERY_INFORMATION", right 0x0080 "SET_THREAD_TOKEN",
        right 0x0100 "IMPERSONATE", right 0x0200 "DIRECT_IMPERSONATION",
        right 0x0400 "SET_LIMITED_INFORMATION", right 0x0800 "QUERY_LIMITED_INFORMATION",
        right 0x1000 "RESUME"]⟩,
    file,
    ⟨wide "Key", keyAllAccess,
      [right keyRead "READ", right keyWrite "WRITE", right 0x0001 "QUERY_VALUE",
        right 0x0002 "SET_VALUE", right 0x0004 "CREATE_SUB_KEY",
        right 0x0008 "ENUMERATE_SUB_KEYS", right 0x0010 "NOTIFY", right 0x0020 "CREATE_LINK",
        right 0x0100 "WOW64_64KEY", right 0x0200 "WOW64_32KEY"]⟩,
    ⟨wide "Event", eventAllAccess, queryModify⟩,
    ⟨wide "Mutant", mutantAllAccess, [right 0x0001 "QUERY_STATE"]⟩,
    ⟨wide "Semaphore", semaphoreAllAccess, queryModify⟩,
    ⟨wide "Timer", timerAllAccess, queryModify⟩,
    ⟨wide "IRTimer", timerAllAccess, queryModify⟩,
    ⟨wide "IoCompletion", 0x1F0003, queryModify⟩,
    ⟨wide "Section", sectionAllAccess,
      [right 0x0001 "QUERY", right 0x0002 "MAP_WRITE", right 0x0004 "MAP_READ",
        right 0x0008 "MAP_EXECUTE", right 0x0010 "EXTEND_SIZE",
        right 0x0020 "MAP_EXECUTE_EXPLICIT"]⟩,
    ⟨wide "Token", tokenAllAccess,
      [right 0x0001 "ASSIGN_PRIMARY", right 0x0002 "DUPLICATE", right 0x0004 "IMPERSONATE",
        right 0x0008 "QUERY", right 0x0010 "QUERY_SOURCE", right 0x0020 "ADJUST_PRIVILEGES",
        right 0x0040 "ADJUST_GROUPS", right 0x0080 "ADJUST_DEFAULT",
        right 0x0100 "ADJUST_SESSIONID"]⟩,
    ⟨wide "Directory", 0xF000F,
      [right 0x0001 "QUERY", right 0x0002 "TRAVERSE", right 0x0004 "CREATE_OBJECT",
        right 0x0008 "CREATE_SUBDIRECTORY"]⟩,
    ⟨wide "SymbolicLink", 0xF0001, [right 0x0001 "QUERY"]⟩,
    ⟨wide "Service", serviceAllAccess,
      [right 0x0001 "QUERY_CONFIG", right 0x0002 "CHANGE_CONFIG", right 0x0004 "QUERY_STATUS",
        right 0x0008 "ENUMERATE_DEPENDENTS", right 0x0010 "START", right 0x0020 "STOP",
        right 0x0040 "PAUSE_CONTINUE", right 0x0080 "INTERROGATE",
        right 0x0100 "USER_DEFINED_CONTROL"]⟩,
    ⟨wide "Job", jobObjectAllAccess,
      [right 0x0001 "ASSIGN_PROCESS", right 0x0002 "SET_ATTRIBUTES", right 0x0004 "QUERY",
        right 0x0008 "TERMINATE", right 0x0010 "SET_SECURITY_ATTRIBUTES",
        right 0x0020 "IMPERSONATE"]⟩,
    ⟨wide "WindowStation", 0xF037F,
      [right 0x0001 "ENUMDESKTOPS", right 0x0002 "READATTRIBUTES", right 0x0004 "ACCESSCLIPBOARD",
        right 0x0008 "CREATEDESKTOP", right 0x0010 "WRITEATTRIBUTES",
        right 0x0020 "ACCESSGLOBALATOMS", right 0x0040 "EXITWINDOWS", right 0x0100 "ENUMERATE",
        right 0x0200 "READSCREEN"]⟩,
    ⟨wide "Desktop", 0xF01FF,
      [right 0x0001 "READOBJECTS", right 0x0002 "CREATEWINDOW", right 0x0004 "CREATEMENU",
        right 0x0008 "HOOKCONTROL", right 0x0010 "JOURNALRECORD", right 0x0020 "JOURNALPLAYBACK",
        right 0x0040 "ENUMERATE", right 0x0080 "WRITEOBJECTS", right 0x0100 "SWITCHDESKTOP"]⟩,
    ⟨wide "ALPC Port", 0x1F0001, [right 0x0001 "CONNECT"]⟩,
    ⟨wide "TpWorkerFactory", 0xF00FF,
      [right 0x0001 "RELEASE_WORKER", right 0x0002 "WAIT", right 0x0004 "SET_INFORMATION",
        right 0x0008 "QUERY_INFORMATION", right 0x0010 "READY_WORKER",
        right 0x0020 "SHUTDOWN"]⟩,
    ⟨wide "Session", 0xF0003, [right 0x0001 "QUERY", right 0x0002 "MODIFY"]⟩]

/-- `s_Standard` -/
def standard : List Right :=
  [right 0x10000 "DELETE", right 0x20000 "READ_CONTROL", right 0x40000 "WRITE_DAC",
    right 0x80000 "WRITE_OWNER", right 0x100000 "SYNCHRONIZE",
    right 0x1000000 "ACCESS_SYSTEM_SECURITY", right 0x2000000 "MAXIMUM_ALLOWED",
    right 0x10000000 "GENERIC_ALL", right 0x20000000 "GENERIC_EXECUTE",
    right genericWrite "GENERIC_WRITE", right genericRead "GENERIC_READ"]

/-! ## the text -/

def separator : WString := wide " | "

/-- The lambda `add`. -/
def add (text name : WString) : WString :=
  if text = [] then name else text ++ separator ++ name

/-- The text so far, and the bits not shown yet. -/
structure Words where
  text : WString := []
  left : UInt32
deriving DecidableEq

/-- Whether a right of the type's table is added. -/
def Right.Fits (r : Right) (access left : UInt32) : Prop :=
  access &&& r.mask = r.mask ∧ left &&& r.mask ≠ 0

instance (r : Right) (access left : UInt32) : Decidable (r.Fits access left) :=
  inferInstanceAs (Decidable (_ ∧ _))

def Words.add (w : Words) (r : Right) : Words where
  text := Security.add w.text r.name
  left := w.left &&& ~~~r.mask

def Words.typeTurn (access : UInt32) (w : Words) (r : Right) : Words :=
  if r.Fits access w.left then w.add r else w

def Words.standardTurn (w : Words) (r : Right) : Words :=
  if w.left &&& r.mask = r.mask then w.add r else w

def hexText (left : UInt32) : WString := wide "0x" ++ hex left.toUInt64

/-- The rights of a type, the standard rights and the rest. -/
def words (rights : List Right) (access : UInt32) : WString :=
  let w := rights.foldl (Words.typeTurn access) { left := access }
  let w := standard.foldl Words.standardTurn w
  if w.left ≠ 0 then add w.text (hexText w.left) else w.text

/-- `Decode` for a type without a table. -/
def decodeOther (access : UInt32) : WString := if access = 0 then [] else words [] access

def decode (type : WString) (access : UInt32) : WString :=
  if access = 0 then []
  else
    match types.find? fun t => t.type = type with
    | none => decodeOther access
    | some t =>
      if access &&& t.allAccess = t.allAccess then
        if access = t.allAccess then wide "ALL_ACCESS"
        else wide "ALL_ACCESS | " ++ decodeOther (access &&& ~~~t.allAccess)
      else words t.rights access

example : decode (wide "Key") 0x20019 = wide "READ" := by decide +kernel

end WinSys.Security
