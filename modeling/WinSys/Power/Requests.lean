import WinSys.Infra.Loads

/-!
# Power requests

`ParseRequestList` and `ParseWakeTimers` read the lists that `NtPowerInformation` gives: a table of
offsets to the requests, and wake timers that are linked by offsets. The strings of an entry are at
offsets from its diagnostic buffer, or from its reason.
-/

namespace WinSys.PowerRequests

open Infra Loads

/-! ## what is listed -/

inductive PowerRequester where
  | driver
  | process
  | service
deriving DecidableEq, Repr

structure PowerRequestSource where
  kind : PowerRequester := .driver
  name : WString := []
  devicePath : WString := []
  processId : UInt32 := 0
  serviceName : WString := []
  reason : WString := []
deriving DecidableEq, Repr

structure PowerRequest where
  source : PowerRequestSource
  counts : List UInt32
deriving DecidableEq, Repr

def PowerRequest.isActive (counts : List UInt32) : Bool := counts.any (· > 0)

structure WakeTimer where
  source : PowerRequestSource
  dueTime : UInt64
  periodMs : UInt32
deriving DecidableEq, Repr

/-- What the system answers: a device's drive, a service's tag, a module's string. -/
structure Answers where
  convert : WString → WString
  serviceFromTag : UInt32 → UInt32 → WString
  resourceString : WString → UInt16 → List WString → WString

/-! ## the layouts -/

def sizeOfRequestV4 : ℕ := 72

/-- The request's mask and counts come first. -/
def offsetOfDiag : ℕ := 32

def sizeOfReason : ℕ := 32

def sizeOfWakeTimerInfo : ℕ := 64

def offsetOfTimerDiag : ℕ := 24

def powerRequestContextSimpleString : UInt32 := 1

def powerRequestContextDetailedString : UInt32 := 2

/-! ## strings -/

section Strings

variable (m : Memory)

/-- The characters between two pointers: their difference is signed. -/
def stringMax (start stop : ℕ) : ℕ :=
  if stop - start < 2 ^ 63 then (stop - start) / 2
  else wrap (2 ^ 64 - (2 ^ 64 - (stop - start)) / 2)

/-- `StringAt` -/
def stringAt (base offset stop : ℕ) : Loads WString :=
  if offset = 0 ∨ wrap (base + offset) ≥ stop then pure []
  else
    let start := wrap (base + offset)
    wideString m start (stringMax start stop) stop

/-- The substitution strings, one after the other. -/
def substitutions (base stop : ℕ) : ℕ → ℕ → Loads (List WString)
  | 0, _ => pure []
  | turns + 1, offset =>
    if offset = 0 then pure []
    else do
      let s ← stringAt m base offset stop
      return s :: (← substitutions base stop turns (wrap (offset + (s.length + 1) * 2)))

/-- The text of a detailed reason: the module's string, else the module and the ID. -/
def detailedText (answers : Answers) (module' : WString) (id : UInt16) (args : List WString) :
    WString :=
  let text := answers.resourceString module' id args
  if text = [] ∧ module' ≠ [] then module' ++ wide " #" ++ decimal id.toNat else text

/-- `ReasonText`. `Reason`: the flags at 0; a simple string's offset, or a module's, at 8, the string's
ID at 16, the count of the substitution strings at 20 and their offset at 24. -/
def reasonText (answers : Answers) (diagBase offset stop : ℕ) : Loads WString :=
  if offset = 0 ∨ wrap (diagBase + offset + sizeOfReason) > stop then pure []
  else do
    let reasonBase := wrap (diagBase + offset)
    let reason ← record m reasonBase sizeOfReason stop
    if u32At reason 0 &&& powerRequestContextSimpleString ≠ 0 then
      stringAt m reasonBase (u64At reason 8).toNat stop
    else if u32At reason 0 &&& powerRequestContextDetailedString ≠ 0 then
      let module' ← stringAt m reasonBase (u64At reason 8).toNat stop
      let args ← substitutions m reasonBase stop (min (u32At reason 20).toNat 16)
        (u64At reason 24).toNat
      return detailedText answers module' (u16At reason 16) args
    else return []

/-- A driver's description and path. -/
def driverSource (diagBase : ℕ) (diag : Bytes) (stop : ℕ) : Loads PowerRequestSource := do
  let name ← stringAt m diagBase (u64At diag 16).toNat stop
  let devicePath ← stringAt m diagBase (u64At diag 24).toNat stop
  return { kind := .driver, name := name, devicePath := devicePath }

/-- A process's or a service's image, by its DOS path when it has one. -/
def processSource (answers : Answers) (diagBase : ℕ) (diag : Bytes) (stop : ℕ) :
    Loads PowerRequestSource := do
  let name ← stringAt m diagBase (u64At diag 16).toNat stop
  let dos := answers.convert name
  let service := u32At diag 8 = 2
  return {
    kind := if service then .service else .process
    name := if (wide "\\Device\\").isPrefixOf name ∧ dos ≠ [] then dos else name
    processId := u32At diag 24
    serviceName := if service then answers.serviceFromTag (u32At diag 24) (u32At diag 28) else [] }

/-- `ReadSource`. `Diagnostic`: the caller's type at 8, the image's name or the device's description
at 16, the process's ID and its service's tag, or the device's path, at 24, the reason at 32. -/
def readSource (answers : Answers) (diagBase : ℕ) (diag : Bytes) (stop : ℕ) :
    Loads PowerRequestSource := do
  let source ←
    if u32At diag 8 = 0 then driverSource m diagBase diag stop
    else processSource m answers diagBase diag stop
  let reason ← reasonText m answers diagBase (u64At diag 32).toNat stop
  return { source with reason := reason }

end Strings

/-! ## the lists -/

section Lists

variable (answers : Answers) (m : Memory) (base size : ℕ)

/-- `offsets[i]`, after the count. -/
def offsetAt (i : ℕ) : Loads ℕ := do
  let bytes ← record m (wrap (base + 8 + 8 * i)) 8 (wrap (base + size))
  return (u64At bytes 0).toNat

/-- An entry's strings stay before the next entry. -/
def entryEnd (count i offset : ℕ) : Loads ℕ :=
  if i + 1 < count then do
    let next ← offsetAt m base size (i + 1)
    return if next > offset ∧ next ≤ size then wrap (base + next) else wrap (base + size)
  else pure (wrap (base + size))

/-- The request of an index, if it is in the buffer and wanted. -/
def parseRequest (count : ℕ) (activeOnly : Bool) (i : ℕ) : Loads (Option PowerRequest) := do
  let offset ← offsetAt m base size i
  if offset > size ∨ size - offset < sizeOfRequestV4 then return none
  let raw ← record m (wrap (base + offset)) sizeOfRequestV4 (wrap (base + size))
  let stop ← entryEnd m base size count i offset
  let counts := (List.range 6).map fun t => u32At raw (4 + 4 * t)
  if activeOnly ∧ !PowerRequest.isActive counts then return none
  let source ← readSource m answers (wrap (base + offset + offsetOfDiag)) (raw.drop offsetOfDiag) stop
  return some { source := source, counts := counts }

def parseRequestList (activeOnly : Bool) : Loads (List PowerRequest) :=
  if size < 8 then pure []
  else do
    let bytes ← record m base 8 (wrap (base + size))
    let count := (u64At bytes 0).toNat
    -- the offsets must fit
    if count > size / 8 - 1 then return []
    collect (parseRequest answers m base size count activeOnly) count 0

/-- The timer of an entry. An empty list is one entry with nothing in it. -/
def parseTimer (now : UInt64) (p : ℕ) (raw : Bytes) (stop : ℕ) : Loads (Option WakeTimer) :=
  if u64At raw offsetOfTimerDiag ≠ 0 then do
    let source ← readSource m answers (wrap (p + offsetOfTimerDiag)) (raw.drop offsetOfTimerDiag) stop
    return some { source := source, dueTime := now + u64At raw 8, periodMs := u32At raw 16 }
  else pure none

/-- The timers from a place in the buffer on. `WakeTimerInfo`: the offset to the next at 0, the time
left at 8, the period at 16, the diagnostic buffer at 24. -/
def parseTimers (now : UInt64) (offset : ℕ) : Loads (List WakeTimer) :=
  if size - offset < sizeOfWakeTimerInfo then pure []
  else do
    let p := wrap (base + offset)
    let raw ← record m p sizeOfWakeTimerInfo (wrap (base + size))
    let next := (u64At raw 0).toNat
    let linked := next ≠ 0 ∧ next ≤ size - offset
    let timer ← parseTimer answers m now p raw (if linked then wrap (p + next) else wrap (base + size))
    if _h : linked then return timer.toList ++ (← parseTimers now (offset + next))
    else return timer.toList
termination_by size - offset
decreasing_by
  unfold sizeOfWakeTimerInfo at *
  omega

def parseWakeTimers (now : UInt64) : Loads (List WakeTimer) :=
  parseTimers answers m base size now 0

end Lists

end WinSys.PowerRequests
