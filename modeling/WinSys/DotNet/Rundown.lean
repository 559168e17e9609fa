import WinSys.Infra.Payload
import WinSys.Infra.Run

/-!
# The runtime's rundown

`DotNetInfo::ApplyRundownEvent` adds what one event says to the process's details.

* `RundownEvent`, `encode`: the events and their payloads
* `applyRundownEvent`
* `applyRundownEvent_whole`, `applyRundownEvent_cut_iff`, `complete_iff`
-/

namespace WinSys.DotNet

open Infra Reads PayloadReader

/-! ## the details -/

structure DotNetRuntime where
  clrInstanceId : UInt16
  core : Bool
  version : WString
  bclVersion : WString
  runtimePath : WString
  commandLine : WString
  startupFlags : UInt32
deriving DecidableEq, Repr

structure DotNetAppDomain where
  id : UInt64
  flags : UInt32
  index : UInt32 := 0
  name : WString
deriving DecidableEq, Repr

structure DotNetAssembly where
  id : UInt64
  appDomainId : UInt64
  flags : UInt32
  fullName : WString
deriving DecidableEq, Repr

structure DotNetModule where
  id : UInt64
  assemblyId : UInt64
  flags : UInt32
  ilPath : WString
  nativePath : WString
deriving DecidableEq, Repr

structure DotNetProcessDetails where
  runtimes : List DotNetRuntime := []
  appDomains : List DotNetAppDomain := []
  assemblies : List DotNetAssembly := []
  modules : List DotNetModule := []
  /-- Every runtime said its rundown was done. -/
  complete : Bool := false
deriving DecidableEq, Repr

/-! ## the parser -/

def dcStartComplete : UInt16 := 145
def moduleDCStart : UInt16 := 153
def assemblyDCStart : UInt16 := 155
def appDomainDCStart : UInt16 := 157
def runtimeInformationDCStart : UInt16 := 187

def versionText (major minor build qfe : UInt16) : WString :=
  decimal major.toNat ++ 0x2E :: (decimal minor.toNat ++ 0x2E :: (decimal build.toNat ++
    0x2E :: decimal qfe.toNat))

def readRuntime : PayloadReader DotNetRuntime := do
  let clrInstanceId ← uint16
  let sku ← uint16
  let v0 ← uint16
  let v1 ← uint16
  let v2 ← uint16
  let v3 ← uint16
  let v4 ← uint16
  let v5 ← uint16
  let v6 ← uint16
  let v7 ← uint16
  let startupFlags ← uint32
  let _startupMode ← get 1
  let commandLine ← string
  let _comObjectGuid ← get 16
  let runtimePath ← string
  return {
    clrInstanceId := clrInstanceId
    -- 1 is the desktop CLR
    core := sku == 2
    bclVersion := versionText v0 v1 v2 v3
    version := versionText v4 v5 v6 v7
    startupFlags := startupFlags
    commandLine := commandLine
    runtimePath := runtimePath }

/-- A field since version 1. -/
def since1 {α : Type} (version : UInt8) (m : PayloadReader α) (default : α) : PayloadReader α :=
  if version ≥ 1 then m else pure default

def readAppDomain (version : UInt8) : PayloadReader DotNetAppDomain := do
  let id ← uint64
  let flags ← uint32
  let name ← string
  let index ← since1 version uint32 0
  return { id := id, flags := flags, name := name, index := index }

def readAssembly (version : UInt8) : PayloadReader DotNetAssembly := do
  let id ← uint64
  let appDomainId ← uint64
  let _bindingId ← since1 version uint64 0
  let flags ← uint32
  let fullName ← string
  return { id := id, appDomainId := appDomainId, flags := flags, fullName := fullName }

def readModule : PayloadReader DotNetModule := do
  let id ← uint64
  let assemblyId ← uint64
  let flags ← uint32
  let _reserved1 ← uint32
  let ilPath ← string
  let nativePath ← string
  return { id := id, assemblyId := assemblyId, flags := flags, ilPath := ilPath,
           nativePath := nativePath }

/-- The details and the runtimes whose rundown is done. -/
structure Rundown where
  details : DotNetProcessDetails := {}
  completed : List UInt16 := []
deriving DecidableEq, Repr

/-- `if (r.Ok)` the value is added. -/
def addWhole {α : Type} (m : PayloadReader α) (data : Bytes) (r : Rundown)
    (add : DotNetProcessDetails → α → DotNetProcessDetails) : Reads (Bool × Rundown) := do
  match ← read m data with
  | some a => return (false, { r with details := add r.details a })
  | none => return (false, r)

/-- Done when every runtime that said it's there is. -/
def allDone (version : UInt8) (details : DotNetProcessDetails) (completed : List UInt16) : Bool :=
  version == 0 || details.runtimes.all fun rt => completed.contains rt.clrInstanceId

/-- The branch of `DCStartComplete`, which does not look at `Ok`. -/
def applyComplete (version : UInt8) (data : Bytes) (r : Rundown) : Reads (Bool × Rundown) := do
  -- version 0 has no payload: the only runtime
  let (complete, _) ← since1 version uint16 0 data {}
  let completed := r.completed ++ [complete]
  if allDone version r.details completed then
    return (true, { details := { r.details with complete := true }, completed := completed })
  else return (false, { r with completed := completed })

/-- Whether every runtime is complete, with what the event leaves. -/
def applyRundownEvent (eventId : UInt16) (version : UInt8) (data : Bytes) (r : Rundown) :
    Reads (Bool × Rundown) :=
  if eventId = runtimeInformationDCStart then
    addWhole readRuntime data r fun d rt => { d with runtimes := d.runtimes ++ [rt] }
  else if eventId = appDomainDCStart then
    addWhole (readAppDomain version) data r fun d a => { d with appDomains := d.appDomains ++ [a] }
  else if eventId = assemblyDCStart then
    addWhole (readAssembly version) data r fun d a => { d with assemblies := d.assemblies ++ [a] }
  else if eventId = moduleDCStart then
    addWhole readModule data r fun d m => { d with modules := d.modules ++ [m] }
  else if eventId = dcStartComplete then applyComplete version data r
  else pure (false, r)

/-! ## the payloads -/

structure RuntimeInformation where
  clrInstanceId : UInt16
  sku : UInt16
  bclMajor : UInt16
  bclMinor : UInt16
  bclBuild : UInt16
  bclQfe : UInt16
  vmMajor : UInt16
  vmMinor : UInt16
  vmBuild : UInt16
  vmQfe : UInt16
  startupFlags : UInt32
  startupMode : UInt8
  commandLine : WString
  comObjectGuid : Vector UInt8 16
  runtimePath : WString

inductive RundownEvent
  | runtime (i : RuntimeInformation)
  | appDomain (d : DotNetAppDomain)
  | assembly (a : DotNetAssembly) (bindingId : UInt64)
  | module (m : DotNetModule) (reserved1 : UInt32)
  | complete (clrInstanceId : UInt16)

namespace RundownEvent

def id : RundownEvent → UInt16
  | runtime _ => runtimeInformationDCStart
  | appDomain _ => appDomainDCStart
  | assembly _ _ => assemblyDCStart
  | module _ _ => moduleDCStart
  | complete _ => dcStartComplete

def NoNul : RundownEvent → Prop
  | runtime i => 0 ∉ i.commandLine ∧ 0 ∉ i.runtimePath
  | appDomain d => 0 ∉ d.name
  | assembly a _ => 0 ∉ a.fullName
  | module m _ => 0 ∉ m.ilPath ∧ 0 ∉ m.nativePath
  | complete _ => True

/-- The bytes of a field since version 1. -/
def bytesSince1 (version : UInt8) (bytes : Bytes) : Bytes := if version ≥ 1 then bytes else []

/-- The fields that are read. -/
def encode (version : UInt8) : RundownEvent → Bytes
  | runtime i => leBytes 2 i.clrInstanceId.toNat ++ (leBytes 2 i.sku.toNat ++
      (leBytes 2 i.bclMajor.toNat ++ (leBytes 2 i.bclMinor.toNat ++ (leBytes 2 i.bclBuild.toNat ++
      (leBytes 2 i.bclQfe.toNat ++ (leBytes 2 i.vmMajor.toNat ++ (leBytes 2 i.vmMinor.toNat ++
      (leBytes 2 i.vmBuild.toNat ++ (leBytes 2 i.vmQfe.toNat ++ (leBytes 4 i.startupFlags.toNat ++
      ([i.startupMode] ++ (zString i.commandLine ++ (i.comObjectGuid.toList ++
      zString i.runtimePath)))))))))))))
  | appDomain d => leBytes 8 d.id.toNat ++ (leBytes 4 d.flags.toNat ++ (zString d.name ++
      bytesSince1 version (leBytes 4 d.index.toNat)))
  | assembly a bindingId => leBytes 8 a.id.toNat ++ (leBytes 8 a.appDomainId.toNat ++
      (bytesSince1 version (leBytes 8 bindingId.toNat) ++ (leBytes 4 a.flags.toNat ++
      zString a.fullName)))
  | module m reserved1 => leBytes 8 m.id.toNat ++ (leBytes 8 m.assemblyId.toNat ++
      (leBytes 4 m.flags.toNat ++ (leBytes 4 reserved1.toNat ++ (zString m.ilPath ++
      zString m.nativePath))))
  | complete clrInstanceId => bytesSince1 version (leBytes 2 clrInstanceId.toNat)

/-- The runtime of an event. -/
def runtimeOf (i : RuntimeInformation) : DotNetRuntime where
  clrInstanceId := i.clrInstanceId
  core := i.sku == 2
  bclVersion := versionText i.bclMajor i.bclMinor i.bclBuild i.bclQfe
  version := versionText i.vmMajor i.vmMinor i.vmBuild i.vmQfe
  startupFlags := i.startupFlags
  commandLine := i.commandLine
  runtimePath := i.runtimePath

/-- The details with what the event is about. -/
def append (version : UInt8) (d : DotNetProcessDetails) : RundownEvent → DotNetProcessDetails
  | runtime i => { d with runtimes := d.runtimes ++ [runtimeOf i] }
  | appDomain a =>
    { d with appDomains := d.appDomains ++ [{ a with index := if version ≥ 1 then a.index else 0 }] }
  | assembly a _ => { d with assemblies := d.assemblies ++ [a] }
  | module m _ => { d with modules := d.modules ++ [m] }
  | complete _ => d

/-- The runtime a completion event is of; version 0 is the only runtime's. -/
def completes (version : UInt8) : RundownEvent → Option UInt16
  | complete clrInstanceId => some (if version ≥ 1 then clrInstanceId else 0)
  | _ => none

end RundownEvent

/-! ## the readers -/

section Readers

variable {α : Type} (version : UInt8)

instance {m : PayloadReader α} {a : α} [Sticky m] : Sticky (since1 version m a) :=
  inferInstanceAs (Sticky (if version ≥ 1 then m else pure a))

theorem parses_since1 {m : PayloadReader α} {bytes : Bytes} {a : α} (h : Parses m bytes a) (z : α) :
    Parses (since1 version m z) (RundownEvent.bytesSince1 version bytes)
      (if version ≥ 1 then a else z) := by
  unfold since1 RundownEvent.bytesSince1
  split
  · exact h
  · exact parses_pure z

instance : Sticky readRuntime := by
  unfold readRuntime
  infer_instance

instance : Sticky (readAppDomain version) := by
  unfold readAppDomain
  infer_instance

instance : Sticky (readAssembly version) := by
  unfold readAssembly
  infer_instance

instance : Sticky readModule := by
  unfold readModule
  infer_instance

theorem parses_readRuntime {i : RuntimeInformation} (h : RundownEvent.NoNul (.runtime i)) :
    Parses readRuntime (RundownEvent.encode version (.runtime i)) (RundownEvent.runtimeOf i) := by
  have hmode : Parses (PayloadReader.get 1) [i.startupMode] [i.startupMode] :=
    parses_get_of_length rfl
  refine (parses_uint16 _).bind ((parses_uint16 _).bind ?_)
  refine (parses_uint16 _).bind ((parses_uint16 _).bind ?_)
  refine (parses_uint16 _).bind ((parses_uint16 _).bind ?_)
  refine (parses_uint16 _).bind ((parses_uint16 _).bind ?_)
  refine (parses_uint16 _).bind ((parses_uint16 _).bind ?_)
  refine (parses_uint32 _).bind (hmode.bind ?_)
  refine (parses_string h.1).bind ((parses_get_of_length i.comObjectGuid.length_toList).bind ?_)
  exact (parses_string h.2).map _

theorem parses_readAppDomain {d : DotNetAppDomain} (h : RundownEvent.NoNul (.appDomain d)) :
    Parses (readAppDomain version) (RundownEvent.encode version (.appDomain d))
      { d with index := if version ≥ 1 then d.index else 0 } := by
  refine (parses_uint64 _).bind ((parses_uint32 _).bind ((parses_string h).bind ?_))
  exact (parses_since1 version (parses_uint32 _) 0).map _

theorem parses_readAssembly {a : DotNetAssembly} {bindingId : UInt64}
    (h : RundownEvent.NoNul (.assembly a bindingId)) :
    Parses (readAssembly version) (RundownEvent.encode version (.assembly a bindingId)) a := by
  refine (parses_uint64 _).bind ((parses_uint64 _).bind ?_)
  refine (parses_since1 version (parses_uint64 _) 0).bind ((parses_uint32 _).bind ?_)
  exact (parses_string h).map _

theorem parses_readModule {m : DotNetModule} {reserved1 : UInt32}
    (h : RundownEvent.NoNul (.module m reserved1)) :
    Parses readModule (RundownEvent.encode version (.module m reserved1)) m := by
  refine (parses_uint64 _).bind ((parses_uint64 _).bind ((parses_uint32 _).bind ?_))
  refine (parses_uint32 _).bind ((parses_string h.1).bind ?_)
  exact (parses_string h.2).map _

end Readers

/-! ## one event -/

section Event

variable {version : UInt8}

theorem addWhole_append {α : Type} {m : PayloadReader α} {bytes : Bytes} {a : α}
    (h : Parses m bytes a) (rest : Bytes) (r : Rundown)
    (add : DotNetProcessDetails → α → DotNetProcessDetails) :
    (addWhole m (bytes ++ rest) r add).value = (false, { r with details := add r.details a }) := by
  rw [addWhole, Reads.value_bind, h.read_append]
  rfl

theorem addWhole_cut {α : Type} {m : PayloadReader α} {bytes cut : Bytes} {a : α}
    (h : Parses m bytes a) (hpre : cut <+: bytes) (hne : cut ≠ bytes) (r : Rundown)
    (add : DotNetProcessDetails → α → DotNetProcessDetails) :
    (addWhole m cut r add).value = (false, r) := by
  rw [addWhole, Reads.value_bind, h.read_cut hpre hne]
  rfl

/-- A runtime that says it's done leaves the lists as they are. -/
def Rundown.done (r : Rundown) (version : UInt8) (instanceId : UInt16) : Bool × Rundown :=
  let completed := r.completed ++ [instanceId]
  let all := allDone version r.details completed
  (all, { details := { r.details with complete := r.details.complete || all }
          completed := completed })

theorem applyComplete_value (data : Bytes) (r : Rundown) :
    (applyComplete version data r).value
      = r.done version (since1 version uint16 0 data {}).value.1 := by
  rw [applyComplete, Reads.value_bind, Rundown.done]
  simp only
  split
  · next h => simp [h]
  · next h => simp [h]

/-- What an event that is whole leaves. -/
def RundownEvent.apply (version : UInt8) (ev : RundownEvent) (r : Rundown) : Bool × Rundown :=
  match ev.completes version with
  | some instanceId => r.done version instanceId
  | none => (false, { r with details := ev.append version r.details })

/-- The branch of each event. -/
def RundownEvent.branch (version : UInt8) (data : Bytes) (r : Rundown) :
    RundownEvent → Reads (Bool × Rundown)
  | runtime _ => addWhole readRuntime data r fun d rt => { d with runtimes := d.runtimes ++ [rt] }
  | appDomain _ =>
    addWhole (readAppDomain version) data r fun d a => { d with appDomains := d.appDomains ++ [a] }
  | assembly _ _ =>
    addWhole (readAssembly version) data r fun d a => { d with assemblies := d.assemblies ++ [a] }
  | module _ _ => addWhole readModule data r fun d m => { d with modules := d.modules ++ [m] }
  | complete _ => applyComplete version data r

theorem applyRundownEvent_id (ev : RundownEvent) (data : Bytes) (r : Rundown) :
    applyRundownEvent ev.id version data r = ev.branch version data r := by
  cases ev <;>
    simp [applyRundownEvent, RundownEvent.id, RundownEvent.branch, runtimeInformationDCStart,
      appDomainDCStart, assemblyDCStart, moduleDCStart, dcStartComplete]

theorem applyRundownEvent_whole {ev : RundownEvent} (h : ev.NoNul) (rest : Bytes) (r : Rundown) :
    (applyRundownEvent ev.id version (ev.encode version ++ rest) r).value = ev.apply version r := by
  rw [applyRundownEvent_id]
  cases ev with
  | runtime i =>
    rw [RundownEvent.branch, addWhole_append (parses_readRuntime version h)]
    rfl
  | appDomain d =>
    rw [RundownEvent.branch, addWhole_append (parses_readAppDomain version h)]
    rfl
  | assembly a bindingId =>
    rw [RundownEvent.branch, addWhole_append (parses_readAssembly version h)]
    rfl
  | module m reserved1 =>
    rw [RundownEvent.branch, addWhole_append (parses_readModule version h)]
    rfl
  | complete i =>
    refine (applyComplete_value _ r).trans ?_
    have hread := (parses_since1 version (parses_uint16 i) 0).whole _ {} rest rfl rfl
    exact congrArg _ (congrArg Prod.fst hread)

/-- A completion event that is cut completes a runtime all the same. -/
theorem applyRundownEvent_cut_iff {ev : RundownEvent} (h : ev.NoNul) {cut : Bytes}
    (hpre : cut <+: ev.encode version) (hne : cut ≠ ev.encode version) (r : Rundown) :
    (applyRundownEvent ev.id version cut r).value = (false, r) ↔ ev.completes version = none := by
  rw [applyRundownEvent_id]
  cases ev with
  | runtime i =>
    rw [RundownEvent.branch, addWhole_cut (parses_readRuntime version h) hpre hne]
    exact iff_of_true rfl rfl
  | appDomain d =>
    rw [RundownEvent.branch, addWhole_cut (parses_readAppDomain version h) hpre hne]
    exact iff_of_true rfl rfl
  | assembly a bindingId =>
    rw [RundownEvent.branch, addWhole_cut (parses_readAssembly version h) hpre hne]
    exact iff_of_true rfl rfl
  | module m reserved1 =>
    rw [RundownEvent.branch, addWhole_cut (parses_readModule version h) hpre hne]
    exact iff_of_true rfl rfl
  | complete i =>
    refine iff_of_false (fun heq => ?_) nofun
    have hcompleted := congrArg (fun p => p.2.completed.length)
      ((applyComplete_value _ r).symm.trans heq)
    simp [Rundown.done] at hcompleted

end Event

/-! ## runs of events -/

structure Received where
  eventId : UInt16
  version : UInt8
  data : Bytes
deriving DecidableEq, Repr

namespace Received

/-- The runtime whose completion the event is. -/
def completes (e : Received) : Option UInt16 :=
  if e.eventId = dcStartComplete then some (if e.version ≥ 1 then u16 e.data else 0) else none

/-- A completion event has its field. -/
def WholeCompletion (e : Received) : Prop :=
  e.eventId = dcStartComplete → e.version ≥ 1 → 2 ≤ e.data.length

instance (e : Received) : Decidable e.WholeCompletion :=
  inferInstanceAs (Decidable (_ → _ → _))

def apply (e : Received) (r : Rundown) : Bool × Rundown :=
  (applyRundownEvent e.eventId e.version e.data r).value

theorem since1_uint16 {version : UInt8} {data : Bytes} (h : version ≥ 1 → 2 ≤ data.length) :
    (since1 version uint16 0 data {}).value.1 = if version ≥ 1 then u16 data else 0 := by
  unfold since1
  split
  · next hv =>
    have hlength : (data.take 2).length = 2 := List.length_take_of_le (h hv)
    have hread := ((parses_get_of_length hlength).map u16).whole data {} (data.drop 2) rfl
      (List.take_append_drop 2 data).symm
    refine (congrArg Prod.fst hread).trans ?_
    rw [u16, u16, List.take_take, Nat.min_self]
  · rfl

theorem apply_complete {e : Received} {i : UInt16} (hwhole : e.WholeCompletion)
    (h : e.completes = some i) (r : Rundown) : e.apply r = r.done e.version i := by
  unfold completes at h
  split at h
  · next hid =>
    rw [apply, hid]
    refine (applyComplete_value _ r).trans ?_
    rw [since1_uint16 (hwhole hid), Option.some_inj.mp h]
  · cases h

theorem addWhole_completed {α : Type} (m : PayloadReader α) (data : Bytes) (r : Rundown)
    (add : DotNetProcessDetails → α → DotNetProcessDetails) :
    (addWhole m data r add).value.2.completed = r.completed := by
  rw [addWhole, Reads.value_bind]
  cases (read m data).value with
  | none => rfl
  | some a => rfl

theorem completed_apply_of_none {e : Received} (h : e.completes = none) (r : Rundown) :
    (e.apply r).2.completed = r.completed := by
  unfold apply applyRundownEvent
  split
  · exact addWhole_completed ..
  · split
    · exact addWhole_completed ..
    · split
      · exact addWhole_completed ..
      · split
        · exact addWhole_completed ..
        · rw [if_neg fun hid => by simp [completes, hid] at h]
          rfl

/-- The runtimes that are done are those whose completion came. -/
theorem completed_run {es : List Received} (h : ∀ e ∈ es, e.WholeCompletion) (r : Rundown) :
    (run (fun r e => (apply e r).2) r es).completed = r.completed ++ es.filterMap completes := by
  induction es generalizing r with
  | nil => simp
  | cons e es ih =>
    rw [run_cons, ih fun x hx => h x (List.mem_cons_of_mem e hx), List.filterMap_cons]
    cases hc : e.completes with
    | none => rw [completed_apply_of_none hc]
    | some i =>
      rw [apply_complete (h e List.mem_cons_self) hc, Rundown.done]
      simp

/-- A completion event is the last just if every runtime that said it's there is done. -/
theorem complete_iff {es : List Received} {e : Received}
    (h : ∀ x ∈ es ++ [e], x.WholeCompletion) (hid : e.eventId = dcStartComplete) {r : Rundown}
    (hr : r = run (fun r x => (apply x r).2) {} es) :
    ((e.apply r).1 = true ↔ e.version = 0 ∨
      ∀ rt ∈ r.details.runtimes, ∃ x ∈ es ++ [e], x.completes = some rt.clrInstanceId) ∧
    (e.apply r).2.details.complete = (r.details.complete || (e.apply r).1) := by
  have hc : e.completes = some (if e.version ≥ 1 then u16 e.data else 0) := if_pos hid
  have hcompleted : r.completed = es.filterMap completes := by
    rw [hr, completed_run fun x hx => h x (List.mem_append_left _ hx)]
    rfl
  have hmem (n : UInt16) : (r.completed ++ [if e.version ≥ 1 then u16 e.data else 0]).contains n = true
      ↔ ∃ x ∈ es ++ [e], x.completes = some n := by
    have hlast : [e].filterMap completes = [if e.version ≥ 1 then u16 e.data else 0] := by
      rw [List.filterMap_cons, hc]
      rfl
    rw [hcompleted, ← hlast, ← List.filterMap_append, List.contains_iff_mem, List.mem_filterMap]
  rw [apply_complete (h e (by simp)) hc, Rundown.done, allDone]
  refine ⟨?_, rfl⟩
  simp only [Bool.or_eq_true, beq_iff_eq, List.all_eq_true, hmem]

end Received

/-! ## whole events -/

/-- A whole event adds exactly what it says. A cut one adds nothing just if it is no completion
event. In a run whose completion events have their field, one of them ends the rundown just if
every runtime is done. -/
theorem applies_whole_events (version : UInt8) :
    (∀ (ev : RundownEvent) (rest : Bytes) (r : Rundown), ev.NoNul →
      (applyRundownEvent ev.id version (ev.encode version ++ rest) r).value = ev.apply version r) ∧
    (∀ (ev : RundownEvent) (cut : Bytes) (r : Rundown), ev.NoNul →
      cut <+: ev.encode version → cut ≠ ev.encode version →
      ((applyRundownEvent ev.id version cut r).value = (false, r) ↔ ev.completes version = none)) ∧
    (∀ (es : List Received) (e : Received), (∀ x ∈ es ++ [e], x.WholeCompletion) →
      e.eventId = dcStartComplete → ∀ r, r = run (fun r x => (Received.apply x r).2) {} es →
      ((e.apply r).1 = true ↔ e.version = 0 ∨
        ∀ rt ∈ r.details.runtimes, ∃ x ∈ es ++ [e], x.completes = some rt.clrInstanceId) ∧
      (e.apply r).2.details.complete = (r.details.complete || (e.apply r).1)) :=
  ⟨fun _ rest r h => applyRundownEvent_whole h rest r,
    fun _ _ r h hpre hne => applyRundownEvent_cut_iff h hpre hne r,
    fun _ _ h hid _ hr => Received.complete_iff h hid hr⟩

/-- A completion event without its field ends the rundown. -/
theorem cut_completion_completes :
    [] <+: (RundownEvent.complete 5).encode 1 ∧ [] ≠ (RundownEvent.complete 5).encode 1 ∧
    (applyRundownEvent dcStartComplete 1 [] {}).value
      = (true, { details := { complete := true }, completed := [0] }) := by
  decide

end WinSys.DotNet
