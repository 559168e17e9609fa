import WinSys.Infra.Run
import WinSys.Infra.Sweep
import WinSys.Infra.Tally
import WinSys.Registry.Event
import Mathlib.Data.Finset.Basic

/-!
# The table of registry operations

`RegistryIoTable`: the counting and naming of registry operations, apart from the session. An
open names its key object; an operation on a key object without a name waits in `deferred` until
the resolver names it or gives up on it, or, when the key object's own open waits, until that
open is counted (a token stands for it).

The fields `counted` (of a row and of the table), `noted` and `taken` are history variables: they
record what has been done and no function reads them.
-/

namespace WinSys.Registry

open Infra

/-! ## the state -/

/-- History: a call of `Count`. -/
structure Counted where
  event : RegistryEvent
  name : WString
  pid : UInt32
  time : ℤ
  tick : UInt64
deriving DecidableEq, Repr

structure RegistryIoCounters where
  pid : UInt32 := 0
  key : WString := []
  object : UInt64 := 0
  unnamed : RegistryUnnamed := .none
  opens : ℕ := 0
  reads : ℕ := 0
  writes : ℕ := 0
  failures : ℕ := 0
  lastOperation : RegistryOperation := .none
  lastStatus : UInt32 := 0
  lastValue : WString := []
  firstSeen : ℤ := 0
  lastSeen : ℤ := 0
deriving DecidableEq, Repr

structure RowId where
  pid : UInt32
  /-- The name upper-cased, or `#<object>` for an unnamed key object. -/
  key : WString
deriving DecidableEq, Repr

structure Row where
  counters : RegistryIoCounters := {}
  lastTick : UInt64 := 0
  /-- History: what was counted into the row, the latest first. -/
  counted : List Counted := []
deriving DecidableEq, Repr

structure Name where
  text : WString
  tick : UInt64
  /-- History: the ticks the name was set and used at, the latest first. -/
  noted : List UInt64
deriving DecidableEq, Repr

structure Deferred where
  event : RegistryEvent
  pid : UInt32
  time : ℤ
  tick : UInt64
  /-- What it waits on: its key object, its base, or the token of a waiting open. -/
  waiting : UInt64
  /-- An open that waits: what its key object's operations wait on meanwhile; else 0. -/
  token : UInt64
deriving DecidableEq, Repr

/-- The resolver's failed passes. -/
structure Attempts where
  count : ℕ := 0
  why : RegistryUnnamed := .none
deriving DecidableEq, Repr

def maxAttempts : ℕ := 3

def maxDeferred : ℕ := 100000

def keyIdle : UInt64 := 60000

def nameIdle : UInt64 := 120000

def tokenBase : UInt64 := 0x7FFF000000000000

def isToken (value : UInt64) : Bool := tokenBase ≤ value && value < 0x8000000000000000

structure RegistryIoTable where
  rows : Finmap fun _ : RowId => Row := ∅
  names : Finmap fun _ : UInt64 => Name := ∅
  deferred : List Deferred := []
  /-- What operations wait on, and how many. -/
  waiting : Finmap fun _ : UInt64 => ℤ := ∅
  /-- Of those, the key objects not given to the resolver yet. -/
  unnamed : Finset UInt64 := ∅
  attempts : Finmap fun _ : UInt64 => Attempts := ∅
  /-- Key objects whose open waits, to its token. -/
  pendingOpens : Finmap fun _ : UInt64 => UInt64 := ∅
  nextToken : UInt64 := tokenBase
  /-- History: the calls of `Count`, the latest first. -/
  counted : List Counted := []
  /-- History: what `TakeUnnamed` returned since `ApplyDeferred` last ran. -/
  taken : Finset UInt64 := ∅

/-! ## counting -/

/-- The part of `Count` that fills a new row's identity. -/
def RegistryIoCounters.identify (c : RegistryIoCounters) (pid : UInt32) (key : WString)
    (object : UInt64) (unnamed : RegistryUnnamed) (time : ℤ) : RegistryIoCounters :=
  if c.firstSeen = 0 then
    { c with pid := pid, key := key, object := object, unnamed := unnamed, firstSeen := time }
  else c

/-- `Opens`, `Reads`, `Writes` and `Failures` of one operation. -/
structure Tallies where
  opens : ℕ := 0
  reads : ℕ := 0
  writes : ℕ := 0
  failures : ℕ := 0
deriving DecidableEq, Repr

/-- What an operation adds to its row's counters. -/
def RegistryEvent.tallies (e : RegistryEvent) : Tallies :=
  let failures := if isFailure e.status then 1 else 0
  match e.operation with
  | .createKey =>
    { opens := 1, writes := if e.disposition = regCreatedNewKey then 1 else 0, failures }
  | .openKey => { opens := 1, failures }
  | .queryKey | .queryValue | .enumerateKey | .enumerateValue | .queryMultipleValues
  | .querySecurity => { reads := 1, failures }
  | _ => { writes := 1, failures }

def RegistryEvent.hasValue (e : RegistryEvent) : Bool :=
  e.operation = .queryValue || e.operation = .setValue || e.operation = .deleteValue

/-- The part of `Count` that adds an operation to a row's counters. -/
def RegistryIoCounters.add (c : RegistryIoCounters) (e : RegistryEvent) (time : ℤ) :
    RegistryIoCounters :=
  { c with
    lastSeen := time
    lastOperation := e.operation
    lastStatus := e.status
    opens := c.opens + e.tallies.opens
    reads := c.reads + e.tallies.reads
    writes := c.writes + e.tallies.writes
    failures := c.failures + e.tallies.failures
    lastValue := if e.hasValue then e.valueName else c.lastValue }

/-- The row an event counts into under a name (empty: under its key object). -/
def Env.rowId (env : Env) (e : RegistryEvent) (name : WString) (pid : UInt32) : RowId :=
  ⟨pid, if name = [] then objectText e.keyObject else env.upper name⟩

/-- Whether a counted open names its key object. -/
def RegistryEvent.names (e : RegistryEvent) (name : WString) (nameObject : Bool) : Bool :=
  e.isOpen && nameObject && e.keyObject ≠ 0 && name ≠ [] && !isFailure e.status

namespace RegistryIoTable

variable (env : Env) (t : RegistryIoTable)

def whyUnnamed (object : UInt64) : RegistryUnnamed :=
  match t.attempts.lookup object with
  | none => .none
  | some a => a.why

def gaveUp (object : UInt64) : Bool :=
  object = 0 || match t.attempts.lookup object with
    | none => false
    | some a => a.count ≥ maxAttempts

/-- The name of a key opened relative to a key object that couldn't be named. -/
def unnamedBase (base : UInt64) (relative : WString) : WString :=
  unnamedName base (t.whyUnnamed base) ++ [backslash] ++ relative

/-- The row of an event's count, after it. -/
def countedRow (e : RegistryEvent) (name : WString) (pid : UInt32) (time : ℤ) (tick : UInt64) :
    Row :=
  let object := if name = [] then e.keyObject else 0
  let row := (t.rows.lookup (env.rowId e name pid)).getD {}
  let unnamed := if object ≠ 0 then t.whyUnnamed object else .none
  { counters := (row.counters.identify pid name object unnamed time).add e time
    lastTick := tick
    counted := ⟨e, name, pid, time, tick⟩ :: row.counted }

/-- The name an open or create gives its key; nothing while its base isn't known. -/
def openName (e : RegistryEvent) : Option WString :=
  if e.name.head? = some backslash then some (env.registryName e.name)
  else match t.names.lookup e.baseObject with
    | none => none
    | some n => some (if e.name = [] then n.text else n.text ++ [backslash] ++ e.name)

/-- Whether an open counted under a name takes it from its base's. -/
def usesBase (e : RegistryEvent) (name : WString) : Bool :=
  e.isOpen && e.name.head? ≠ some backslash && t.openName env e = some name

/-- History: the names after an open is counted that takes its base's; that name's tick stays. -/
def noteBase (e : RegistryEvent) (name : WString) (tick : UInt64) : Finmap fun _ : UInt64 => Name :=
  match t.names.lookup e.baseObject with
  | some n =>
    if t.usesBase env e name then
      t.names.insert e.baseObject { n with noted := tick :: n.noted }
    else t.names
  | none => t.names

/-- Counts an event under the key's name (empty: under the key object, unnamed). -/
def count (e : RegistryEvent) (name : WString) (pid : UInt32) (time : ℤ) (tick : UInt64)
    (nameObject : Bool) : RegistryIoTable :=
  { t with
    rows := t.rows.insert (env.rowId e name pid) (t.countedRow env e name pid time tick)
    names :=
      if e.names name nameObject then
        (t.noteBase env e name tick).insert e.keyObject ⟨name, tick, [tick]⟩
      else t.noteBase env e name tick
    counted := ⟨e, name, pid, time, tick⟩ :: t.counted }

/-! ## names -/

/-- An open counted under `name`: its token, if it waited, is named too. -/
def nameToken (d : Deferred) (name : WString) (tick : UInt64) : RegistryIoTable :=
  if d.token = 0 then t
  else { t with
    names := t.names.insert d.token ⟨name, tick, [tick]⟩
    pendingOpens := if t.pendingOpens.lookup d.event.keyObject = some d.token
      then t.pendingOpens.erase d.event.keyObject else t.pendingOpens }

/-- The name of `object` is used by an operation of tick `used`; its tick becomes `tick`. -/
def useName (object : UInt64) (n : Name) (tick used : UInt64) : RegistryIoTable :=
  { t with names := t.names.insert object { n with tick := tick, noted := used :: n.noted } }

/-! ## waiting -/

def defer (e : RegistryEvent) (pid : UInt32) (time : ℤ) (tick : UInt64) (waiting token : UInt64) :
    RegistryIoTable :=
  if t.deferred.length ≥ maxDeferred then
    -- too many waiting: counted at once, unnamed (on an open's token: under that name)
    if e.isOpen then
      let name := t.unnamedBase waiting e.name
      (t.count env e name pid time tick true).nameToken ⟨e, pid, time, tick, waiting, token⟩
        name tick
    else match t.names.lookup waiting with
      | some n => t.count env e (if isToken waiting then n.text else []) pid time tick true
      | none => t.count env e [] pid time tick true
  else { t with
    waiting := t.waiting.bump waiting
    unnamed := if (t.waiting.lookup waiting).getD 0 = 0 && !isToken waiting
      then insert waiting t.unnamed else t.unnamed
    deferred := t.deferred ++ [⟨e, pid, time, tick, waiting, token⟩] }

/-- What `Retarget` moves: what waits on `object` and was stamped from `stamp` on. -/
def retargets (object : UInt64) (stamp : ℤ) (d : Deferred) : Bool :=
  d.waiting = object && stamp ≤ d.event.stamp

/-- What waits on a key object from `stamp` on waits on the open's token instead. -/
def retarget (object : UInt64) (stamp : ℤ) (token : UInt64) : RegistryIoTable :=
  match t.waiting.lookup object with
  | none => t
  | some _ => { t with
    deferred := t.deferred.map fun d =>
      if retargets object stamp d then { d with waiting := token } else d
    waiting := (t.deferred.foldl (fun w d =>
      if retargets object stamp d then (w.bump token).decrement object else w)
        t.waiting).eraseZero object }

/-- What `FlushWaiting` counts: what waits on `object` and was stamped before `stamp`. -/
def flushes (object : UInt64) (stamp : ℤ) (d : Deferred) : Bool :=
  d.waiting = object && d.event.stamp < stamp

/-- `FlushWaiting` counts one waiting operation, under the object it waited on. -/
def flushOne (object : UInt64) (d : Deferred) : RegistryIoTable :=
  let t := t.count env d.event
    (if d.event.isOpen then t.unnamedBase object d.event.name else []) d.pid d.time d.tick true
  { t with waiting := t.waiting.decrement object }

/-- `FlushWaiting`'s loop: the table after its counts, and the operations it keeps. -/
def flushSweep (object : UInt64) (stamp : ℤ) : RegistryIoTable × List Deferred :=
  sweep (fun _ d => flushes object stamp d) (fun t d => t.flushOne env object d)
    { t with attempts := t.attempts.insert object ⟨maxAttempts, .closed⟩ } t.deferred

/-- A key object opened at `stamp`: what waits on it from before was another key's. -/
def flushWaiting (object : UInt64) (stamp : ℤ) : RegistryIoTable :=
  match t.waiting.lookup object with
  | none => t
  | some _ =>
    let r := t.flushSweep env object stamp
    { r.1 with waiting := r.1.waiting.eraseZero object, deferred := r.2 }

/-! ## events -/

/-- A new key object at an address: nothing known of the address is about it. -/
def newKeyObject (object : UInt64) (stamp : ℤ) : RegistryIoTable :=
  if object = 0 then t
  else
    let t := t.flushWaiting env object stamp
    { t with
      attempts := t.attempts.erase object
      pendingOpens := t.pendingOpens.erase object }

/-- The address of an open that waits loses the name it may still have of a closed key, and gets
the next token as its pending open. -/
def pend (object : UInt64) : RegistryIoTable :=
  { t with
    names := t.names.erase object
    nextToken := t.nextToken + 1
    pendingOpens := t.pendingOpens.insert object t.nextToken }

/-- An open that has to wait for its base: its key object's operations wait for its token. -/
def deferOpen (e : RegistryEvent) (pid : UInt32) (time : ℤ) (tick : UInt64) : RegistryIoTable :=
  if e.keyObject ≠ 0 && !isFailure e.status then
    ((t.pend e.keyObject).retarget e.keyObject e.stamp t.nextToken).defer env e pid time tick
      e.baseObject t.nextToken
  else t.defer env e pid time tick e.baseObject 0

def onOpen (e : RegistryEvent) (pid : UInt32) (time : ℤ) (tick : UInt64) : RegistryIoTable :=
  let t := t.newKeyObject env e.keyObject e.stamp
  match t.openName env e with
  | some name => t.count env e name pid time tick true
  | none =>
    if t.gaveUp e.baseObject then
      t.count env e (t.unnamedBase e.baseObject e.name) pid time tick true
    else t.deferOpen env e pid time tick

def onOperation (e : RegistryEvent) (pid : UInt32) (time : ℤ) (tick : UInt64) :
    RegistryIoTable :=
  match t.names.lookup e.keyObject with
  | some n => (t.useName e.keyObject n tick tick).count env e n.text pid time tick true
  | none =>
    match t.pendingOpens.lookup e.keyObject with
    | some token => t.defer env e pid time tick token 0
    | none =>
      if t.gaveUp e.keyObject then t.count env e [] pid time tick true
      else t.defer env e pid time tick e.keyObject 0

def onEvent (e : RegistryEvent) (pid : UInt32) (time : ℤ) (tick : UInt64) : RegistryIoTable :=
  if e.operation.isIgnored then t
  else if e.isOpen then
    -- the kernel retries it with the name it reparsed to
    if isRetried e.status then t else t.onOpen env e pid time tick
  else t.onOperation env e pid time tick

/-! ## the resolver -/

/-- The key objects operations wait on, for the resolver, in no particular order. -/
def takeUnnamed : Finset UInt64 × RegistryIoTable :=
  (t.unnamed, { t with unnamed := ∅, taken := t.taken ∪ t.unnamed })

def setName (object : UInt64) (name : WString) (tick : UInt64) : RegistryIoTable :=
  { t with names := t.names.insert object ⟨env.registryName name, tick, [tick]⟩ }

def nameFailed (object : UInt64) (why : RegistryUnnamed) : RegistryIoTable :=
  let attempts := (t.attempts.lookup object).getD {}
  { t with attempts := t.attempts.insert object ⟨attempts.count + 1, why⟩ }

/-- What `ApplyDeferred` counts: what was named or given up on. -/
def ready (d : Deferred) : Bool := (t.names.lookup d.waiting).isSome || t.gaveUp d.waiting

/-- `ApplyDeferred` counts an open that waited. -/
def applyOpen (d : Deferred) : RegistryIoTable :=
  let text := (t.openName env d.event).getD (t.unnamedBase d.event.baseObject d.event.name)
  -- it names its key object only if no later open took the address meanwhile
  let names := decide (t.pendingOpens.lookup d.event.keyObject = some d.token)
  (t.count env d.event text d.pid d.time d.tick names).nameToken d text d.tick

/-- `ApplyDeferred` counts an operation that waited, by what it waited on. -/
def applyOperation (d : Deferred) : RegistryIoTable :=
  match t.names.lookup d.waiting with
  | some n =>
    (t.useName d.waiting n (max n.tick d.tick) d.tick).count env d.event n.text d.pid d.time
      d.tick true
  | none => t.count env d.event [] d.pid d.time d.tick true

def applyOne (d : Deferred) : RegistryIoTable :=
  let t := { t with waiting := (t.waiting.decrement d.waiting).eraseZero d.waiting }
  if d.event.isOpen then t.applyOpen env d else t.applyOperation env d

/-- `ApplyDeferred`'s loop: the table after its counts, and the operations that wait on. -/
def applySweep : RegistryIoTable × List Deferred :=
  sweep ready (fun t d => t.applyOne env d) t t.deferred

/-- Counts the waiting operations whose key objects were named or given up on since. -/
def applyDeferred : RegistryIoTable :=
  let r := t.applySweep env
  { r.1 with
    deferred := r.2
    unnamed := r.1.unnamed ∪ r.1.waiting.keys.filter fun object => !isToken object
    taken := ∅ }

/-! ## the rest -/

def getKeys : Multiset RegistryIoCounters := t.rows.entries.map fun r => r.2.counters

def getDeferredCount : ℕ := t.deferred.length

def removeProcess (pid : UInt32) : RegistryIoTable :=
  { t with rows := t.rows.eraseIf fun id _ => id.pid = pid }

def prune (tick : UInt64) : RegistryIoTable :=
  { t with
    rows := t.rows.eraseIf fun _ r => tick - r.lastTick > keyIdle
    names := t.names.eraseIf fun _ n => tick - n.tick > nameIdle
    attempts := t.attempts.eraseIf fun object _ => object ∉ t.waiting }

def clear : RegistryIoTable :=
  { t with
    rows := ∅, names := ∅, deferred := [], waiting := ∅, unnamed := ∅, attempts := ∅,
    pendingOpens := ∅ }

end RegistryIoTable

/-! ## runs -/

/-- A call of one of the table's operations. -/
inductive Call
  | onEvent (e : RegistryEvent) (pid : UInt32) (time : ℤ) (tick : UInt64)
  | takeUnnamed
  | setName (object : UInt64) (name : WString) (tick : UInt64)
  | nameFailed (object : UInt64) (why : RegistryUnnamed)
  | applyDeferred
  | prune (tick : UInt64)
  | removeProcess (pid : UInt32)
  | clear
deriving DecidableEq, Repr

def RegistryIoTable.step (env : Env) (t : RegistryIoTable) : Call → RegistryIoTable
  | .onEvent e pid time tick => t.onEvent env e pid time tick
  | .takeUnnamed => t.takeUnnamed.2
  | .setName object name tick => t.setName env object name tick
  | .nameFailed object why => t.nameFailed object why
  | .applyDeferred => t.applyDeferred env
  | .prune tick => t.prune tick
  | .removeProcess pid => t.removeProcess pid
  | .clear => t.clear

/-- The table after a run from the start. -/
abbrev RegistryIoTable.after (env : Env) (calls : List Call) : RegistryIoTable :=
  run (RegistryIoTable.step env) {} calls

end WinSys.Registry
