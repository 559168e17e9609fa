import WinSys.Infra.Wide
import Mathlib.Logic.Function.Basic

/-!
# Object names with a time-out

`ObjectNameQuery::GetName` queries a handle's name on a worker thread, as the query may hang. A
worker that does not answer in time is left, and the next call starts another. The two sides share
two auto-reset events, two flags, the handle and the name, and no lock: what runs between two of
these is one step here.

* `Worker`: a worker's loop
* `ObjectNameQuery`: the caller's side, with all workers ever started
-/

namespace WinSys.Handles

open Infra

/-! ## a worker -/

/-- What `NtQueryObject` gives. -/
inductive QueryResult
  /-- The buffer is too small. -/
  | mismatch (needed : UInt32)
  | failed
  /-- An object without a name has no buffer. -/
  | success (name : Option WString)
deriving DecidableEq, Repr

/-- The name a query produces. -/
def QueryResult.text : QueryResult → WString
  | .success name => name.getD []
  | _ => []

/-- The buffer is large enough, whatever it was. -/
def QueryResult.final : QueryResult → Bool
  | .mismatch _ => false
  | _ => true

/-- The next thing a worker does. -/
inductive WorkerAt
  | waits
  | readsExit
  | clears
  | queries
  | assigns (name : WString)
  | readsAbandoned
  | signals
  | exited
deriving DecidableEq, Repr

structure Worker where
  /-- The events. -/
  request : Bool := false
  done : Bool := false
  target : UInt64 := 0
  name : WString := []
  abandoned : Bool := false
  exit : Bool := false
  /-- The buffer's. -/
  size : UInt32 := 0
  pc : WorkerAt := .waits
deriving DecidableEq, Repr

namespace Worker

variable (w : Worker)

/-- A query's result in a buffer of a size. -/
def query (size : UInt32) : QueryResult → Worker
  | .mismatch needed =>
    -- the query is repeated with a larger buffer
    if needed > size then { w with size := needed + 64 }
    else { w with size := size, pc := .readsAbandoned }
  | .failed | .success none => { w with size := size, pc := .readsAbandoned }
  | .success (some name) => { w with size := size, pc := .assigns name }

/-- A step of `Run`; `result` is what a query that returns gives. -/
def step (result : QueryResult) : Worker :=
  match w.pc with
  | .waits => if w.request then { w with request := false, pc := .readsExit } else w
  | .readsExit => { w with pc := if w.exit then .exited else .clears }
  | .clears => { w with name := [], pc := .queries }
  | .queries => w.query (if w.size = 0 then 2048 else w.size) result
  | .assigns name => { w with name := name, pc := .readsAbandoned }
  | .readsAbandoned => { w with pc := if w.abandoned then .exited else .signals }
  | .signals => { w with done := true, pc := .waits }
  | .exited => w

/-- It can take a step. -/
def enabled : Bool :=
  match w.pc with
  | .waits => w.request
  | .exited => false
  | _ => true

end Worker

/-! ## the caller -/

/-- The next thing the caller does. -/
inductive CallerAt
  | idle
  | setsTarget
  | requests
  | waits
  | takesName
  | setsAbandoned
  | setsExit
  | wakes
  | resets
  /-- The destructor. -/
  | destructs
  | destructorWakes
  | releases
  | destroyed
deriving DecidableEq, Repr

structure ObjectNameQuery where
  /-- The workers ever started: numbers below `started`. -/
  workers : ℕ → Worker := fun _ => {}
  started : ℕ := 0
  /-- `m_Worker`. -/
  current : Option ℕ := none
  abandoned : ℕ := 0
  pc : CallerAt := .idle
  /-- The handle of the call. -/
  handle : UInt64 := 0
  /-- What the current worker's queries since the call began were for, and what they produced. -/
  answers : List (UInt64 × WString) := []

inductive Act
  /-- A call of `GetName`; the thread may fail to start. -/
  | getName (handle : UInt64) (starts : Bool)
  | destroy
  /-- The caller goes on; a wait may time out at any moment. -/
  | caller (timeout : Bool)
  | worker (i : ℕ) (result : QueryResult)
deriving DecidableEq, Repr

namespace ObjectNameQuery

variable (q : ObjectNameQuery)

def setWorker (i : ℕ) (w : Worker) : ObjectNameQuery :=
  { q with workers := Function.update q.workers i w }

def getName (handle : UInt64) (starts : Bool) : ObjectNameQuery :=
  match q.current with
  | some _ => { q with pc := .setsTarget, handle := handle, answers := [] }
  | none =>
    if starts then
      { q.setWorker q.started {} with
        started := q.started + 1
        current := some q.started
        pc := .setsTarget
        handle := handle
        answers := [] }
    else q

/-- A step of the caller's with its worker. -/
def callerStep (i : ℕ) (timeout : Bool) : ObjectNameQuery :=
  let w := q.workers i
  match q.pc with
  | .setsTarget => { q.setWorker i { w with target := q.handle } with pc := .requests }
  | .requests => { q.setWorker i { w with request := true } with pc := .waits }
  | .waits =>
    if timeout then { q with pc := .setsAbandoned }
    else if w.done then { q.setWorker i { w with done := false } with pc := .takesName }
    else q
  | .takesName => { q.setWorker i { w with name := [] } with pc := .idle }
  | .setsAbandoned => { q.setWorker i { w with abandoned := true } with pc := .setsExit }
  | .setsExit => { q.setWorker i { w with exit := true } with pc := .wakes }
  | .wakes => { q.setWorker i { w with request := true } with pc := .resets }
  | .resets => { q with current := none, abandoned := q.abandoned + 1, pc := .idle }
  | .destructs => { q.setWorker i { w with exit := true } with pc := .destructorWakes }
  | .destructorWakes => { q.setWorker i { w with request := true } with pc := .releases }
  | .releases => { q with current := none, pc := .destroyed }
  | .idle | .destroyed => q

/-- A step of a worker's. -/
def workerStep (i : ℕ) (result : QueryResult) : ObjectNameQuery :=
  let w := q.workers i
  let answers :=
    if q.current = some i ∧ w.pc = .queries ∧ (w.step result).pc ≠ .queries then
      q.answers ++ [(w.target, result.text)]
    else q.answers
  { q.setWorker i (w.step result) with answers := answers }

def step : Act → ObjectNameQuery
  | .getName handle starts => if q.pc = .idle then q.getName handle starts else q
  | .destroy =>
    if q.pc = .idle then { q with pc := if q.current = none then .destroyed else .destructs } else q
  | .caller timeout =>
    match q.current with
    | some i => q.callerStep i timeout
    | none => q
  | .worker i result => if i < q.started then q.workerStep i result else q

/-- What `GetName` returns in a step. -/
def returns : Act → Option (Option WString)
  | .getName _ starts => if q.pc = .idle ∧ q.current = none ∧ !starts then some none else none
  | .caller _ =>
    match q.current, q.pc with
    | some i, .takesName => some (some (q.workers i).name)
    | some _, .resets => some none
    | _, _ => none
  | .destroy | .worker _ _ => none

/-- The caller has given a worker up. -/
def GivenUp (i : ℕ) : Prop :=
  i < q.started ∧ (q.current = some i → q.pc = .resets ∨ q.pc = .releases)

end ObjectNameQuery

end WinSys.Handles
