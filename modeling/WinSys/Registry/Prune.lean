import WinSys.Infra.Ticks
import WinSys.Registry.Frame

/-!
# What pruning forgets

The tracker's two threads share the table under a lock, but each reads the clock before it locks:
the event thread for `OnEvent`, the resolver for `SetName` and `Prune`. `Prune(tick)` erases a row
or name by `tick - LastTick`, in 64-bit unsigned arithmetic.

A row or name with recent activity survives as long as its tick is the newest of its operations'
and not above the pruning tick. The code breaks both: an operation that waited writes its old tick
over a newer one, an open relative to a named key leaves that name's tick as it was, and an event
that read the clock after the resolver but locked before it leaves a tick above the pruning one,
from which the subtraction wraps around.
-/

namespace WinSys.Registry

open Infra

/-! ## the two threads -/

/-- The tracker: its table, the last reading of the clock, and what each thread has read but not
yet used. -/
structure Tracker where
  table : RegistryIoTable := {}
  clock : UInt64 := 0
  eventTick : Option UInt64 := none
  resolverTick : Option UInt64 := none

/-- A step of one of the threads (`RegistryIoTracker::OnEvent`, `Resolve`) or of a caller. -/
inductive Act
  | eventReads (now : UInt64)
  | eventLocks (e : RegistryEvent) (pid : UInt32) (time : ℤ)
  | resolverTakes
  | resolverReads (now : UInt64)
  | resolverLocks (names : List (UInt64 × WString)) (unnamed : List (UInt64 × RegistryUnnamed))
  | removeProcess (pid : UInt32)

/-- The calls a step makes on the table while it holds the lock. -/
def Act.calls (s : Tracker) : Act → List Call
  | .eventLocks e pid time => [.onEvent e pid time (s.eventTick.getD 0)]
  | .resolverTakes => [.takeUnnamed]
  | .resolverLocks names unnamed =>
    names.map (fun n => .setName n.1 n.2 (s.resolverTick.getD 0))
      ++ unnamed.map (fun n => .nameFailed n.1 n.2)
      ++ [.applyDeferred, .prune (s.resolverTick.getD 0)]
  | .removeProcess pid => [.removeProcess pid]
  | _ => []

/-- A thread reads the clock, which never goes back, and locks after it has read it. -/
def Act.enabled (s : Tracker) : Act → Bool
  | .eventReads now => s.eventTick.isNone && s.clock ≤ now
  | .eventLocks .. => s.eventTick.isSome
  | .resolverReads now => s.resolverTick.isNone && s.clock ≤ now
  | .resolverLocks .. => s.resolverTick.isSome
  | _ => true

def Tracker.step (env : Env) (s : Tracker) (a : Act) : Tracker :=
  let table := run (RegistryIoTable.step env) s.table (a.calls s)
  match a with
  | .eventReads now => { s with table, clock := now, eventTick := some now }
  | .eventLocks .. => { s with table, eventTick := none }
  | .resolverReads now => { s with table, clock := now, resolverTick := some now }
  | .resolverLocks .. => { s with table, resolverTick := none }
  | _ => { s with table }

/-! ## the law -/

/-- What `Prune(tick)` removes from a table was idle: every operation of a row, every time a name
was set or used, lies more than the idle time below `tick`. -/
structure PrunesIdle (t : RegistryIoTable) (tick : UInt64) : Prop where
  row : ∀ id r, t.rows.lookup id = some r → (t.prune tick).rows.lookup id = none →
    ∀ c ∈ r.counted, c.tick.toNat + keyIdle.toNat + 1 ≤ tick.toNat
  name : ∀ k n, t.names.lookup k = some n → (t.prune tick).names.lookup k = none →
    ∀ u ∈ n.noted, u.toNat + nameIdle.toNat + 1 ≤ tick.toNat

/-- What was counted last into a row is not above the pruning tick, and of the operations before
it each newer one is idle as well. -/
def Row.Newest (r : Row) (tick : UInt64) : Prop :=
  match r.counted with
  | [] => True
  | last :: rest => last.tick ≤ tick ∧
    ∀ c ∈ rest, c.tick ≤ last.tick ∨ c.tick.toNat + keyIdle.toNat < tick.toNat

/-- A name's tick is not above the pruning tick, and of its uses each newer one is idle as well. -/
def Name.Newest (n : Name) (tick : UInt64) : Prop :=
  n.tick ≤ tick ∧ ∀ u ∈ n.noted, u ≤ n.tick ∨ u.toNat + nameIdle.toNat < tick.toNat

instance (r : Row) (tick : UInt64) : Decidable (r.Newest tick) :=
  match h : r.counted with
  | [] => .isTrue (by simp [Row.Newest, h])
  | last :: rest =>
    decidable_of_iff (last.tick ≤ tick ∧
      ∀ c ∈ rest, c.tick ≤ last.tick ∨ c.tick.toNat + keyIdle.toNat < tick.toNat)
      (by simp [Row.Newest, h])

instance (n : Name) (tick : UInt64) : Decidable (n.Newest tick) :=
  inferInstanceAs (Decidable (_ ∧ _))

/-- The table before a `Prune`: the rows and names whose difference to the pruning tick is above
the idle time have the tick of their newest operation or use. -/
structure Current (t : RegistryIoTable) (tick : UInt64) : Prop where
  row : ∀ id r, t.rows.lookup id = some r → tick - r.lastTick > keyIdle → r.Newest tick
  name : ∀ k n, t.names.lookup k = some n → tick - n.tick > nameIdle → n.Newest tick

instance (t : RegistryIoTable) (tick : UInt64) : Decidable (Current t tick) :=
  decidable_of_iff ((∀ id r, t.rows.lookup id = some r → tick - r.lastTick > keyIdle →
      r.Newest tick)
    ∧ ∀ k n, t.names.lookup k = some n → tick - n.tick > nameIdle → n.Newest tick)
    ⟨fun h => ⟨h.1, h.2⟩, fun h => ⟨h.row, h.name⟩⟩

/-- A condition on a call, if it is a `Prune`, with the table it gets. -/
def Call.AtPrune (ok : RegistryIoTable → UInt64 → Prop) (t : RegistryIoTable) : Call → Prop
  | .prune tick => ok t tick
  | _ => True

/-- A condition on each `Prune` among a step's calls. -/
def AtPrunes (env : Env) (ok : RegistryIoTable → UInt64 → Prop) (s : Tracker) (a : Act) : Prop :=
  Along (RegistryIoTable.step env) (Call.AtPrune ok) s.table (a.calls s)

instance {ok : RegistryIoTable → UInt64 → Prop} [∀ t tick, Decidable (ok t tick)]
    (t : RegistryIoTable) (c : Call) : Decidable (c.AtPrune ok t) :=
  match c with
  | .prune tick => inferInstanceAs (Decidable (ok t tick))
  | .onEvent .. | .takeUnnamed | .setName .. | .nameFailed .. | .applyDeferred
  | .removeProcess _ | .clear => .isTrue trivial

instance {ok : RegistryIoTable → UInt64 → Prop} [∀ t tick, Decidable (ok t tick)] {env : Env}
    (s : Tracker) (a : Act) : Decidable (AtPrunes env ok s a) :=
  instDecidableAlong s.table (a.calls s)

/-! ## the row's tick is the last operation's -/

/-- Every row has been counted into, and carries the tick of the last operation. -/
def LastCounted (rows : Finmap fun _ : RowId => Row) (_ : List Counted) : Prop :=
  ∀ id r, rows.lookup id = some r → ∃ last rest, r.counted = last :: rest ∧ r.lastTick = last.tick

variable {env : Env} {t : RegistryIoTable}

theorem lastCounted_count : CountKeeps env (fun _ => True) LastCounted := by
  intro t e name pid time tick b _ h id r hr
  rw [RegistryIoTable.count_rows, Finmap.lookup_insert_eq] at hr
  split at hr
  · rw [← Option.some.inj hr]
    exact ⟨_, _, rfl, rfl⟩
  · exact h id r hr

theorem lastCounted_eraseIf {rows : Finmap fun _ : RowId => Row} {counted : List Counted}
    {p : RowId → Row → Bool} (h : LastCounted rows counted) :
    LastCounted (rows.eraseIf p) counted := by
  intro id r hr
  rw [Finmap.lookup_eraseIf, Option.filter_eq_some_iff] at hr
  exact h id r hr.1

theorem lastCounted_step {c : Call} (h : Holds (fun _ => True) LastCounted t) :
    Holds (fun _ => True) LastCounted (t.step env c) :=
  h.step_any lastCounted_count (fun _ _ _ => lastCounted_eraseIf)
    (fun _ id r hr => by simp at hr) fun _ _ _ _ _ => trivial

/-! ## one prune -/

theorem prunesIdle_of_current {tick : UInt64} (hl : LastCounted t.rows t.counted)
    (hc : Current t tick) : PrunesIdle t tick where
  row id r hr hn c hmem := by
    obtain ⟨last, rest, hcounted, hlast⟩ := hl id r hr
    have hgt : tick - r.lastTick > keyIdle := by simpa using Finmap.of_eraseIf_none hr hn
    have hnew := hc.row id r hr hgt
    simp only [Row.Newest, hcounted] at hnew
    obtain ⟨hle, hnewest⟩ := hnew
    rw [hlast] at hgt
    have hage := idle_of_sub_gt hle hgt
    rw [hcounted] at hmem
    rcases List.mem_cons.mp hmem with rfl | hrest
    · exact hage
    · rcases hnewest c hrest with hcl | hidle
      · have hcl' := UInt64.le_iff_toNat_le.mp hcl
        omega
      · exact hidle
  name k n hk hn u hu := by
    have hgt : tick - n.tick > nameIdle := by simpa using Finmap.of_eraseIf_none hk hn
    obtain ⟨hle, hnewest⟩ := hc.name k n hk hgt
    have hage := idle_of_sub_gt hle hgt
    rcases hnewest u hu with hul | hidle
    · have hul' := UInt64.le_iff_toNat_le.mp hul
      omega
    · exact hidle

/-! ## every interleaving -/

/-- The rows' ticks are right whatever a step calls. -/
theorem lastCounted_calls (env : Env) (calls : List Call)
    (h : Holds (fun _ => True) LastCounted t) :
    Holds (fun _ => True) LastCounted (run (RegistryIoTable.step env) t calls) :=
  run_invariant _ _ (fun _ _ hs _ => lastCounted_step hs) h
    (along_of_forall fun _ _ => trivial)

theorem lastCounted_act {s : Tracker} {a : Act}
    (h : Holds (fun _ => True) LastCounted s.table) :
    Holds (fun _ => True) LastCounted (s.step env a).table := by
  have hcalls := lastCounted_calls env (a.calls s) h
  cases a <;> exact hcalls

/-- An open counted at tick 6, a resolver pass that read the clock a minute and a half later. -/
def pruneInOrder : List Act :=
  [.eventReads 6, .eventLocks { operation := .openKey, name := wide "\\A" } 7 1,
    .resolverReads 90000, .resolverLocks [] []]

/-- The same, the resolver having read the clock at 5 before the event thread did. -/
def pruneLate : List Act :=
  [.resolverReads 5, .eventReads 6,
    .eventLocks { operation := .openKey, name := wide "\\A" } 7 1, .resolverLocks [] []]

end WinSys.Registry
