import WinSys.Registry.Frame
import Mathlib.Data.Multiset.Filter
import Mathlib.Algebra.Order.BigOperators.Group.Multiset

/-!
# No operation is lost or counted twice

Whatever way an operation takes (counted at once, deferred, moved to a token, flushed, counted
because too many wait, or by a later pass of the resolver), it is either counted once or still
waits once: `operations` is kept by everything but `OnEvent`, which adds its event. The rows'
figures are sums over what was counted, so they add up to the sums over what no longer waits.
-/

namespace WinSys.Registry

open Infra

/-- The operation a call gives the table to count, if any. -/
def Call.given : Call → Option Operation
  | .onEvent e pid time tick =>
    if e.operation.isIgnored || (e.isOpen && isRetried e.status) then none
    else some ⟨e, pid, time, tick⟩
  | _ => none

/-- The operations a run gives the table to count. -/
def given (calls : List Call) : List Operation := calls.filterMap Call.given

namespace RegistryIoTable

/-- Every operation the table answers for: counted or waiting. -/
def operations (t : RegistryIoTable) : Multiset Operation :=
  ↑(t.counted.map Counted.operation) + ↑(t.deferred.map Deferred.operation)

variable {env : Env} {t : RegistryIoTable} {e : RegistryEvent} {name : WString} {pid : UInt32}
  {time : ℤ} {tick : UInt64}

/-! ## each function keeps the operations -/

theorem operations_congr {t' : RegistryIoTable} (hc : t'.counted = t.counted)
    (hd : t'.deferred.map Deferred.operation = t.deferred.map Deferred.operation) :
    t'.operations = t.operations := by
  simp only [operations, hc, hd]

theorem count_operations (b : Bool) : (t.count env e name pid time tick b).operations
    = ⟨e, pid, time, tick⟩ ::ₘ t.operations := by
  simp [operations, Counted.operation]

theorem nameToken_operations (d : Deferred) :
    (t.nameToken d name tick).operations = t.operations :=
  operations_congr (by simp) (by simp)

theorem defer_operations (waiting token : UInt64) :
    (t.defer env e pid time tick waiting token).operations
      = ⟨e, pid, time, tick⟩ ::ₘ t.operations := by
  unfold defer
  split
  · split
    · rw [nameToken_operations, count_operations]
    · split <;> exact count_operations true
  · simp only [operations, List.map_append, ← Multiset.coe_add, ← add_assoc]
    exact (add_comm _ _).trans (Multiset.singleton_add _ _)

theorem retarget_operations (object : UInt64) (stamp : ℤ) (token : UInt64) :
    (t.retarget object stamp token).operations = t.operations :=
  operations_congr (by simp) (t.retarget_map_operation object stamp token)

/-- Counting one element of a queue moves its operation over. -/
theorem counted_add_queue {s s' : RegistryIoTable} {kept rest : List Deferred} {d : Deferred}
    (h : s'.counted.map Counted.operation = d.operation :: s.counted.map Counted.operation) :
    (↑(s'.counted.map Counted.operation) + ↑((kept ++ rest).map Deferred.operation)
        : Multiset Operation)
      = ↑(s.counted.map Counted.operation) + ↑((kept ++ d :: rest).map Deferred.operation) := by
  rw [h]
  simp only [List.map_append, List.map_cons, ← Multiset.cons_coe, ← Multiset.coe_add,
    Multiset.cons_add, Multiset.add_cons]

theorem flushWaiting_operations (object : UInt64) (stamp : ℤ) :
    (t.flushWaiting env object stamp).operations = t.operations := by
  unfold flushWaiting
  split
  · rfl
  · refine flushSweep_invariant (P := fun s l =>
      (↑(s.counted.map Counted.operation) + ↑(l.map Deferred.operation) : Multiset Operation)
        = t.operations) rfl ?_
    intro s kept d rest hs _ _
    rw [← hs]
    exact counted_add_queue rfl

theorem newKeyObject_operations (object : UInt64) (stamp : ℤ) :
    (t.newKeyObject env object stamp).operations = t.operations := by
  unfold newKeyObject
  split
  · rfl
  · exact flushWaiting_operations object stamp

theorem deferOpen_operations : (t.deferOpen env e pid time tick).operations
    = ⟨e, pid, time, tick⟩ ::ₘ t.operations := by
  unfold deferOpen
  split
  · rw [defer_operations, retarget_operations]
    rfl
  · exact defer_operations _ _

theorem onOpen_operations : (t.onOpen env e pid time tick).operations
    = ⟨e, pid, time, tick⟩ ::ₘ t.operations := by
  unfold onOpen
  dsimp only
  split
  · rw [count_operations, newKeyObject_operations]
  · split
    · rw [count_operations, newKeyObject_operations]
    · rw [deferOpen_operations, newKeyObject_operations]

theorem onOperation_operations : (t.onOperation env e pid time tick).operations
    = ⟨e, pid, time, tick⟩ ::ₘ t.operations := by
  unfold onOperation
  split
  · exact count_operations true
  · split
    · exact defer_operations _ _
    · split
      · exact count_operations true
      · exact defer_operations _ _

theorem applyOne_counted (d : Deferred) : (t.applyOne env d).counted.map Counted.operation
    = d.operation :: t.counted.map Counted.operation := by
  unfold applyOne
  dsimp only
  split
  · simp [applyOpen, Counted.operation, Deferred.operation]
  · unfold applyOperation
    split <;> rfl

theorem applyDeferred_operations : (t.applyDeferred env).operations = t.operations := by
  refine applySweep_invariant (P := fun s l =>
    (↑(s.counted.map Counted.operation) + ↑(l.map Deferred.operation) : Multiset Operation)
      = t.operations) rfl ?_
  intro s kept d rest hs _
  rw [← hs]
  exact counted_add_queue (applyOne_counted d)

/-- A call adds what it gives, unless it forgets. -/
theorem step_operations {c : Call} (hf : c.forgets = false) :
    (t.step env c).operations = ↑c.given.toList + t.operations := by
  cases c with
  | onEvent e pid time tick =>
    simp only [step, onEvent, Call.given]
    cases hi : e.operation.isIgnored with
    | true => simp
    | false =>
      cases ho : e.isOpen with
      | true =>
        cases hr : isRetried e.status with
        | true => simp
        | false => simp [onOpen_operations]
      | false => simp [onOperation_operations]
  | takeUnnamed => exact (zero_add _).symm
  | setName => exact (zero_add _).symm
  | nameFailed => exact (zero_add _).symm
  | applyDeferred => exact applyDeferred_operations.trans (zero_add _).symm
  | prune => exact absurd hf Bool.false_ne_true.symm
  | removeProcess => exact absurd hf Bool.false_ne_true.symm
  | clear => exact absurd hf Bool.false_ne_true.symm

theorem run_operations {calls : List Call} (h : ∀ c ∈ calls, c.forgets = false) :
    (run (step env) t calls).operations = t.operations + ↑(given calls) := by
  induction calls generalizing t with
  | nil => simp [given]
  | cons c calls ih =>
    have hg : (↑(given (c :: calls)) : Multiset Operation)
        = ↑c.given.toList + ↑(given calls) := by
      cases hc : c.given <;> simp [given, hc]
    rw [run_cons, ih fun x hx => h x (List.mem_cons_of_mem c hx),
      step_operations (h c List.mem_cons_self), hg, ← add_assoc, add_comm t.operations]

end RegistryIoTable

/-! ## the rows' figures -/

/-- `Opens`, `Reads`, `Writes` and `Failures` of a row. -/
def RegistryIoCounters.tallies (c : RegistryIoCounters) : Tallies :=
  ⟨c.opens, c.reads, c.writes, c.failures⟩

theorem RegistryIoCounters.identify_tallies (c : RegistryIoCounters) (pid : UInt32)
    (key : WString) (object : UInt64) (unnamed : RegistryUnnamed) (time : ℤ) :
    (c.identify pid key object unnamed time).tallies = c.tallies := by
  unfold RegistryIoCounters.identify
  split <;> rfl

theorem RegistryIoCounters.identify_pid {c : RegistryIoCounters} {pid : UInt32}
    (h : c.firstSeen ≠ 0 → c.pid = pid) (key : WString) (object : UInt64)
    (unnamed : RegistryUnnamed) (time : ℤ) :
    (c.identify pid key object unnamed time).pid = pid := by
  unfold RegistryIoCounters.identify
  split
  · rfl
  · next hf => exact h hf

/-- A figure that starts at zero and that counting adds the operation's share to. -/
structure Figure where
  val : Tallies → ℕ
  zero : val {} = 0
  add : ∀ (c : RegistryIoCounters) (e : RegistryEvent) (time : ℤ),
    val (c.add e time).tallies = val c.tallies + val e.tallies

def Figure.opens : Figure := ⟨Tallies.opens, rfl, fun _ _ _ => rfl⟩
def Figure.reads : Figure := ⟨Tallies.reads, rfl, fun _ _ _ => rfl⟩
def Figure.writes : Figure := ⟨Tallies.writes, rfl, fun _ _ _ => rfl⟩
def Figure.failures : Figure := ⟨Tallies.failures, rfl, fun _ _ _ => rfl⟩

/-- A process's rows add up to what was counted for it, and every row has its process's ID. -/
structure RowsAddUp (f : Figure) (rows : Finmap fun _ : RowId => Row) (counted : List Counted) :
    Prop where
  sum : ∀ pid, rows.total (fun id r => if id.pid = pid then f.val r.counters.tallies else 0)
    = ((counted.filter (·.pid = pid)).map fun c => f.val c.event.tallies).sum
  pid : ∀ id r, rows.lookup id = some r → r.counters.pid = id.pid

/-- The row counted into: its figure grows by the operation's share. -/
theorem countedRow_val (f : Figure) (env : Env) (t : RegistryIoTable) (e : RegistryEvent)
    (name : WString) (pid : UInt32) (time : ℤ) (tick : UInt64) :
    f.val (t.countedRow env e name pid time tick).counters.tallies
      = ((t.rows.lookup (env.rowId e name pid)).elim 0 fun r => f.val r.counters.tallies)
        + f.val e.tallies := by
  rw [RegistryIoTable.countedRow, f.add, RegistryIoCounters.identify_tallies]
  cases t.rows.lookup (env.rowId e name pid) with
  | none => rw [Option.getD_none, Option.elim_none]; exact congrArg (· + f.val e.tallies) f.zero
  | some r => rfl

theorem rowsAddUp_count (env : Env) (f : Figure) (Q : Operation → Prop) :
    CountKeeps env Q (RowsAddUp f) := by
  intro t e name pid time tick b _ h
  refine ⟨fun p => ?_, fun i r hr => ?_⟩
  · have ht := Finmap.total_insert t.rows (env.rowId e name pid)
      (t.countedRow env e name pid time tick)
      fun id r => if id.pid = p then f.val r.counters.tallies else 0
    have hs := h.sum p
    have hnew := countedRow_val f env t e name pid time tick
    have hidp : (env.rowId e name pid).pid = pid := rfl
    rw [RegistryIoTable.count_rows, RegistryIoTable.count_counted]
    by_cases hp : pid = p
    · subst hp
      simp only [hidp, reduceIte] at ht
      simp only [decide_true, List.filter_cons_of_pos, List.map_cons, List.sum_cons]
      omega
    · simp only [hidp, hp, reduceIte] at ht
      have hz : ((t.rows.lookup (env.rowId e name pid)).elim 0 fun _ => (0 : ℕ)) = 0 := by
        cases t.rows.lookup (env.rowId e name pid) <;> rfl
      simp only [hp, decide_false, Bool.false_eq_true, not_false_eq_true,
        List.filter_cons_of_neg]
      omega
  · rw [RegistryIoTable.count_rows, Finmap.lookup_insert_eq] at hr
    split at hr
    · next hi =>
      rw [← Option.some.inj hr, hi]
      refine RegistryIoCounters.identify_pid (fun hf => ?_) _ _ _ _
      cases hl : t.rows.lookup (env.rowId e name pid) with
      | none => rw [hl] at hf; simp at hf
      | some r => exact h.pid _ r hl
    · exact h.pid i r hr

theorem rowsAddUp_empty (f : Figure) : RowsAddUp f ∅ [] where
  sum _ := rfl
  pid id r h := by simp at h

/-- A sum over chosen rows is a sum over all of them of what the choice lets through. -/
theorem sum_filter_map {α : Type*} (s : Multiset α) (c : α → RegistryIoCounters)
    (p : RegistryIoCounters → Prop) [DecidablePred p] (q : α → Prop) [DecidablePred q]
    (h : ∀ a ∈ s, p (c a) ↔ q a) (f : RegistryIoCounters → ℕ) :
    (((s.map c).filter p).map f).sum = (s.map fun a => if q a then f (c a) else 0).sum := by
  induction s using Multiset.induction_on with
  | empty => rfl
  | cons a s ih =>
    have ih' := ih fun x hx => h x (Multiset.mem_cons_of_mem hx)
    have ha := h a (Multiset.mem_cons_self a s)
    rw [Multiset.map_cons, Multiset.map_cons, Multiset.sum_cons, ← ih']
    by_cases hq : q a
    · rw [Multiset.filter_cons_of_pos _ (ha.mpr hq), Multiset.map_cons, Multiset.sum_cons,
        if_pos hq]
    · rw [Multiset.filter_cons_of_neg _ fun hp => hq (ha.mp hp), if_neg hq, zero_add]

/-- What a process's rows show adds up to what was counted for it. -/
theorem RowsAddUp.getKeys {f : Figure} {t : RegistryIoTable}
    (h : RowsAddUp f t.rows t.counted) (pid : UInt32) :
    ((t.getKeys.filter (·.pid = pid)).map fun c => f.val c.tallies).sum
      = ((t.counted.filter (·.pid = pid)).map fun c => f.val c.event.tallies).sum := by
  rw [← h.sum pid, Finmap.total, RegistryIoTable.getKeys]
  refine sum_filter_map t.rows.entries (fun r => r.2.counters) (·.pid = pid)
    (fun r => r.1.pid = pid) (fun r hr => ?_) fun c => f.val c.tallies
  rw [h.pid r.1 r.2 (Finmap.mem_lookup_iff.mpr hr)]

/-! ## the law -/

def RegistryEvent.isRead (e : RegistryEvent) : Bool :=
  e.operation = .queryKey || e.operation = .queryValue || e.operation = .enumerateKey
    || e.operation = .enumerateValue || e.operation = .queryMultipleValues
    || e.operation = .querySecurity

def RegistryEvent.isWrite (e : RegistryEvent) : Bool := !e.isOpen && !e.isRead

/-- A create that made a new key. -/
def RegistryEvent.isNewKey (e : RegistryEvent) : Bool :=
  e.operation = .createKey && e.disposition = regCreatedNewKey

theorem RegistryEvent.tallies_eq (e : RegistryEvent) : e.tallies =
    { opens := if e.isOpen then 1 else 0
      reads := if e.isRead then 1 else 0
      writes := (if e.isWrite then 1 else 0) + (if e.isNewKey then 1 else 0)
      failures := if isFailure e.status then 1 else 0 } := by
  unfold RegistryEvent.tallies RegistryEvent.isWrite RegistryEvent.isNewKey
    RegistryEvent.isOpen RegistryEvent.isRead
  cases e.operation <;> simp

/-- What was counted for a process. -/
def RegistryIoTable.countedOf (t : RegistryIoTable) (pid : UInt32) : Multiset Operation :=
  ↑((t.counted.filter (·.pid = pid)).map Counted.operation)

/-- What waits for a process. -/
def RegistryIoTable.waitingOf (t : RegistryIoTable) (pid : UInt32) : Multiset Operation :=
  ↑((t.deferred.filter (·.pid = pid)).map Deferred.operation)

/-- What a run gives the table to count for a process. -/
def givenOf (calls : List Call) (pid : UInt32) : Multiset Operation :=
  ↑((given calls).filter (·.pid = pid))

/-- A process's rows, as the table shows them. -/
def RegistryIoTable.rowsOf (t : RegistryIoTable) (pid : UInt32) : Multiset RegistryIoCounters :=
  t.getKeys.filter (·.pid = pid)

theorem run_holds {env : Env} {P : (Finmap fun _ : RowId => Row) → List Counted → Prop}
    (hc : CountKeeps env (fun _ => True) P) {t : RegistryIoTable} {calls : List Call}
    (h : ∀ c ∈ calls, c.forgets = false) (ht : P t.rows t.counted) :
    P (run (RegistryIoTable.step env) t calls).rows
      (run (RegistryIoTable.step env) t calls).counted :=
  (run_invariant_mem (RegistryIoTable.step env) (Holds (fun _ => True) P)
    (fun _ _ hs hf => hs.step hc hf fun _ _ _ _ _ => trivial) ⟨fun _ _ => trivial, ht⟩ h).rows

theorem countedOf_add_waitingOf {env : Env} {calls : List Call}
    (h : ∀ c ∈ calls, c.forgets = false) (pid : UInt32) :
    (RegistryIoTable.after env calls).countedOf pid
      + (RegistryIoTable.after env calls).waitingOf pid = givenOf calls pid := by
  have hall := @RegistryIoTable.run_operations env {} calls h
  have hf := congrArg (Multiset.filter fun o : Operation => o.pid = pid) hall
  have h0 : ({} : RegistryIoTable).operations = 0 := rfl
  rw [h0, zero_add, RegistryIoTable.operations, Multiset.filter_add] at hf
  simp only [Multiset.filter_coe, List.filter_map] at hf
  exact hf

/-- A sum of ones over a list is a count. -/
theorem sum_ite_one (l : List Operation) (p : Operation → Bool) :
    (l.map fun o => if p o then 1 else 0).sum = l.countP p := by
  induction l with
  | nil => rfl
  | cons o l ih =>
    rw [List.map_cons, List.sum_cons, ih, List.countP_cons]
    omega

/-- What a run gave the table for a process that no longer waits at its end. -/
def noLongerWaiting (env : Env) (calls : List Call) (pid : UInt32) : Multiset Operation :=
  givenOf calls pid - (RegistryIoTable.after env calls).waitingOf pid

/-- A run's operations of a process are counted or wait, each once, and its rows show the figures
of those that no longer wait. -/
structure Conserved (env : Env) (calls : List Call) (pid : UInt32) : Prop where
  operations : (RegistryIoTable.after env calls).countedOf pid
    + (RegistryIoTable.after env calls).waitingOf pid = givenOf calls pid
  opens : (((RegistryIoTable.after env calls).rowsOf pid).map (·.opens)).sum
    = (noLongerWaiting env calls pid).countP (·.event.isOpen)
  reads : (((RegistryIoTable.after env calls).rowsOf pid).map (·.reads)).sum
    = (noLongerWaiting env calls pid).countP (·.event.isRead)
  writes : (((RegistryIoTable.after env calls).rowsOf pid).map (·.writes)).sum
    = (noLongerWaiting env calls pid).countP (·.event.isWrite)
      + (noLongerWaiting env calls pid).countP (·.event.isNewKey)
  failures : (((RegistryIoTable.after env calls).rowsOf pid).map (·.failures)).sum
    = (noLongerWaiting env calls pid).countP (isFailure ·.event.status)

/-- **The table loses and duplicates no operation**, whatever the order of the calls. -/
theorem operations_conserved (env : Env) (calls : List Call)
    (h : ∀ c ∈ calls, c.forgets = false) (pid : UInt32) : Conserved env calls pid := by
  let t := RegistryIoTable.after env calls
  have hsum : t.countedOf pid + t.waitingOf pid = givenOf calls pid :=
    countedOf_add_waitingOf h pid
  have hdone : noLongerWaiting env calls pid = t.countedOf pid := by
    rw [noLongerWaiting, ← hsum]
    exact Multiset.add_sub_cancel_right
  have hrows (f : Figure) : ((t.rowsOf pid).map fun c => f.val c.tallies).sum
      = (((t.counted.filter (·.pid = pid)).map Counted.operation).map
          fun o => f.val o.event.tallies).sum := by
    rw [List.map_map]
    exact RowsAddUp.getKeys (run_holds (rowsAddUp_count env f _) h (rowsAddUp_empty f)) pid
  have hcount (p : Operation → Bool) :
      (noLongerWaiting env calls pid).countP (fun o => p o = true)
        = (((t.counted.filter (·.pid = pid)).map Counted.operation).map
            fun o => if p o then 1 else 0).sum := by
    rw [hdone, RegistryIoTable.countedOf, Multiset.coe_countP, sum_ite_one]
    simp
  refine ⟨hsum, ?_, ?_, ?_, ?_⟩
  · rw [hcount fun o => o.event.isOpen]
    refine (hrows .opens).trans (congrArg List.sum (List.map_congr_left fun o _ => ?_))
    simp [Figure.opens, o.event.tallies_eq]
  · rw [hcount fun o => o.event.isRead]
    refine (hrows .reads).trans (congrArg List.sum (List.map_congr_left fun o _ => ?_))
    simp [Figure.reads, o.event.tallies_eq]
  · rw [hcount fun o => o.event.isWrite, hcount fun o => o.event.isNewKey, ← List.sum_map_add]
    refine (hrows .writes).trans (congrArg List.sum (List.map_congr_left fun o _ => ?_))
    simp [Figure.writes, o.event.tallies_eq]
  · rw [hcount fun o => isFailure o.event.status]
    refine (hrows .failures).trans (congrArg List.sum (List.map_congr_left fun o _ => ?_))
    simp [Figure.failures, o.event.tallies_eq]

/-- An open relative to a base the resolver names, an operation after it, and a failed create. -/
theorem operations_conserved_namedBase : Conserved Env.ascii
    [ .onEvent
        { operation := .openKey, keyObject := 0x10, baseObject := 0x20, name := wide "Run" } 7 1 1,
      .onEvent { operation := .setValue, keyObject := 0x10, stamp := 2 } 7 2 2,
      .takeUnnamed,
      .setName 0x20 (wide "\\REGISTRY\\MACHINE\\Software") 3,
      .applyDeferred,
      .onEvent
        { operation := .createKey, status := 0xC0000022, name := wide "\\REGISTRY\\A" } 7 3 3 ]
    7 :=
  operations_conserved Env.ascii _ (by decide) 7

end WinSys.Registry
