import WinSys.Registry.Alike

/-!
# When a row was first and last seen

`Count` takes the time of what it counts for the last one, and the time of what it counts first for
the first one. Operations counted at once come in the order of their times; one that waited may be
counted after a later one.

* `Row.TrueTimes`: the row's times are the extreme ones of its operations
* `Row.InOrder`: what was counted first and last has them
* `NotOvertaken`: nothing that waited is counted after a later operation
* `times_true_iff`
-/

namespace WinSys.Registry

open Infra

/-! ## a row's times -/

structure Row.TrueTimes (r : Row) : Prop where
  first : ∃ k ∈ r.counted, k.time = r.counters.firstSeen
  first_le : ∀ k ∈ r.counted, r.counters.firstSeen ≤ k.time
  le_last : ∀ k ∈ r.counted, k.time ≤ r.counters.lastSeen
  last : ∃ k ∈ r.counted, k.time = r.counters.lastSeen
    ∧ k.event.operation = r.counters.lastOperation ∧ k.event.status = r.counters.lastStatus

/-- The operation counted first is an earliest one, and the one counted last a latest one. -/
structure Row.InOrder (r : Row) : Prop where
  first : ∀ first ∈ r.counted.getLast?, ∀ k ∈ r.counted, first.time ≤ k.time
  last : ∀ last ∈ r.counted.head?, ∀ k ∈ r.counted, k.time ≤ last.time

/-- The row's times are those of what was counted first and last. -/
structure Row.Told (r : Row) : Prop where
  first : ∃ first ∈ r.counted.getLast?, r.counters.firstSeen = first.time
  positive : 0 < r.counters.firstSeen
  last : ∃ last ∈ r.counted.head?, r.counters.lastSeen = last.time
    ∧ r.counters.lastOperation = last.event.operation ∧ r.counters.lastStatus = last.event.status

theorem Row.Told.trueTimes_iff {r : Row} (h : r.Told) : r.TrueTimes ↔ r.InOrder := by
  obtain ⟨⟨first, hfirst, hfirstSeen⟩, -, last, hlast, hlastSeen, hoperation, hstatus⟩ := h
  constructor
  · intro htrue
    refine ⟨fun k hk => ?_, fun k hk => ?_⟩
    · obtain rfl := Option.mem_unique hk hfirst
      exact hfirstSeen ▸ htrue.first_le
    · obtain rfl := Option.mem_unique hk hlast
      exact hlastSeen ▸ htrue.le_last
  · intro horder
    exact {
      first := ⟨first, List.mem_of_getLast? hfirst, hfirstSeen.symm⟩
      first_le := hfirstSeen ▸ horder.first first hfirst
      le_last := hlastSeen ▸ horder.last last hlast
      last := ⟨last, List.mem_of_head? hlast, hlastSeen.symm, hoperation.symm, hstatus.symm⟩ }

/-- What is counted becomes the last operation, and stays the first one if it is. -/
theorem told_countedRow {env : Env} {t : RegistryIoTable} {e : RegistryEvent} {name : WString}
    {pid : UInt32} {time : ℤ} {tick : UInt64} (htime : 0 < time)
    (h : ∀ r, t.rows.lookup (env.rowId e name pid) = some r → r.Told) :
    (t.countedRow env e name pid time tick).Told := by
  unfold RegistryIoTable.countedRow
  cases hrow : t.rows.lookup (env.rowId e name pid) with
  | none => exact ⟨⟨_, rfl, rfl⟩, htime, ⟨_, rfl, rfl, rfl, rfl⟩⟩
  | some r =>
    obtain ⟨⟨first, hfirst, hfirstSeen⟩, hpositive, -⟩ := h r hrow
    have hkept : ∀ key object unnamed,
        r.counters.identify pid key object unnamed time = r.counters := by
      intro key object unnamed
      unfold RegistryIoCounters.identify
      exact if_neg hpositive.ne'
    simp only [Option.getD_some, hkept]
    refine ⟨⟨first, ?_, hfirstSeen⟩, hpositive, ⟨_, rfl, rfl, rfl, rfl⟩⟩
    rw [List.getLast?_cons, Option.mem_def.mp hfirst]
    rfl

/-- Every row is told. -/
def RowsTold (rows : Finmap fun _ : RowId => Row) (_ : List Counted) : Prop :=
  ∀ id r, rows.lookup id = some r → r.Told

theorem rowsTold_count (env : Env) : CountKeeps env (fun o => 0 < o.time) RowsTold := by
  intro t e name pid time tick b htime h id r hr
  rw [RegistryIoTable.count_rows, Finmap.lookup_insert_eq] at hr
  split at hr
  · cases hr
    exact told_countedRow htime fun r hr => h _ r hr
  · exact h id r hr

theorem rowsTold_eraseIf {rows : Finmap fun _ : RowId => Row} {counted : List Counted}
    {p : RowId → Row → Bool} (h : RowsTold rows counted) : RowsTold (rows.eraseIf p) counted := by
  intro id r hr
  rw [Finmap.lookup_eraseIf, Option.filter_eq_some_iff] at hr
  exact h id r hr.1

/-! ## arrival -/

/-- The time of the last event, after a call. -/
def Call.clock (now : ℤ) : Call → ℤ
  | .onEvent _ _ time _ => time
  | _ => now

/-- The events' times do not go back. -/
def Arriving : ℤ → List Call → Prop
  | _, [] => True
  | now, c :: calls => now ≤ c.clock now ∧ Arriving (c.clock now) calls

theorem told_step {env : Env} {t : RegistryIoTable} {c : Call} {now : ℤ}
    (h : Holds (fun o => 0 < o.time) RowsTold t) (hc : 0 < c.clock now) :
    Holds (fun o => 0 < o.time) RowsTold (t.step env c) :=
  h.step_any (rowsTold_count env) (fun _ _ _ => rowsTold_eraseIf)
    (fun _ id r hr => by simp at hr) fun e pid time tick he => by subst he; exact hc

/-! ## nothing is overtaken -/

/-- Nothing later than `time` was counted into the event's row. -/
def RegistryIoTable.InTurn (env : Env) (t : RegistryIoTable) (e : RegistryEvent) (name : WString)
    (pid : UInt32) (time : ℤ) : Prop :=
  ∀ r ∈ t.rows.lookup (env.rowId e name pid), ∀ k ∈ r.counted, k.time ≤ time

/-- What a call counts of the operations that waited goes into rows with nothing later. -/
def NotOvertaken (env : Env) (t : RegistryIoTable) : Call → Prop
  | .onEvent e _ _ _ =>
    e.isOpen = true → isRetried e.status = false → e.keyObject ≠ 0 →
      t.waiting.lookup e.keyObject ≠ none →
      SweepAlong (fun _ d => RegistryIoTable.flushes e.keyObject e.stamp d)
        (fun t d => t.flushOne env e.keyObject d)
        (fun t d => t.InTurn env d.event
          (if d.event.isOpen then t.unnamedBase e.keyObject d.event.name else []) d.pid d.time)
        { t with attempts := t.attempts.insert e.keyObject ⟨maxAttempts, .closed⟩ } t.deferred
  | .applyDeferred =>
    SweepAlong RegistryIoTable.ready (fun t d => t.applyOne env d)
      (fun t d => t.InTurn env d.event (t.countedName env d) d.pid d.time) t t.deferred
  | _ => True

instance (env : Env) (t : RegistryIoTable) (e : RegistryEvent) (name : WString) (pid : UInt32)
    (time : ℤ) : Decidable (t.InTurn env e name pid time) :=
  inferInstanceAs (Decidable (∀ r ∈ t.rows.lookup (env.rowId e name pid),
    ∀ k ∈ r.counted, k.time ≤ time))

instance (env : Env) (t : RegistryIoTable) : DecidablePred (NotOvertaken env t)
  | .onEvent .. => inferInstanceAs (Decidable (_ → _))
  | .applyDeferred => inferInstanceAs (Decidable (SweepAlong _ _ _ _ _))
  | .takeUnnamed | .setName .. | .nameFailed .. | .prune _ | .removeProcess _ | .clear =>
    .isTrue trivial

/-- The row an operation that waited is counted into by `ApplyDeferred`. -/
theorem applyOne_rows {env : Env} (t : RegistryIoTable) (d : Deferred) :
    (t.applyOne env d).rows = t.rows.insert (env.rowId d.event (t.countedName env d) d.pid)
      (t.countedRow env d.event (t.countedName env d) d.pid d.time d.tick) := by
  unfold RegistryIoTable.applyOne RegistryIoTable.countedName
  dsimp only
  split
  · exact RegistryIoTable.nameToken_rows
  · unfold RegistryIoTable.applyOperation RegistryIoTable.text
    dsimp only
    split
    · next n hn => rw [hn]; rfl
    · next hn => rw [hn]; rfl

/-- Nothing is later than `now`, and each row's operations were counted in the order of their
times. -/
structure Chronological (now : ℤ) (rows : Finmap fun _ : RowId => Row) (waiting : List Deferred) :
    Prop where
  sorted : ∀ id, ∀ r ∈ rows.lookup id, r.counted.Pairwise fun k k' => k'.time ≤ k.time
  past : ∀ id, ∀ r ∈ rows.lookup id, ∀ k ∈ r.counted, k.time ≤ now
  waiting : ∀ d ∈ waiting, d.time ≤ now

namespace Chronological

open RegistryIoTable (InTurn)

variable {env : Env} {t : RegistryIoTable} {e : RegistryEvent} {name : WString} {pid : UInt32}
  {time now : ℤ} {tick : UInt64} {rows : Finmap fun _ : RowId => Row} {l l' : List Deferred}

theorem start : Chronological now (∅ : Finmap fun _ : RowId => Row) [] where
  sorted id r hr := by simp at hr
  past id r hr := by simp at hr
  waiting d hd := absurd hd List.not_mem_nil

theorem mono {now' : ℤ} (h : Chronological now rows l) (hle : now ≤ now') :
    Chronological now' rows l where
  sorted := h.sorted
  past id r hr k hk := (h.past id r hr k hk).trans hle
  waiting d hd := (h.waiting d hd).trans hle

theorem subset (h : Chronological now rows l) (hl : l' ⊆ l) : Chronological now rows l' where
  sorted := h.sorted
  past := h.past
  waiting d hd := h.waiting d (hl hd)

theorem eraseIf (h : Chronological now rows l) (p : RowId → Row → Bool) :
    Chronological now (rows.eraseIf p) l := by
  have hold : ∀ id, ∀ r ∈ (rows.eraseIf p).lookup id, r ∈ rows.lookup id := by
    intro id r hr
    rw [Finmap.lookup_eraseIf] at hr
    exact (Option.filter_eq_some_iff.mp hr).1
  exact ⟨fun id r hr => h.sorted id r (hold id r hr), fun id r hr => h.past id r (hold id r hr),
    h.waiting⟩

/-- Nothing of the past is later than what is counted now. -/
theorem inTurn_now (h : Chronological now t.rows l) : t.InTurn env e name pid now :=
  fun r hr k hk => h.past _ r hr k hk

/-- Counting in turn keeps the order. -/
theorem count (h : Chronological now t.rows l) (hturn : t.InTurn env e name pid time)
    (htime : time ≤ now) :
    Chronological now
      (t.rows.insert (env.rowId e name pid) (t.countedRow env e name pid time tick)) l := by
  have hnew : ∀ k ∈ ((t.rows.lookup (env.rowId e name pid)).getD {}).counted, k.time ≤ time := by
    intro k hk
    cases hrow : t.rows.lookup (env.rowId e name pid) with
    | none => rw [hrow] at hk; exact absurd hk List.not_mem_nil
    | some r => rw [hrow] at hk; exact hturn r hrow k hk
  refine ⟨fun id r hr => ?_, fun id r hr => ?_, h.waiting⟩
  · rw [Option.mem_def, Finmap.lookup_insert_eq] at hr
    split at hr
    · cases hr
      refine List.pairwise_cons.mpr ⟨hnew, ?_⟩
      cases hrow : t.rows.lookup (env.rowId e name pid) with
      | none => exact List.Pairwise.nil
      | some r => exact h.sorted _ r hrow
    · exact h.sorted id r hr
  · rw [Option.mem_def, Finmap.lookup_insert_eq] at hr
    split at hr
    · cases hr
      intro k hk
      rcases List.mem_cons.mp hk with rfl | hk
      · exact htime
      · exact (hnew k hk).trans htime
    · exact h.past id r hr

theorem countNow (h : Chronological now t.rows l) (b : Bool) :
    Chronological now (t.count env e name pid now tick b).rows l :=
  h.count h.inTurn_now le_rfl

theorem defer (h : Chronological now t.rows t.deferred) (waiting token : UInt64) :
    Chronological now (t.defer env e pid now tick waiting token).rows
      (t.defer env e pid now tick waiting token).deferred := by
  unfold RegistryIoTable.defer
  split
  · split
    · simpa using h.countNow true
    · split
      · exact h.countNow true
      · exact h.countNow true
  · refine ⟨h.sorted, h.past, fun d hd => ?_⟩
    rcases List.mem_append.mp hd with hd | hd
    · exact h.waiting d hd
    · rw [List.mem_singleton.mp hd]

theorem retarget (h : Chronological now t.rows t.deferred) (object : UInt64) (stamp : ℤ)
    (token : UInt64) : Chronological now (t.retarget object stamp token).rows
      (t.retarget object stamp token).deferred := by
  rw [RegistryIoTable.retarget_rows]
  refine ⟨h.sorted, h.past, fun d hd => ?_⟩
  have hsame := t.retarget_map_operation object stamp token
  obtain ⟨d', hd', heq⟩ := List.mem_map.mp (hsame ▸ List.mem_map_of_mem hd)
  have htime : d'.time = d.time := congrArg Operation.time heq
  exact htime ▸ h.waiting d' hd'

theorem newKeyObject (h : Chronological now t.rows t.deferred)
    (hturn : e.keyObject ≠ 0 → t.waiting.lookup e.keyObject ≠ none →
      SweepAlong (fun _ d => RegistryIoTable.flushes e.keyObject e.stamp d)
        (fun t d => t.flushOne env e.keyObject d)
        (fun t d => t.InTurn env d.event
          (if d.event.isOpen then t.unnamedBase e.keyObject d.event.name else []) d.pid d.time)
        { t with attempts := t.attempts.insert e.keyObject ⟨maxAttempts, .closed⟩ } t.deferred) :
    Chronological now (t.newKeyObject env e.keyObject e.stamp).rows
      (t.newKeyObject env e.keyObject e.stamp).deferred := by
  unfold RegistryIoTable.newKeyObject
  split
  · exact h
  · next h0 =>
    unfold RegistryIoTable.flushWaiting
    split
    · exact h
    · next hw =>
      refine (hturn h0 (by simp [hw])).invariant (P := fun s l => Chronological now s.rows l)
        (fun s kept d rest hs _ hd => ?_) [] h
      exact (hs.count hd (hs.waiting d (by simp))).subset fun x hx => mem_skip hx

theorem deferOpen (h : Chronological now t.rows t.deferred) :
    Chronological now (t.deferOpen env e pid now tick).rows
      (t.deferOpen env e pid now tick).deferred := by
  unfold RegistryIoTable.deferOpen
  split
  · have hpend : Chronological now (t.pend e.keyObject).rows (t.pend e.keyObject).deferred := h
    exact (hpend.retarget _ _ _).defer _ _
  · exact h.defer _ _

theorem onOpen (h : Chronological now (t.newKeyObject env e.keyObject e.stamp).rows
      (t.newKeyObject env e.keyObject e.stamp).deferred) :
    Chronological now (t.onOpen env e pid now tick).rows
      (t.onOpen env e pid now tick).deferred := by
  unfold RegistryIoTable.onOpen
  dsimp only
  split
  · exact h.countNow true
  · split
    · exact h.countNow true
    · exact h.deferOpen

theorem onOperation (h : Chronological now t.rows t.deferred) :
    Chronological now (t.onOperation env e pid now tick).rows
      (t.onOperation env e pid now tick).deferred := by
  unfold RegistryIoTable.onOperation
  split
  · next n _ =>
    have hused : Chronological now (t.useName e.keyObject n tick tick).rows
        (t.useName e.keyObject n tick tick).deferred := h
    exact hused.countNow true
  · split
    · exact h.defer _ _
    · split
      · exact h.countNow true
      · exact h.defer _ _

theorem applyDeferred (h : Chronological now t.rows t.deferred)
    (hturn : NotOvertaken env t .applyDeferred) :
    Chronological now (t.applyDeferred env).rows (t.applyDeferred env).deferred := by
  refine SweepAlong.invariant (P := fun s l => Chronological now s.rows l)
    (fun s kept d rest hs _ hd => ?_) [] hturn h
  rw [applyOne_rows]
  exact (hs.count hd (hs.waiting d (by simp))).subset fun x hx => mem_skip hx

theorem step {c : Call} (h : Chronological now t.rows t.deferred) (hle : now ≤ c.clock now)
    (hturn : NotOvertaken env t c) :
    Chronological (c.clock now) (t.step env c).rows (t.step env c).deferred := by
  cases c with
  | onEvent e pid time tick =>
    have hnow : Chronological time t.rows t.deferred := h.mono hle
    simp only [RegistryIoTable.step, RegistryIoTable.onEvent]
    split
    · exact hnow
    · split
      · next ho =>
        split
        · exact hnow
        · next hr => exact onOpen (hnow.newKeyObject (hturn ho (by simpa using hr)))
      · exact hnow.onOperation
  | takeUnnamed => exact h
  | setName => exact h
  | nameFailed => exact h
  | applyDeferred => exact h.applyDeferred hturn
  | prune tick => exact h.eraseIf fun _ r => decide (tick - r.lastTick > keyIdle)
  | removeProcess pid => exact h.eraseIf fun id _ => decide (id.pid = pid)
  | clear => exact start

end Chronological

theorem Row.inOrder_of_sorted {r : Row}
    (h : r.counted.Pairwise fun k k' => k'.time ≤ k.time) : r.InOrder where
  first first hfirst k hk := by
    obtain ⟨newer, hsplit⟩ := List.getLast?_eq_some_iff.mp hfirst
    rw [hsplit] at h hk
    rcases List.mem_append.mp hk with hk | hk
    · exact (List.pairwise_append.mp h).2.2 k hk first (List.mem_singleton_self first)
    · rw [List.mem_singleton.mp hk]
  last last hlast k hk := by
    obtain ⟨rest, hsplit⟩ := List.head?_eq_some_iff.mp hlast
    rw [hsplit] at h hk
    rcases List.mem_cons.mp hk with rfl | hk
    · exact le_rfl
    · exact (List.pairwise_cons.mp h).1 k hk

/-! ## runs -/

section Run

variable {env : Env} {calls : List Call} {t : RegistryIoTable} {now : ℤ}

theorem told_run (h : Holds (fun o => 0 < o.time) RowsTold t) (hnow : 0 < now)
    (ha : Arriving now calls) :
    Holds (fun o => 0 < o.time) RowsTold (run (RegistryIoTable.step env) t calls) := by
  induction calls generalizing t now with
  | nil => exact h
  | cons c calls ih =>
    have hclock : 0 < c.clock now := hnow.trans_le ha.1
    exact ih (told_step h hclock) hclock ha.2

theorem Chronological.run (h : Chronological now t.rows t.deferred) (ha : Arriving now calls)
    (hturn : Along (RegistryIoTable.step env) (NotOvertaken env) t calls) :
    ∃ last, Chronological last (Infra.run (RegistryIoTable.step env) t calls).rows
      (Infra.run (RegistryIoTable.step env) t calls).deferred := by
  induction calls generalizing t now with
  | nil => exact ⟨now, h⟩
  | cons c calls ih => exact ih (h.step ha.1 hturn.1) ha.2 hturn.2

end Run

/-- Each row the table has after the calls has its operations' extreme times. -/
def TimesTrue (env : Env) (calls : List Call) : Prop :=
  ∀ id, ∀ r ∈ (RegistryIoTable.after env calls).rows.lookup id, r.TrueTimes

/-- While nothing that waited is overtaken the rows' times are true; and in any run a row's are
just if the operation counted first is an earliest one and the one counted last a latest one. -/
theorem times_true_iff (env : Env) (calls : List Call) (h : Arriving 1 calls) :
    (Along (RegistryIoTable.step env) (NotOvertaken env) {} calls → TimesTrue env calls)
    ∧ ∀ id, ∀ r ∈ (RegistryIoTable.after env calls).rows.lookup id, r.TrueTimes ↔ r.InOrder := by
  have htold : Holds (fun o => 0 < o.time) RowsTold
      (run (RegistryIoTable.step env) {} calls) := told_run
    ⟨fun d hd => absurd hd List.not_mem_nil, fun id r hr => by simp at hr⟩ one_pos h
  refine ⟨fun hturn id r hr => ?_, fun id r hr => (htold.rows id r hr).trueTimes_iff⟩
  obtain ⟨last, hsorted⟩ := Chronological.start.run h hturn
  exact (htold.rows id r hr).trueTimes_iff.mpr (Row.inOrder_of_sorted (hsorted.sorted id r hr))

/-- A query of a key object without a name waits; the key is opened and counted before the key
object is named. -/
def overtaken : List Call :=
  [ .onEvent { operation := .queryValue, keyObject := 0x10 } 4 5 1,
    .onEvent { operation := .openKey, keyObject := 0x20, stamp := 1,
               name := wide "\\REGISTRY\\MACHINE\\A" } 4 7 2,
    .setName 0x10 (wide "\\REGISTRY\\MACHINE\\A") 3,
    .applyDeferred ]

theorem overtaken_last_seen : ¬ ∀ calls, Arriving 1 calls → TimesTrue Env.ascii calls := by
  intro h
  have hlast : ∃ r ∈ (RegistryIoTable.after Env.ascii overtaken).rows.lookup ⟨4, wide "HKLM\\A"⟩,
      ∃ k ∈ r.counted, r.counters.lastSeen < k.time := by decide
  obtain ⟨r, hr, k, hk, hlt⟩ := hlast
  have htrue := h overtaken (by simp [overtaken, Arriving, Call.clock]) _ r hr
  exact absurd (htrue.le_last k hk) (not_le.mpr hlt)

/-- The query is counted before the key is opened again. -/
theorem times_true_inTurn : TimesTrue Env.ascii
    [ .onEvent { operation := .queryValue, keyObject := 0x10 } 4 5 1,
      .setName 0x10 (wide "\\REGISTRY\\MACHINE\\A") 3,
      .applyDeferred,
      .onEvent { operation := .openKey, keyObject := 0x20, stamp := 1,
                 name := wide "\\REGISTRY\\MACHINE\\A" } 4 7 4 ] :=
  (times_true_iff Env.ascii _ (by simp [Arriving, Call.clock])).1 (by decide)

end WinSys.Registry
