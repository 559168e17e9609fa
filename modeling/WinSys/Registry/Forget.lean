import WinSys.Registry.Conservation

/-!
# Forgetting a process

`RemoveProcess` erases a process's rows, but its operations also wait in `m_Deferred`, and what
waits is counted later: by a pass of the resolver, an open that flushes, or another process's
open. So the process is forgotten exactly when nothing of it waits.
-/

namespace WinSys.Registry

open Infra

/-- An event of the process. -/
def Call.isEventOf (pid : UInt32) : Call → Bool
  | .onEvent _ p _ _ => p = pid
  | _ => false

/-- After `RemoveProcess`, as long as no event of the process comes no row of it exists, and
whatever comes, what is counted for its ID from here on was given from here on. -/
structure Forgotten (env : Env) (t : RegistryIoTable) (pid : UInt32) : Prop where
  noRow : ∀ calls : List Call, (∀ c ∈ calls, c.isEventOf pid = false) →
    ∀ id ∈ (run (RegistryIoTable.step env) (t.removeProcess pid) calls).rows, id.pid ≠ pid
  noCount : ∀ calls : List Call,
    (run (RegistryIoTable.step env) (t.removeProcess pid) calls).countedOf pid
      ≤ t.countedOf pid + givenOf calls pid

variable {env : Env} {t : RegistryIoTable} {pid : UInt32}

/-! ## nothing of the process waits -/

/-- No row is the process's. -/
def NoRow (pid : UInt32) (rows : Finmap fun _ : RowId => Row) (_ : List Counted) : Prop :=
  ∀ id ∈ rows, id.pid ≠ pid

theorem mem_eraseIf {m : Finmap fun _ : RowId => Row} {p : RowId → Row → Bool} {id : RowId}
    (h : id ∈ m.eraseIf p) : ∃ r, m.lookup id = some r ∧ p id r = false := by
  obtain ⟨r, hr⟩ := Finmap.mem_iff.mp h
  rw [Finmap.lookup_eraseIf, Option.filter_eq_some_iff] at hr
  exact ⟨r, hr.1, by simpa using hr.2⟩

theorem noRow_count : CountKeeps env (fun o => o.pid ≠ pid) (NoRow pid) := by
  intro t e name p time tick b hp h id hid
  rw [RegistryIoTable.count_rows, Finmap.mem_insert] at hid
  rcases hid with rfl | hid
  · exact hp
  · exact h id hid

theorem noRow_step {c : Call} (hc : c.isEventOf pid = false)
    (h : Holds (fun o => o.pid ≠ pid) (NoRow pid) t) :
    Holds (fun o => o.pid ≠ pid) (NoRow pid) (t.step env c) := by
  refine h.step_any noRow_count ?_ (fun _ id hid => absurd hid Finmap.notMem_empty) ?_
  · intro rows _ p hrows id hid
    obtain ⟨r, hr, -⟩ := mem_eraseIf hid
    exact hrows id (Finmap.mem_of_lookup_eq_some hr)
  · intro e p time tick he
    rw [he] at hc
    simpa [Call.isEventOf] using hc

theorem removeProcess_noRow (t : RegistryIoTable) (pid : UInt32) :
    NoRow pid (t.removeProcess pid).rows (t.removeProcess pid).counted := by
  intro id hid
  obtain ⟨r, -, hr⟩ := mem_eraseIf hid
  simpa using hr

/-- A call adds at most what it gives to what the table answers for. -/
theorem step_operations_le (c : Call) :
    (t.step env c).operations ≤ ↑c.given.toList + t.operations := by
  cases hf : c.forgets with
  | false => exact (RegistryIoTable.step_operations hf).le
  | true =>
    cases c with
    | prune => exact (zero_add t.operations).ge
    | removeProcess => exact (zero_add t.operations).ge
    | clear =>
      have h : (t.step env .clear).operations = ↑(t.counted.map Counted.operation) :=
        add_zero _
      rw [h]
      exact (Multiset.le_add_right _ _).trans (Multiset.le_add_left _ _)
    | _ => exact absurd hf Bool.false_ne_true

theorem run_operations_le (calls : List Call) :
    (run (RegistryIoTable.step env) t calls).operations ≤ t.operations + ↑(given calls) := by
  induction calls generalizing t with
  | nil => simp [given]
  | cons c calls ih =>
    have hg : (↑(given (c :: calls)) : Multiset Operation)
        = ↑c.given.toList + ↑(given calls) := by
      cases hc : c.given <;> simp [given, hc]
    calc (run (RegistryIoTable.step env) (t.step env c) calls).operations
        ≤ (t.step env c).operations + ↑(given calls) := ih
      _ ≤ ↑c.given.toList + t.operations + ↑(given calls) :=
        add_le_add_left (step_operations_le c) _
      _ = t.operations + ↑(given (c :: calls)) := by
        rw [hg, ← add_assoc, add_comm t.operations]

theorem filter_operations (t : RegistryIoTable) (pid : UInt32) :
    t.operations.filter (·.pid = pid) = t.countedOf pid + t.waitingOf pid := by
  rw [RegistryIoTable.operations, Multiset.filter_add]
  simp only [Multiset.filter_coe, List.filter_map]
  rfl

theorem forgotten_of_none_waits (h : ∀ d ∈ t.deferred, d.pid ≠ pid) : Forgotten env t pid where
  noRow calls hcalls := by
    have h0 : Holds (fun o => o.pid ≠ pid) (NoRow pid) (t.removeProcess pid) :=
      ⟨h, removeProcess_noRow t pid⟩
    exact (run_invariant_mem (RegistryIoTable.step env) _
      (fun _ _ hs hc => noRow_step hc hs) h0 hcalls).rows
  noCount calls := by
    have hle := Multiset.filter_le_filter (fun o : Operation => o.pid = pid)
      (@run_operations_le env (t.removeProcess pid) calls)
    have hops : (t.removeProcess pid).operations = t.operations := rfl
    rw [hops, Multiset.filter_add, filter_operations, filter_operations] at hle
    have hw : t.waitingOf pid = 0 := by
      rw [RegistryIoTable.waitingOf, List.filter_eq_nil_iff.mpr]
      · rfl
      · intro d hd
        simpa using h d hd
    rw [hw, add_zero] at hle
    exact (Multiset.le_add_right _ _).trans hle

/-! ## something of the process waits -/

/-- The resolver gives up on an object, and counts what waits on it. -/
def giveUp (object : UInt64) : List Call :=
  List.replicate maxAttempts (.nameFailed object .closed) ++ [.applyDeferred]

/-- A row of the process exists. -/
def HasRow (pid : UInt32) (rows : Finmap fun _ : RowId => Row) (_ : List Counted) : Prop :=
  ∃ id ∈ rows, id.pid = pid

theorem hasRow_count : CountKeeps env (fun _ => True) (HasRow pid) := by
  rintro t e name p time tick b - ⟨id, hid, hp⟩
  exact ⟨id, Finmap.mem_insert.mpr (Or.inr hid), hp⟩

/-- Counting a waiting operation makes a row of its process. -/
theorem applyOne_hasRow (t : RegistryIoTable) (d : Deferred) :
    HasRow d.pid (t.applyOne env d).rows (t.applyOne env d).counted := by
  unfold RegistryIoTable.applyOne
  dsimp only
  split
  · unfold RegistryIoTable.applyOpen
    rw [RegistryIoTable.nameToken_rows]
    exact ⟨_, Finmap.mem_insert.mpr (Or.inl rfl), rfl⟩
  · unfold RegistryIoTable.applyOperation
    split <;> exact ⟨_, Finmap.mem_insert.mpr (Or.inl rfl), rfl⟩

/-- What waits on an object given up on is counted by `ApplyDeferred`. -/
theorem applyDeferred_hasRow {d : Deferred} (hd : d ∈ t.deferred)
    (hg : t.gaveUp d.waiting = true) :
    HasRow d.pid (t.applyDeferred env).rows (t.applyDeferred env).counted := by
  refine sweep_reaches (I := fun s : RegistryIoTable => s.attempts = t.attempts)
    (R := fun s : RegistryIoTable => HasRow d.pid s.rows s.counted) ?_ ?_ ?_ ?_ rfl hd
  · intro s hs
    have hgs : s.gaveUp d.waiting = true := by
      rw [← hg]
      simp only [RegistryIoTable.gaveUp, hs]
    simp [RegistryIoTable.ready, hgs]
  · exact fun s _ => applyOne_hasRow s d
  · exact fun s e hs => (applyOne_attempts s e).trans hs
  · exact fun s e hs => Holds.applyOne_rows hasRow_count s e trivial hs

theorem not_forgotten_of_waits {d : Deferred} (hd : d ∈ t.deferred) :
    ¬ Forgotten env t d.pid := by
  intro hf
  have hquiet : ∀ c ∈ giveUp d.waiting, c.isEventOf d.pid = false := by
    intro c hc
    simp only [giveUp, List.mem_append, List.mem_replicate, List.mem_singleton] at hc
    rcases hc with ⟨-, rfl⟩ | rfl <;> rfl
  have hno := hf.noRow (giveUp d.waiting) hquiet
  let t₃ := (((t.removeProcess d.pid).nameFailed d.waiting .closed).nameFailed d.waiting
    .closed).nameFailed d.waiting .closed
  have hg : t₃.gaveUp d.waiting = true :=
    gaveUp_of_count (nameFailed_count _ _ _ 2 (nameFailed_count _ _ _ 1
      (nameFailed_count _ _ _ 0 (Nat.zero_le _))))
  obtain ⟨id, hid, hp⟩ : HasRow d.pid (t₃.applyDeferred env).rows (t₃.applyDeferred env).counted :=
    applyDeferred_hasRow hd hg
  exact hno id hid hp

/-! ## the law -/

/-- **`RemoveProcess` forgets a process exactly when none of its operations wait.** -/
theorem removeProcess_forgets_iff (env : Env) (t : RegistryIoTable) (pid : UInt32) :
    Forgotten env t pid ↔ ∀ d ∈ t.deferred, d.pid ≠ pid := by
  refine ⟨fun h d hd hp => ?_, forgotten_of_none_waits⟩
  subst hp
  exact not_forgotten_of_waits hd h

/-- An operation on a key object opened before the session waits; its process is removed, the
resolver finds the key's name, and the process has a row again. -/
theorem removeProcess_leaves_waiting : ¬ Forgotten Env.ascii (RegistryIoTable.after Env.ascii
    [.onEvent { operation := .setValue, keyObject := 0x10, stamp := 1 } 7 1 1]) 7 := by
  intro h
  exact h.noRow [.takeUnnamed, .setName 0x10 (wide "\\REGISTRY\\MACHINE\\A") 2, .applyDeferred]
    (by decide) ⟨7, wide "HKLM\\A"⟩ (by decide) rfl

end WinSys.Registry
