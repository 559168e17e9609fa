import WinSys.Registry.Conservation
import WinSys.Registry.Delivery
import Mathlib.Tactic.Abel

/-!
# Passes over an open and its operations

Two tables that differ in the order an open and the operations on its key object wait in are
followed through the passes of the resolver: while the open waits (`Awaiting`), they differ in the
place of the operations in the queue; once it is named (`Naming`), in those still to be counted.

* `RowsFollow`: the rows' figures as a fold over what was counted
* `Level`: what the two tables agree on
* `passes_awaiting`, `passes_naming`: what is counted in the end
-/

namespace WinSys.Registry

open Infra

/-! ## rows and what was counted -/

/-- A row's figures. -/
def rowTallies (rows : Finmap fun _ : RowId => Row) (id : RowId) : Option Tallies :=
  (rows.lookup id).map fun r => r.counters.tallies

def Tallies.plus (a b : Tallies) : Tallies :=
  ⟨a.opens + b.opens, a.reads + b.reads, a.writes + b.writes, a.failures + b.failures⟩

theorem Tallies.plus_right_comm (a b c : Tallies) : (a.plus b).plus c = (a.plus c).plus b := by
  simp only [Tallies.plus, Nat.add_right_comm]

/-- Counting in the rows' figures. -/
def Env.record (env : Env) (x : Entry) (f : RowId → Option Tallies) : RowId → Option Tallies :=
  Function.update f (env.rowId x.event x.name x.pid)
    (some (((f (env.rowId x.event x.name x.pid)).getD {}).plus x.event.tallies))

instance (env : Env) : LeftCommutative env.record where
  left_comm x y f := by
    funext id
    simp only [Env.record, Function.update_apply]
    by_cases hxy : env.rowId x.event x.name x.pid = env.rowId y.event y.name y.pid
    · rw [hxy]
      by_cases hid : id = env.rowId y.event y.name y.pid
      · simp [hid, Tallies.plus_right_comm]
      · simp [hid]
    · by_cases hx : id = env.rowId x.event x.name x.pid
      · have hy : id ≠ env.rowId y.event y.name y.pid := fun h => hxy (hx.symm.trans h)
        simp [hx, hxy]
      · by_cases hy : id = env.rowId y.event y.name y.pid
        · simp [hy, Ne.symm hxy]
        · simp [hx, hy]

/-- The rows since some table are that table's and what was counted since. -/
def RowsFollow (env : Env) (t : RegistryIoTable) (rows : Finmap fun _ : RowId => Row)
    (counted : List Counted) : Prop :=
  ∃ new, counted.map Counted.entry = new ++ t.entries
    ∧ rowTallies rows = new.foldr env.record (rowTallies t.rows)

theorem rowsFollow_count (env : Env) (t : RegistryIoTable) (Q : Operation → Prop) :
    CountKeeps env Q (RowsFollow env t) := by
  rintro s e name pid time tick b - ⟨new, hcounted, hrows⟩
  refine ⟨⟨e, name, pid⟩ :: new, ?_, ?_⟩
  · rw [RegistryIoTable.count_counted, List.map_cons, hcounted]
    rfl
  · rw [List.foldr_cons, ← hrows]
    funext id
    rw [rowTallies, RegistryIoTable.count_rows, Finmap.lookup_insert_eq, Env.record,
      Function.update_apply]
    by_cases hid : id = env.rowId e name pid
    · rw [if_pos hid, if_pos hid, rowTallies, Option.map_some, RegistryIoTable.countedRow]
      have hadd : ∀ c : RegistryIoCounters, (c.add e time).tallies
          = c.tallies.plus e.tallies := fun _ => rfl
      dsimp only
      rw [hadd, RegistryIoCounters.identify_tallies]
      cases s.rows.lookup (env.rowId e name pid) <;> rfl
    · rw [if_neg hid, if_neg hid]
      rfl

/-! ## passes in time -/

/-- The passes' ticks do not go back, and no pass is more than `idle` after `lo`. -/
def InTime (idle lo : UInt64) : UInt64 → List ResolverPass → Prop
  | _, [] => True
  | hi, p :: ps => hi ≤ p.tick ∧ p.tick - lo ≤ idle ∧ InTime idle lo p.tick ps

section Passes

variable {env : Env} {p : ResolverPass} {ps : List ResolverPass} {objects : List UInt64}
  {t t' : RegistryIoTable} {lo hi : UInt64}

/-- A pass as calls, before it prunes. -/
theorem pass_eq_run (t : RegistryIoTable) (answers : List Answer) : t.pass env answers
    = run (RegistryIoTable.step env) t (.takeUnnamed :: (answers.map Answer.call
      ++ [.applyDeferred])) := by
  rw [run_cons, run_append]
  rfl

theorem Answer.forgets_call (a : Answer) : a.call.forgets = false := by
  cases a <;> rfl

/-- A pass in time changes the rows by counting only. -/
theorem resolve_rows {P : (Finmap fun _ : RowId => Row) → List Counted → Prop}
    (hc : CountKeeps env (fun _ => True) P) (htimed : Timed (InWindow lo hi) t t.deferred)
    (hle : hi ≤ p.tick) (hlo : lo ≤ p.tick) (hidle : p.tick - lo ≤ keyIdle)
    (h : P t.rows t.counted) :
    P (t.resolve env p objects).rows (t.resolve env p objects).counted := by
  have hwindow : Timed (InWindow lo p.tick) t t.deferred :=
    htimed.mono fun tick hw => ⟨hw.1, UInt64.le_trans hw.2 hle⟩
  have hkept := prune_window (hwindow.pass env objects
    ⟨hlo, UInt64.le_refl _⟩) (UInt64.le_refl _) hidle
  have hpass : P (t.pass env (objects.map p.reply)).rows
      (t.pass env (objects.map p.reply)).counted := by
    rw [pass_eq_run]
    refine run_holds hc (fun c hmem => ?_) h
    simp only [List.mem_cons, List.mem_append, List.mem_map, List.not_mem_nil, or_false] at hmem
    rcases hmem with rfl | ⟨a, -, rfl⟩ | rfl
    · rfl
    · exact a.forgets_call
    · rfl
  show P ((t.pass env (objects.map p.reply)).prune p.tick).rows _
  rw [hkept.1]
  exact hpass

theorem passes_rows {P : (Finmap fun _ : RowId => Row) → List Counted → Prop}
    (hc : CountKeeps env (fun _ => True) P) (htimed : Timed (InWindow lo hi) t t.deferred)
    (hlo : lo ≤ hi) (hps : InTime keyIdle lo hi ps) (hp : Passes env ps t t')
    (h : P t.rows t.counted) : P t'.rows t'.counted := by
  induction ps generalizing t hi with
  | nil =>
    obtain rfl : t' = t := hp
    exact h
  | cons p ps ih =>
    obtain ⟨hle, hidle, hrest⟩ := hps
    obtain ⟨objects, -, -, hp⟩ := hp
    have hlo' := UInt64.le_trans hlo hle
    have hwindow : Timed (InWindow lo p.tick) t t.deferred :=
      htimed.mono fun tick hw => ⟨hw.1, UInt64.le_trans hw.2 hle⟩
    exact ih (hwindow.resolve ⟨hlo', UInt64.le_refl _⟩) hlo' hrest hp
      (resolve_rows hc htimed hle hlo' hidle h)

end Passes

/-! ## two tables -/

/-- Two tables agree, also on what the resolver is asked for, `w` apart. -/
structure Level (H : UInt64 → Prop) (w : UInt64) (t t' : RegistryIoTable) : Prop
    extends Alike H t t' where
  unnamed : ∀ k, ¬ H k → k ≠ w → (k ∈ t.unnamed ↔ k ∈ t'.unnamed)

/-- What is waited on. -/
def RegistryIoTable.awaits (t : RegistryIoTable) (k : UInt64) : Prop :=
  ∃ d ∈ t.deferred, d.waiting = k

/-- Elements that wait on nothing in `H` and name nothing they could wait on. -/
structure Apart (H : UInt64 → Prop) (w : UInt64) (l : List Deferred) : Prop where
  clear : ∀ d ∈ l, d.Clear H
  token : ∀ d ∈ l, d.token = 0 ∨ d.token ≠ w

/-- No waiting open is to name a key object. -/
def Unclaimed (w : UInt64) (l : List Deferred) (t : RegistryIoTable) : Prop :=
  (∀ d ∈ l, d.event.keyObject ≠ w) ∨ t.pendingOpens.lookup w = none

section Two

variable {H : UInt64 → Prop} {env : Env} {s s' t t' : RegistryIoTable} {w : UInt64}
  {l l' : List Deferred}

theorem Apart.sublist (h : Apart H w l) (hsub : l'.Sublist l) : Apart H w l' where
  clear d hd := h.clear d (hsub.subset hd)
  token d hd := h.token d (hsub.subset hd)

/-- The loop takes no name away. -/
theorem text_of_reached {k : UInt64} (h : (s.reached env l).text k = none) : s.text k = none := by
  have hkept : s.text k ≠ none → (s.reached env l).text k ≠ none := fun hs =>
    sweep_state (P := fun r : RegistryIoTable => r.text k ≠ none)
      (fun _ _ hr _ hn => hr (text_of_applyOne hn)) hs
  by_contra hs
  exact hkept hs h

/-- Tables that passes make of alike ones are level, if what is waited on is the same. -/
theorem Level.applied (h : Alike H s s') (ht : Applied env s t) (ht' : Applied env s' t')
    (hreached : Alike H (s.reached env s.deferred) (s'.reached env s'.deferred))
    (hw : t.text w = none → t.attempts.lookup w = t'.attempts.lookup w)
    (hawaits : ∀ k, ¬ H k → k ≠ w → (t.awaits k ↔ t'.awaits k)) : Level H w t t' := by
  refine ⟨⟨fun k hk => ?_, fun k hk hnone => ?_, ?_⟩, fun k hk hkw => ?_⟩
  · rw [ht.text, ht'.text, hreached.text k hk]
  · by_cases hkw : k = w
    · rw [hkw] at hnone ⊢
      exact hw hnone
    · have hbefore : s.text k = none := text_of_reached (by rw [← ht.text, hnone])
      have hattempts := h.attempts k hk hbefore
      by_cases ha : t.awaits k
      · rw [ht.attempts k ha, ht'.attempts k ((hawaits k hk hkw).mp ha), hattempts]
      · rw [ht.forgotten k ha, ht'.forgotten k fun ha' => ha ((hawaits k hk hkw).mpr ha')]
  · rw [ht.pending, ht'.pending, hreached.pending]
  · rw [ht.unnamed, ht'.unnamed]
    exact and_congr_right fun _ => hawaits k hk hkw

end Two

/-! ## while the open waits -/

/-- The open and the operations wait, these on its token. -/
structure Awaiting (w : UInt64) (x : Delivery) (l : List Deferred) (t : RegistryIoTable) :
    Prop where
  deferred : t.deferred = l ++ ((x.before.map fun o => o.waits w 0)
    ++ x.opened.waits x.base w :: x.after.map fun o => o.waits w 0)
  text : t.text w = none
  attempts : t.attempts.lookup w = none
  unnamed : w ∉ t.unnamed

/-- The open was counted under `name`, which `w` has, and some operations wait on `w`. -/
structure Naming (w : UInt64) (name : WString) (ops : List Operation) (l : List Deferred)
    (t : RegistryIoTable) : Prop where
  deferred : t.deferred = l ++ ops.map fun o => o.waits w 0
  text : t.text w = some name

section Awaiting

variable {H : UInt64 → Prop} {env : Env} {s t : RegistryIoTable} {w : UInt64} {x : Delivery}
  {l : List Deferred} {name : WString}

/-- Before its token is named nothing that waits on it is ready. -/
theorem not_ready (h0 : w ≠ 0) (htext : s.text w = none) (ha : s.attempts.lookup w = none)
    {d : Deferred} (hd : d.waiting = w) : s.ready d = false := by
  rw [RegistryIoTable.text, Option.map_eq_none_iff] at htext
  rw [RegistryIoTable.ready, hd, htext, RegistryIoTable.gaveUp, ha]
  simp [h0]

/-- An open that is not ready: nothing that waits on it is either. -/
theorem reached_awaiting (h0 : w ≠ 0) (htext : s.text w = none)
    (ha : s.attempts.lookup w = none)
    (hready : s.ready (x.opened.waits x.base w) = false) :
    s.reached env ((x.before.map fun o => o.waits w 0)
        ++ x.opened.waits x.base w :: x.after.map fun o => o.waits w 0) = s
      ∧ s.left env ((x.before.map fun o => o.waits w 0)
          ++ x.opened.waits x.base w :: x.after.map fun o => o.waits w 0)
        = (x.before.map fun o => o.waits w 0)
          ++ x.opened.waits x.base w :: x.after.map fun o => o.waits w 0 := by
  refine RegistryIoTable.passed_over fun d hd => ?_
  rcases List.mem_append.mp hd with hd | hd
  · obtain ⟨o, -, rfl⟩ := List.mem_map.mp hd
    exact not_ready h0 htext ha rfl
  · rcases List.mem_cons.mp hd with rfl | hd
    · exact hready
    · obtain ⟨o, -, rfl⟩ := List.mem_map.mp hd
      exact not_ready h0 htext ha rfl

/-- An open that is ready is counted with what comes after it; what came before it was passed over
already. -/
theorem reached_opened (hx : x.Valid) (h0 : w ≠ 0) (htext : s.text w = none)
    (ha : s.attempts.lookup w = none) (hready : s.ready (x.opened.waits x.base w) = true) :
    Alike H (s.applyOne env (x.opened.waits x.base w)) (s.reached env
        ((x.before.map fun o => o.waits w 0)
          ++ x.opened.waits x.base w :: x.after.map fun o => o.waits w 0))
      ∧ s.left env ((x.before.map fun o => o.waits w 0)
          ++ x.opened.waits x.base w :: x.after.map fun o => o.waits w 0)
        = (x.before.map fun o => o.waits w 0)
      ∧ (s.reached env ((x.before.map fun o => o.waits w 0)
          ++ x.opened.waits x.base w :: x.after.map fun o => o.waits w 0)).entries
        = (x.after.map (Operation.entry
            (s.appliedName env (x.opened.waits x.base w)))).reverse
          ++ x.opened.entry (s.appliedName env (x.opened.waits x.base w)) :: s.entries
      ∧ (s.applyOne env (x.opened.waits x.base w)).text w
        = some (s.appliedName env (x.opened.waits x.base w)) := by
  have hopen : (x.opened.waits x.base w).event.isOpen = true := hx.isOpen
  have hbefore := @RegistryIoTable.passed_over env s (x.before.map fun o => o.waits w 0) (by
    intro d hd
    obtain ⟨o, -, rfl⟩ := List.mem_map.mp hd
    exact not_ready h0 htext ha rfl)
  have hnamed : (s.applyOne env (x.opened.waits x.base w)).text w
      = some (s.appliedName env (x.opened.waits x.base w)) := by
    rw [applyOne_open_text hopen, if_pos ⟨h0, rfl⟩]
  obtain ⟨halike, hleft, hentries⟩ := @reached_operations H env
    (s.applyOne env (x.opened.waits x.base w)) (x.after.map fun o => o.waits w 0) w _ (by
      intro d hd
      obtain ⟨o, ho, rfl⟩ := List.mem_map.mp hd
      exact ⟨(hx.after o ho).operation, rfl⟩) hnamed
  rw [RegistryIoTable.reached_append, RegistryIoTable.left_append, hbefore.1, hbefore.2,
    RegistryIoTable.reached_cons_ready _ hready, RegistryIoTable.left_cons_ready _ hready]
  refine ⟨halike, ?_, ?_, hnamed⟩
  · rw [hleft, List.append_nil]
  · rw [hentries, applyOne_entries, RegistryIoTable.countedName, if_pos hopen, List.map_map]
    rfl

end Awaiting

/-! ## one pass -/

/-- A table a pass makes of another. -/
structure Resolves (env : Env) (p : ResolverPass) (objects : List UInt64)
    (t r : RegistryIoTable) : Prop where
  nodup : objects.Nodup
  taken : objects.toFinset = t.unnamed
  applied : Applied env (t.answered env (objects.map p.reply)) r

section Pass

variable {H : UInt64 → Prop} {env : Env} {p : ResolverPass} {objects objects' : List UInt64}
  {t t' r r' : RegistryIoTable} {w : UInt64} {x y : Delivery} {l : List Deferred}
  {name : WString} {ops ops' : List Operation}

theorem Resolves.deferred (h : Resolves env p objects t r) :
    (t.answered env (objects.map p.reply)).deferred = t.deferred := by
  rw [answered_rest h.nodup]

theorem Resolves.pending (h : Resolves env p objects t r) :
    (t.answered env (objects.map p.reply)).pendingOpens = t.pendingOpens := by
  rw [answered_rest h.nodup]

theorem Resolves.entries (h : Resolves env p objects t r) :
    (t.answered env (objects.map p.reply)).entries = t.entries := by
  rw [RegistryIoTable.entries, answered_rest h.nodup]
  rfl

/-- A name stays, if the resolver gives no other one. -/
theorem Resolves.named (h : Resolves env p objects t r) (htext : t.text w = some name)
    (hasked : w ∈ t.unnamed → ∀ n, p.text env w = some n → n = name) :
    (t.answered env (objects.map p.reply)).text w = some name := by
  by_cases hw : w ∈ t.unnamed
  · have hmem : w ∈ objects := by
      rw [← List.mem_toFinset, h.taken]
      exact hw
    have hold : t.takeUnnamed.2.text w = some name := htext
    rw [(resolved_answered h.nodup t).text, if_pos hmem, hold]
    cases hp : p.text env w with
    | none => rfl
    | some n => rw [hasked hw n hp]; rfl
  · rw [answered_text_of_notMem h.nodup h.taken hw, htext]

theorem Unclaimed.answered {t r : RegistryIoTable} (h : Resolves env p objects t r)
    (hu : Unclaimed w l t) : Unclaimed w l (t.answered env (objects.map p.reply)) := by
  rw [Unclaimed, h.pending]
  exact hu

/-- What waits on a named address or token is counted under its name by one pass. -/
theorem reached_naming (h : Resolves env p objects t r) (happ : Apart H w l)
    (hu : Unclaimed w l t) (hn : Naming w name ops l t)
    (hops : ∀ o ∈ ops, o.event.isOpen = false)
    (hasked : w ∈ t.unnamed → ∀ n, p.text env w = some n → n = name) :
    Alike H ((t.answered env (objects.map p.reply)).reached env l)
        ((t.answered env (objects.map p.reply)).reached env t.deferred)
      ∧ (t.answered env (objects.map p.reply)).left env t.deferred
        = (t.answered env (objects.map p.reply)).left env l
      ∧ ((t.answered env (objects.map p.reply)).reached env t.deferred).entries
        = (ops.map (Operation.entry name)).reverse
          ++ ((t.answered env (objects.map p.reply)).reached env l).entries
      ∧ ((t.answered env (objects.map p.reply)).reached env t.deferred).text w = some name := by
  have htext := h.named hn.text hasked
  rw [← reached_text happ.token (hu.answered h)] at htext
  obtain ⟨halike, hleft, hentries⟩ := @reached_operations (fun _ => False) env
    ((t.answered env (objects.map p.reply)).reached env l) (ops.map fun o => o.waits w 0) w name
    (by
      intro d hd
      obtain ⟨o, ho, rfl⟩ := List.mem_map.mp hd
      exact ⟨hops o ho, rfl⟩) htext
  rw [hn.deferred, RegistryIoTable.reached_append, RegistryIoTable.left_append]
  refine ⟨halike.mono fun _ => False.elim, ?_, ?_, ?_⟩
  · rw [hleft, List.append_nil]
  · rw [hentries, List.map_map]
    rfl
  · rw [← halike.text w not_false, htext]

/-- After a pass over what waits on something named, nothing waits on it. -/
theorem pass_naming (hlevel : Level H w t t')
    (hw : isToken w = true ∨ ∀ d ∈ l, d.waiting ≠ w) (happ : Apart H w l)
    (hu : Unclaimed w l t) (hn : Naming w name ops l t) (hn' : Naming w name ops' l t')
    (hops : ∀ o ∈ ops, o.event.isOpen = false) (hops' : ∀ o ∈ ops', o.event.isOpen = false)
    (hasked : ∀ n, p.text env w = some n → w ∈ t.unnamed ∨ w ∈ t'.unnamed → n = name)
    (h : Resolves env p objects t r) (h' : Resolves env p objects' t' r') :
    ∃ l' new, l'.Sublist l ∧ Level H w r r' ∧ Unclaimed w l' r
      ∧ (Naming w name [] l' r ∧ Naming w name [] l' r') ∧ (w ∉ r.unnamed ∧ w ∉ r'.unnamed)
      ∧ r.entries = (ops.map (Operation.entry name)).reverse ++ (new ++ t.entries)
      ∧ r'.entries = (ops'.map (Operation.entry name)).reverse ++ (new ++ t'.entries) := by
  have hanswered : Alike H (t.answered env (objects.map p.reply))
      (t'.answered env (objects'.map p.reply)) := by
    refine hlevel.toAlike.answered (fun k hk => ?_) h.nodup h.taken h'.nodup h'.taken
    by_cases hkw : k = w
    · by_cases hmem : w ∈ t.unnamed ∨ w ∈ t'.unnamed
      · rw [hkw]
        exact Or.inr ⟨name, hn.text, fun n hp => hasked n hp hmem⟩
      · rw [hkw]
        exact Or.inl (iff_of_false (fun hm => hmem (Or.inl hm)) fun hm => hmem (Or.inr hm))
    · exact Or.inl (hlevel.unnamed k hk hkw)
  have hu' : Unclaimed w l t' := by
    rw [Unclaimed, ← hlevel.pending]
    exact hu
  obtain ⟨hloop, hleft, new, hnew, hnew'⟩ := hanswered.reached env happ.clear
  obtain ⟨halike, hl, hentries, htext⟩ := reached_naming h happ hu hn hops
    fun hmem n hp => hasked n hp (Or.inl hmem)
  obtain ⟨halike', hl', hentries', htext'⟩ := reached_naming h' happ hu' hn' hops'
    fun hmem n hp => hasked n hp (Or.inr hmem)
  have hd : r.deferred = (t.answered env (objects.map p.reply)).left env l := by
    rw [h.applied.deferred, h.deferred, hl]
  have hd' : r'.deferred = (t.answered env (objects.map p.reply)).left env l := by
    rw [h'.applied.deferred, h'.deferred, hl', hleft]
  have hsub : ((t.answered env (objects.map p.reply)).left env l).Sublist l := sweep_sublist _ _
  have hnot : ∀ {r : RegistryIoTable}, r.deferred
      = (t.answered env (objects.map p.reply)).left env l → (∀ k, k ∈ r.unnamed
        ↔ isToken k = false ∧ r.awaits k) → w ∉ r.unnamed := by
    intro r hr hunnamed hmem
    obtain ⟨htok, d, hd, hdw⟩ := (hunnamed w).mp hmem
    rcases hw with hw | hw
    · rw [hw] at htok
      exact absurd htok (by simp)
    · rw [hr] at hd
      exact hw d (hsub.subset hd) hdw
  refine ⟨_, new, hsub, ?_, ?_, ⟨⟨by simp [hd], ?_⟩, ⟨by simp [hd'], ?_⟩⟩,
    ⟨hnot hd h.applied.unnamed, hnot hd' h'.applied.unnamed⟩, ?_, ?_⟩
  · refine Level.applied hanswered h.applied h'.applied ?_ (fun hnone => ?_) fun k _ _ => ?_
    · rw [h.deferred, h'.deferred]
      exact halike.symm.trans (hloop.trans halike')
    · rw [h.applied.text, h.deferred, htext] at hnone
      exact absurd hnone nofun
    · rw [RegistryIoTable.awaits, RegistryIoTable.awaits, hd, hd']
  · refine hu.imp (fun hobject d hmem => hobject d (hsub.subset hmem)) fun hnone => ?_
    rw [h.applied.pending]
    refine reached_pending_none ?_ _
    rw [h.pending, hnone]
  · rw [h.applied.text, h.deferred, htext]
  · rw [h'.applied.text, h'.deferred, htext']
  · rw [h.applied.entries, h.deferred, hentries, hnew, h.entries]
  · rw [h'.applied.entries, h'.deferred, hentries', hnew', h'.entries]

/-- The same open and operations in another order, delivered at other times. -/
structure Delivery.Reorders (x y : Delivery) : Prop where
  event : x.opened.event = y.opened.event
  pid : x.opened.pid = y.opened.pid
  rest : ((x.before ++ x.after).map fun o => (o.event, o.pid)).Perm
    ((y.before ++ y.after).map fun o => (o.event, o.pid))

/-- What is waited on but for `w`. -/
theorem awaits_operations {s : RegistryIoTable} {k : UInt64}
    (hd : s.deferred = l ++ ops.map fun o => o.waits w 0) (hk : k ≠ w) :
    s.awaits k ↔ ∃ d ∈ l, d.waiting = k := by
  rw [RegistryIoTable.awaits, hd]
  constructor
  · rintro ⟨d, hmem, hw⟩
    rcases List.mem_append.mp hmem with hmem | hmem
    · exact ⟨d, hmem, hw⟩
    · obtain ⟨o, -, rfl⟩ := List.mem_map.mp hmem
      exact absurd hw.symm hk
  · rintro ⟨d, hmem, hw⟩
    exact ⟨d, List.mem_append_left _ hmem, hw⟩

theorem awaits_opened {s : RegistryIoTable} {k : UInt64}
    (hd : s.deferred = l ++ ((x.before.map fun o => o.waits w 0)
      ++ x.opened.waits x.base w :: x.after.map fun o => o.waits w 0)) (hk : k ≠ w) :
    s.awaits k ↔ (∃ d ∈ l, d.waiting = k) ∨ x.base = k := by
  rw [RegistryIoTable.awaits, hd]
  constructor
  · rintro ⟨d, hmem, hw⟩
    rcases List.mem_append.mp hmem with hmem | hmem
    · exact Or.inl ⟨d, hmem, hw⟩
    · rcases List.mem_append.mp hmem with hmem | hmem
      · obtain ⟨o, -, rfl⟩ := List.mem_map.mp hmem
        exact absurd hw.symm hk
      · rcases List.mem_cons.mp hmem with rfl | hmem
        · exact Or.inr hw
        · obtain ⟨o, -, rfl⟩ := List.mem_map.mp hmem
          exact absurd hw.symm hk
  · rintro (⟨d, hmem, hw⟩ | hw)
    · exact ⟨d, List.mem_append_left _ hmem, hw⟩
    · exact ⟨_, List.mem_append_right _ (List.mem_append_right _ List.mem_cons_self), hw⟩

/-- The elements before a waiting open, gone over by a pass. -/
theorem reached_before (h : Resolves env p objects t r) (happ : Apart H w l)
    (hobject : ∀ d ∈ l, d.event.keyObject ≠ w) (ha : Awaiting w x l t) :
    ((t.answered env (objects.map p.reply)).reached env l).text w = none
      ∧ ((t.answered env (objects.map p.reply)).reached env l).attempts.lookup w = none := by
  refine ⟨?_, ?_⟩
  · rw [reached_text happ.token (Or.inl hobject), answered_text_of_notMem h.nodup h.taken
      ha.unnamed, ha.text]
  · rw [reached_attempts, answered_attempts_of_notMem h.nodup h.taken ha.unnamed, ha.attempts]

/-- A pass while the open waits: it still waits, or it is named and what came before it is left. -/
theorem pass_awaiting (hx : x.Valid) (hy : y.Valid) (hxy : x.Reorders y)
    (hbase : ¬ H x.base) (htok : isToken w = true) (hlevel : Level H w t t') (happ : Apart H w l)
    (hobject : ∀ d ∈ l, d.event.keyObject ≠ w) (ha : Awaiting w x l t) (ha' : Awaiting w y l t')
    (h : Resolves env p objects t r) (h' : Resolves env p objects' t' r') :
    ∃ l' new, l'.Sublist l ∧ Level H w r r' ∧ (w ∉ r.unnamed ∧ w ∉ r'.unnamed)
      ∧ ((Awaiting w x l' r ∧ Awaiting w y l' r' ∧ r.entries = new ++ t.entries
          ∧ r'.entries = new ++ t'.entries)
        ∨ ∃ name, (Naming w name x.before l' r ∧ Naming w name y.before l' r')
          ∧ r.entries = (x.after.map (Operation.entry name)).reverse
            ++ x.opened.entry name :: (new ++ t.entries)
          ∧ r'.entries = (y.after.map (Operation.entry name)).reverse
            ++ y.opened.entry name :: (new ++ t'.entries)) := by
  have h0 : w ≠ 0 := by
    rintro rfl
    exact absurd htok (by decide)
  have hanswered : Alike H (t.answered env (objects.map p.reply))
      (t'.answered env (objects'.map p.reply)) := by
    refine hlevel.toAlike.answered (fun k hk => Or.inl ?_) h.nodup h.taken h'.nodup h'.taken
    by_cases hkw : k = w
    · rw [hkw]
      exact iff_of_false ha.unnamed ha'.unnamed
    · exact hlevel.unnamed k hk hkw
  obtain ⟨hloop, hleft, new, hnew, hnew'⟩ := hanswered.reached env happ.clear
  obtain ⟨htext, hattempts⟩ := reached_before h happ hobject ha
  obtain ⟨htext', hattempts'⟩ := reached_before h' happ hobject ha'
  have hsub : ((t.answered env (objects.map p.reply)).left env l).Sublist l := sweep_sublist _ _
  have hbases : x.base = y.base := congrArg RegistryEvent.baseObject hxy.event
  have hunnamed : ∀ {r : RegistryIoTable}, (∀ k, k ∈ r.unnamed
      ↔ isToken k = false ∧ r.awaits k) → w ∉ r.unnamed := by
    intro r hr hmem
    have hno := ((hr w).mp hmem).1
    rw [htok] at hno
    exact absurd hno (by simp)
  have hnone : (t.answered env (objects.map p.reply)).attempts.lookup w = none := by
    rw [answered_attempts_of_notMem h.nodup h.taken ha.unnamed, ha.attempts]
  have hnone' : (t'.answered env (objects'.map p.reply)).attempts.lookup w = none := by
    rw [answered_attempts_of_notMem h'.nodup h'.taken ha'.unnamed, ha'.attempts]
  have hforgotten : ∀ {s r : RegistryIoTable}, Applied env s r → s.attempts.lookup w = none →
      r.attempts.lookup w = none := by
    intro s r happlied hs
    by_cases hawaits : ∃ d ∈ r.deferred, d.waiting = w
    · rw [happlied.attempts w hawaits, hs]
    · exact happlied.forgotten w hawaits
  have hready : ((t.answered env (objects.map p.reply)).reached env l).ready
        (x.opened.waits x.base w)
      = ((t'.answered env (objects'.map p.reply)).reached env l).ready
        (y.opened.waits y.base w) := hloop.ready hbase hbases
  refine ⟨_, new, hsub, ?_⟩
  cases hb : ((t.answered env (objects.map p.reply)).reached env l).ready
      (x.opened.waits x.base w) with
  | false =>
    rw [hb] at hready
    obtain ⟨hr, hl⟩ := @reached_awaiting env _ w x h0 htext hattempts hb
    obtain ⟨hr', hl'⟩ := @reached_awaiting env _ w y h0 htext' hattempts' hready.symm
    have hd : r.deferred = (t.answered env (objects.map p.reply)).left env l
        ++ ((x.before.map fun o => o.waits w 0)
          ++ x.opened.waits x.base w :: x.after.map fun o => o.waits w 0) := by
      rw [h.applied.deferred, h.deferred, ha.deferred, RegistryIoTable.left_append, hl]
    have hd' : r'.deferred = (t.answered env (objects.map p.reply)).left env l
        ++ ((y.before.map fun o => o.waits w 0)
          ++ y.opened.waits y.base w :: y.after.map fun o => o.waits w 0) := by
      rw [h'.applied.deferred, h'.deferred, ha'.deferred, RegistryIoTable.left_append, hl', hleft]
    have hs : (t.answered env (objects.map p.reply)).reached env t.deferred
        = (t.answered env (objects.map p.reply)).reached env l := by
      rw [ha.deferred, RegistryIoTable.reached_append, hr]
    have hs' : (t'.answered env (objects'.map p.reply)).reached env t'.deferred
        = (t'.answered env (objects'.map p.reply)).reached env l := by
      rw [ha'.deferred, RegistryIoTable.reached_append, hr']
    refine ⟨?_, ⟨hunnamed h.applied.unnamed, hunnamed h'.applied.unnamed⟩, Or.inl
      ⟨⟨hd, ?_, hforgotten h.applied hnone, hunnamed h.applied.unnamed⟩,
        ⟨hd', ?_, hforgotten h'.applied hnone', hunnamed h'.applied.unnamed⟩, ?_, ?_⟩⟩
    · refine Level.applied hanswered h.applied h'.applied ?_ (fun _ => ?_) fun k _ hkw => ?_
      · rw [h.deferred, h'.deferred, hs, hs']
        exact hloop
      · rw [hforgotten h.applied hnone, hforgotten h'.applied hnone']
      · rw [awaits_opened hd hkw, awaits_opened hd' hkw, hbases]
    · rw [h.applied.text, h.deferred, hs, htext]
    · rw [h'.applied.text, h'.deferred, hs', htext']
    · rw [h.applied.entries, h.deferred, hs, hnew, h.entries]
    · rw [h'.applied.entries, h'.deferred, hs', hnew', h'.entries]
  | true =>
    rw [hb] at hready
    obtain ⟨hr, hl, hentries, hnamed⟩ :=
      @reached_opened (fun _ => False) env _ w x hx h0 htext hattempts hb
    obtain ⟨hr', hl', hentries', hnamed'⟩ :=
      @reached_opened (fun _ => False) env _ w y hy h0 htext' hattempts' hready.symm
    have hclear : (x.opened.waits x.base w).Clear H := ⟨hbase, fun _ => hbase⟩
    have hsame : (x.opened.waits x.base w).Same (y.opened.waits y.base w) :=
      ⟨hxy.event, hxy.pid, hbases, rfl⟩
    have hopen : (x.opened.waits x.base w).event.isOpen = true := hx.isOpen
    -- both opens get the same name
    have hname := hloop.appliedName env hclear hopen hsame
    rw [← hname] at hentries' hnamed'
    have hd : r.deferred = (t.answered env (objects.map p.reply)).left env l
        ++ x.before.map fun o => o.waits w 0 := by
      rw [h.applied.deferred, h.deferred, ha.deferred, RegistryIoTable.left_append, hl]
    have hd' : r'.deferred = (t.answered env (objects.map p.reply)).left env l
        ++ y.before.map fun o => o.waits w 0 := by
      rw [h'.applied.deferred, h'.deferred, ha'.deferred, RegistryIoTable.left_append, hl', hleft]
    have hs : (t.answered env (objects.map p.reply)).reached env t.deferred
        = ((t.answered env (objects.map p.reply)).reached env l).reached env
          ((x.before.map fun o => o.waits w 0)
            ++ x.opened.waits x.base w :: x.after.map fun o => o.waits w 0) := by
      rw [ha.deferred, RegistryIoTable.reached_append]
    have hs' : (t'.answered env (objects'.map p.reply)).reached env t'.deferred
        = ((t'.answered env (objects'.map p.reply)).reached env l).reached env
          ((y.before.map fun o => o.waits w 0)
            ++ y.opened.waits y.base w :: y.after.map fun o => o.waits w 0) := by
      rw [ha'.deferred, RegistryIoTable.reached_append]
    refine ⟨?_, ⟨hunnamed h.applied.unnamed, hunnamed h'.applied.unnamed⟩, Or.inr
      ⟨((t.answered env (objects.map p.reply)).reached env l).appliedName env
        (x.opened.waits x.base w), ⟨⟨hd, ?_⟩, ⟨hd', ?_⟩⟩, ?_, ?_⟩⟩
    · refine Level.applied hanswered h.applied h'.applied ?_ (fun _ => ?_) fun k _ hkw => ?_
      · rw [h.deferred, h'.deferred, hs, hs']
        exact ((hr.mono fun _ => False.elim).symm.trans (hloop.applyOne hclear hsame)).trans
          (hr'.mono fun _ => False.elim)
      · rw [hforgotten h.applied hnone, hforgotten h'.applied hnone']
      · rw [awaits_operations hd hkw, awaits_operations hd' hkw]
    · rw [h.applied.text, h.deferred, hs, ← hr.text w not_false, hnamed]
    · rw [h'.applied.text, h'.deferred, hs', ← hr'.text w not_false, hnamed']
    · rw [h.applied.entries, h.deferred, hs, hentries, hnew, h.entries]
    · rw [h'.applied.entries, h'.deferred, hs', hentries', hnew', h'.entries]

end Pass

/-! ## passes -/

/-- What a pass relies on. -/
structure Steady (lo hi : UInt64) (t : RegistryIoTable) : Prop where
  tallied : Tallied t
  timed : Timed (InWindow lo hi) t t.deferred

section Passes

variable {H : UInt64 → Prop} {env : Env} {p : ResolverPass} {ps : List ResolverPass}
  {objects : List UInt64} {t t' r r' : RegistryIoTable} {w lo hi : UInt64} {x y : Delivery}
  {l : List Deferred} {name : WString} {ops ops' : List Operation}

theorem Steady.resolves (env : Env) (h : Steady lo hi t) (hnodup : objects.Nodup)
    (htaken : objects.toFinset = t.unnamed) (hle : hi ≤ p.tick) (hlo : lo ≤ p.tick)
    (hidle : p.tick - lo ≤ keyIdle) :
    Resolves env p objects t (t.resolve env p objects)
      ∧ Steady lo p.tick (t.resolve env p objects) := by
  have hwindow : Timed (InWindow lo p.tick) t t.deferred :=
    h.timed.mono fun tick hw => ⟨hw.1, UInt64.le_trans hw.2 hle⟩
  exact ⟨⟨hnodup, htaken, applied_resolve h.tallied h.timed hnodup hle hlo hidle⟩,
    ⟨h.tallied.resolve, hwindow.resolve ⟨hlo, UInt64.le_refl _⟩⟩⟩

theorem coe_reverse_append {α : Type} (a b : List α) :
    ((a.reverse ++ b : List α) : Multiset α) = (a : Multiset α) + (b : Multiset α) := by
  rw [← Multiset.coe_add, Multiset.coe_reverse]

theorem Delivery.coe_operations (x : Delivery) (name : WString) :
    (x.operations.map (Operation.entry name) : Multiset Entry)
      = (x.before.map (Operation.entry name) : Multiset Entry)
        + ({x.opened.entry name} + (x.after.map (Operation.entry name) : Multiset Entry)) := by
  rw [Delivery.operations, List.map_append, List.map_cons, ← Multiset.coe_add, ← Multiset.cons_coe,
    Multiset.singleton_add]

/-- Passes after the open was named: what waited on it is counted under its name, and the same
besides. -/
theorem passes_naming (hlo : lo ≤ hi) (hps : InTime keyIdle lo hi ps) (ht : Steady lo hi t)
    (ht' : Steady lo hi t') (hlevel : Level H w t t')
    (hw : isToken w = true ∨ ∀ d ∈ l, d.waiting ≠ w) (happ : Apart H w l) (hu : Unclaimed w l t)
    (hn : Naming w name ops l t) (hn' : Naming w name ops' l t') (hops : ∀ o ∈ ops, o.event.isOpen = false)
    (hops' : ∀ o ∈ ops', o.event.isOpen = false)
    (hasked : ∀ p ∈ ps, ∀ n, p.text env w = some n → w ∈ t.unnamed ∨ w ∈ t'.unnamed → n = name)
    (hp : Passes env ps t r) (hp' : Passes env ps t' r') (hd : r.deferred = [])
    (hd' : r'.deferred = []) :
    ∃ others : Multiset Entry,
      (r.entries : Multiset Entry)
        = (ops.map (Operation.entry name) : Multiset Entry) + others + (t.entries : Multiset Entry)
      ∧ (r'.entries : Multiset Entry)
        = (ops'.map (Operation.entry name) : Multiset Entry) + others
          + (t'.entries : Multiset Entry) := by
  induction ps generalizing t t' l hi ops ops' with
  | nil =>
    obtain rfl : r = t := hp
    obtain rfl : r' = t' := hp'
    have hnil := (List.append_eq_nil_iff.mp (hn.deferred.symm.trans hd)).2
    have hnil' := (List.append_eq_nil_iff.mp (hn'.deferred.symm.trans hd')).2
    rw [List.map_eq_nil_iff] at hnil hnil'
    refine ⟨0, ?_, ?_⟩
    · rw [hnil]
      simp
    · rw [hnil']
      simp
  | cons p ps ih =>
    obtain ⟨hle, hidle, hrest⟩ := hps
    obtain ⟨objects, hnodup, htaken, hp⟩ := hp
    obtain ⟨objects', hnodup', htaken', hp'⟩ := hp'
    have hlo' := UInt64.le_trans hlo hle
    obtain ⟨hres, hsteady⟩ := ht.resolves env hnodup htaken hle hlo' hidle
    obtain ⟨hres', hsteady'⟩ := ht'.resolves env hnodup' htaken' hle hlo' hidle
    obtain ⟨l', new, hsub, hlevel', hu', ⟨hn, hn'⟩, ⟨hnot, hnot'⟩, hentries, hentries'⟩ :=
      pass_naming hlevel hw happ hu hn hn' hops hops' (hasked p List.mem_cons_self) hres hres'
    obtain ⟨others, hr, hr'⟩ := ih hlo' hrest hsteady hsteady' hlevel'
      (hw.imp_right fun hall d hmem => hall d (hsub.subset hmem)) (happ.sublist hsub) hu'
      hn hn' nofun nofun (fun _ _ _ _ hmem => absurd hmem (not_or.mpr ⟨hnot, hnot'⟩)) hp hp'
    refine ⟨(new : Multiset Entry) + others, ?_, ?_⟩
    · rw [hr, hentries, coe_reverse_append, ← Multiset.coe_add]
      simp only [List.map_nil, Multiset.coe_nil]
      abel
    · rw [hr', hentries', coe_reverse_append, ← Multiset.coe_add]
      simp only [List.map_nil, Multiset.coe_nil]
      abel

/-- Passes while the open waits: in the end it and the operations are counted under its name, and
the same besides. -/
theorem passes_awaiting (hx : x.Valid) (hy : y.Valid) (hxy : x.Reorders y) (hbase : ¬ H x.base)
    (htok : isToken w = true) (hlo : lo ≤ hi) (hps : InTime keyIdle lo hi ps)
    (ht : Steady lo hi t) (ht' : Steady lo hi t') (hlevel : Level H w t t') (happ : Apart H w l)
    (hobject : ∀ d ∈ l, d.event.keyObject ≠ w) (ha : Awaiting w x l t) (ha' : Awaiting w y l t')
    (hp : Passes env ps t r) (hp' : Passes env ps t' r') (hd : r.deferred = [])
    (hd' : r'.deferred = []) :
    ∃ (name : WString) (others : Multiset Entry),
      (r.entries : Multiset Entry) = (x.operations.map (Operation.entry name) : Multiset Entry)
        + others + (t.entries : Multiset Entry)
      ∧ (r'.entries : Multiset Entry) = (y.operations.map (Operation.entry name) : Multiset Entry)
        + others + (t'.entries : Multiset Entry) := by
  induction ps generalizing t t' l hi with
  | nil =>
    obtain rfl : r = t := hp
    have hnil := (List.append_eq_nil_iff.mp (ha.deferred.symm.trans hd)).2
    exact absurd (List.append_eq_nil_iff.mp hnil).2 (List.cons_ne_nil _ _)
  | cons p ps ih =>
    obtain ⟨hle, hidle, hrest⟩ := hps
    obtain ⟨objects, hnodup, htaken, hp⟩ := hp
    obtain ⟨objects', hnodup', htaken', hp'⟩ := hp'
    have hlo' := UInt64.le_trans hlo hle
    obtain ⟨hres, hsteady⟩ := ht.resolves env hnodup htaken hle hlo' hidle
    obtain ⟨hres', hsteady'⟩ := ht'.resolves env hnodup' htaken' hle hlo' hidle
    obtain ⟨l', new, hsub, hlevel', ⟨hnot, hnot'⟩, hcase⟩ :=
      pass_awaiting hx hy hxy hbase htok hlevel happ hobject ha ha' hres hres'
    have hobject' : ∀ d ∈ l', d.event.keyObject ≠ w := fun d hmem => hobject d (hsub.subset hmem)
    rcases hcase with ⟨hstill, hstill', hentries, hentries'⟩
      | ⟨name, ⟨hn, hn'⟩, hentries, hentries'⟩
    · obtain ⟨name, others, hr, hr'⟩ := ih hlo' hrest hsteady hsteady' hlevel'
        (happ.sublist hsub) hobject' hstill hstill' hp hp'
      refine ⟨name, (new : Multiset Entry) + others, ?_, ?_⟩
      · rw [hr, hentries, ← Multiset.coe_add]
        abel
      · rw [hr', hentries', ← Multiset.coe_add]
        abel
    · obtain ⟨others, hr, hr'⟩ := passes_naming hlo' hrest hsteady hsteady' hlevel' (Or.inl htok)
        (happ.sublist hsub) (Or.inl hobject') hn hn'
        (fun o ho => (hx.before o ho).operation) (fun o ho => (hy.before o ho).operation)
        (fun _ _ _ _ hmem => absurd hmem (not_or.mpr ⟨hnot, hnot'⟩)) hp hp' hd hd'
      refine ⟨name, (new : Multiset Entry) + others, ?_, ?_⟩
      · rw [hr, hentries, coe_reverse_append, ← Multiset.cons_coe, ← Multiset.coe_add,
          ← Multiset.singleton_add, x.coe_operations]
        abel
      · rw [hr', hentries', coe_reverse_append, ← Multiset.cons_coe, ← Multiset.coe_add,
          ← Multiset.singleton_add, y.coe_operations]
        abel

end Passes

end WinSys.Registry
