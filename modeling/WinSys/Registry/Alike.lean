import WinSys.Registry.Orderly

/-!
# Tables that name alike

What the loop of `ApplyDeferred` does depends on the names' texts, the failed attempts and the
pending opens only. Two tables that agree on these, some key objects apart, count what waits in
the same order under the same names, as long as it does not wait on one of those.
-/

namespace WinSys.Registry

open Infra

/-! ## what was counted -/

/-- A count, whenever it was made. -/
structure Entry where
  event : RegistryEvent
  name : WString
  pid : UInt32
deriving DecidableEq, Repr

def Counted.entry (c : Counted) : Entry := ⟨c.event, c.name, c.pid⟩

namespace RegistryIoTable

def entries (t : RegistryIoTable) : List Entry := t.counted.map Counted.entry

/-- The name a waiting operation is counted under. -/
def countedName (t : RegistryIoTable) (env : Env) (d : Deferred) : WString :=
  if d.event.isOpen then t.appliedName env d else (t.text d.waiting).getD []

end RegistryIoTable

/-! ## counting one waiting operation -/

section One

variable {env : Env} {t : RegistryIoTable} {d : Deferred} {name : WString} {k : UInt64}

theorem applyOne_entries : (t.applyOne env d).entries
    = ⟨d.event, t.countedName env d, d.pid⟩ :: t.entries := by
  by_cases ho : d.event.isOpen = true
  · rw [RegistryIoTable.entries, t.applyOne_open_eq env ho, RegistryIoTable.nameToken_counted,
      RegistryIoTable.countedName, if_pos ho]
    rfl
  · rw [RegistryIoTable.countedName, if_neg ho]
    unfold RegistryIoTable.applyOne
    dsimp only
    rw [if_neg ho]
    unfold RegistryIoTable.applyOperation
    split
    · next n hn =>
      have hn' : t.names.lookup d.waiting = some n := hn
      rw [RegistryIoTable.text, hn']
      rfl
    · next hn =>
      have hn' : t.names.lookup d.waiting = none := hn
      rw [RegistryIoTable.text, hn']
      rfl

/-- What has no name afterwards had none. -/
theorem text_of_applyOne (h : (t.applyOne env d).text k = none) : t.text k = none := by
  by_cases ho : d.event.isOpen = true
  · rw [applyOne_open_text ho] at h
    split at h
    · exact absurd h nofun
    · split at h
      · exact absurd h nofun
      · exact h
  · rw [applyOne_operation_text (by simpa using ho)] at h
    exact h

theorem ready_of_text (h : t.text d.waiting = some name) : t.ready d = true := by
  obtain ⟨n, hn, -⟩ := Option.map_eq_some_iff.mp h
  rw [RegistryIoTable.ready, hn]
  rfl

end One

/-! ## agreement -/

/-- Two tables agree on texts, failed attempts on what has no name and pending opens, some key
objects apart. -/
structure Alike (H : UInt64 → Prop) (t t' : RegistryIoTable) : Prop where
  text : ∀ k, ¬ H k → t.text k = t'.text k
  attempts : ∀ k, ¬ H k → t.text k = none → t.attempts.lookup k = t'.attempts.lookup k
  pending : t.pendingOpens = t'.pendingOpens

/-- What an element waits on, and the base a relative open is named after, are agreed on. -/
def Deferred.Clear (H : UInt64 → Prop) (d : Deferred) : Prop :=
  ¬ H d.waiting ∧ (d.IsRelative → ¬ H d.event.baseObject)

/-- Elements that differ in their time and tick only. -/
structure Deferred.Same (d d' : Deferred) : Prop where
  event : d.event = d'.event
  pid : d.pid = d'.pid
  waiting : d.waiting = d'.waiting
  token : d.token = d'.token

namespace Alike

variable {H : UInt64 → Prop} {env : Env} {t t' t'' : RegistryIoTable} {d d' : Deferred}

theorem refl (t : RegistryIoTable) : Alike H t t := ⟨fun _ _ => rfl, fun _ _ _ => rfl, rfl⟩

theorem symm (h : Alike H t t') : Alike H t' t where
  text k hk := (h.text k hk).symm
  attempts k hk hn := (h.attempts k hk ((h.text k hk).trans hn)).symm
  pending := h.pending.symm

theorem trans (h : Alike H t t') (h' : Alike H t' t'') : Alike H t t'' where
  text k hk := (h.text k hk).trans (h'.text k hk)
  attempts k hk hn := (h.attempts k hk hn).trans (h'.attempts k hk ((h.text k hk).symm.trans hn))
  pending := h.pending.trans h'.pending

theorem mono {H' : UInt64 → Prop} (h : Alike H t t') (hsub : ∀ k, H k → H' k) :
    Alike H' t t' where
  text k hk := h.text k fun hh => hk (hsub k hh)
  attempts k hk hn := h.attempts k (fun hh => hk (hsub k hh)) hn
  pending := h.pending

theorem ready (h : Alike H t t') (hd : ¬ H d.waiting) (hw : d.waiting = d'.waiting) :
    t.ready d = t'.ready d' := by
  have heq : t'.ready d = t'.ready d' := by
    rw [RegistryIoTable.ready, RegistryIoTable.ready, hw]
  rw [← heq]
  cases hn : t.text d.waiting with
  | none => exact ready_congr (h.text _ hd) (h.attempts _ hd hn)
  | some name =>
    have hn' : t'.text d.waiting = some name := by rw [← h.text _ hd, hn]
    rw [ready_of_text hn, ready_of_text hn']

theorem whyUnnamed {k : UInt64} (h : Alike H t t') (hk : ¬ H k) (hn : t.text k = none) :
    t.whyUnnamed k = t'.whyUnnamed k := by
  rw [RegistryIoTable.whyUnnamed, RegistryIoTable.whyUnnamed, h.attempts k hk hn]

theorem openName (env : Env) {e : RegistryEvent} (h : Alike H t t')
    (hbase : e.name.head? ≠ some backslash → ¬ H e.baseObject) :
    t.openName env e = t'.openName env e := by
  unfold RegistryIoTable.openName
  split
  · rfl
  · next hrel =>
    have htext := h.text _ (hbase hrel)
    rw [RegistryIoTable.text, RegistryIoTable.text] at htext
    cases hn : t.names.lookup e.baseObject with
    | none =>
      cases hn' : t'.names.lookup e.baseObject with
      | none => rfl
      | some n' => rw [hn, hn'] at htext; cases htext
    | some n =>
      cases hn' : t'.names.lookup e.baseObject with
      | none => rw [hn, hn'] at htext; cases htext
      | some n' =>
        rw [hn, hn'] at htext
        have heq : n.text = n'.text := Option.some.inj htext
        simp only [heq]

theorem appliedName (env : Env) (h : Alike H t t') (hd : d.Clear H) (ho : d.event.isOpen = true)
    (hs : d.Same d') : t.appliedName env d = t'.appliedName env d' := by
  rw [RegistryIoTable.appliedName, RegistryIoTable.appliedName, ← hs.event]
  by_cases hrel : d.event.name.head? = some backslash
  · rw [RegistryIoTable.openName, RegistryIoTable.openName, if_pos hrel, if_pos hrel]
    rfl
  · have hbase := hd.2 ⟨ho, hrel⟩
    have hopen := h.openName env (e := d.event) fun _ => hbase
    cases hn : t.text d.event.baseObject with
    | none =>
      rw [hopen, RegistryIoTable.unnamedBase, RegistryIoTable.unnamedBase, h.whyUnnamed hbase hn]
    | some name =>
      -- a named base leaves no use for what is known of it besides
      obtain ⟨n, hn, -⟩ := Option.map_eq_some_iff.mp hn
      rw [← hopen, RegistryIoTable.openName, if_neg hrel, hn]
      rfl

theorem countedName (h : Alike H t t') (hd : d.Clear H) (hs : d.Same d') :
    t.countedName env d = t'.countedName env d' := by
  rw [RegistryIoTable.countedName, RegistryIoTable.countedName, ← hs.event, ← hs.waiting]
  split
  · next ho => exact h.appliedName env hd ho hs
  · rw [h.text _ hd.1]

/-- Counting one waiting operation in both. -/
theorem applyOne (h : Alike H t t') (hd : d.Clear H) (hs : d.Same d') :
    Alike H (t.applyOne env d) (t'.applyOne env d') := by
  have hattempts : ∀ k, ¬ H k → t.text k = none →
      (t.applyOne env d).attempts.lookup k = (t'.applyOne env d').attempts.lookup k := by
    intro k hk hn
    rw [applyOne_attempts, applyOne_attempts]
    exact h.attempts k hk hn
  by_cases ho : d.event.isOpen = true
  · have hname := h.appliedName env hd ho hs
    have ho' : d'.event.isOpen = true := by rw [← hs.event]; exact ho
    refine ⟨fun k hk => ?_, fun k hk hn => hattempts k hk (text_of_applyOne hn), ?_⟩
    · rw [applyOne_open_text ho, applyOne_open_text ho', ← hs.event, ← hs.token, ← hname,
        h.pending, h.text k hk]
    · rw [applyOne_open_pending ho, applyOne_open_pending ho', ← hs.event, ← hs.token, h.pending]
  · have hno : d.event.isOpen = false := by simpa using ho
    have hno' : d'.event.isOpen = false := by rw [← hs.event]; exact hno
    refine ⟨fun k hk => ?_, fun k hk hn => hattempts k hk (text_of_applyOne hn), ?_⟩
    · rw [applyOne_operation_text hno, applyOne_operation_text hno']
      exact h.text k hk
    · rw [(RegistryIoTable.applyOne_operation t env ho).2,
        (RegistryIoTable.applyOne_operation t' env (by simp [hno'])).2]
      exact h.pending

/-- Counting an operation changes nothing that is agreed on. -/
theorem of_operation (ho : d.event.isOpen = false) (t : RegistryIoTable) :
    Alike H t (t.applyOne env d) where
  text k _ := (applyOne_operation_text ho).symm
  attempts k _ _ := by rw [applyOne_attempts]
  pending := ((RegistryIoTable.applyOne_operation t env (by simp [ho])).2).symm

end Alike

/-! ## the loop -/

namespace RegistryIoTable

/-- What the loop of `ApplyDeferred` leaves of some elements. -/
def left (env : Env) (t : RegistryIoTable) (l : List Deferred) : List Deferred :=
  (sweep ready (fun t d => t.applyOne env d) t l).2

variable {env : Env} {t : RegistryIoTable} {d : Deferred}

theorem reached_append (as bs : List Deferred) :
    t.reached env (as ++ bs) = (t.reached env as).reached env bs := by
  rw [reached, sweep_append]
  rfl

theorem left_append (as bs : List Deferred) :
    t.left env (as ++ bs) = t.left env as ++ (t.reached env as).left env bs := by
  rw [left, sweep_append]
  rfl

theorem reached_cons_ready (l : List Deferred) (h : t.ready d = true) :
    t.reached env (d :: l) = (t.applyOne env d).reached env l := by
  rw [reached, sweep_cons_take _ h]
  rfl

theorem left_cons_ready (l : List Deferred) (h : t.ready d = true) :
    t.left env (d :: l) = (t.applyOne env d).left env l := by
  rw [left, sweep_cons_take _ h]
  rfl

/-- Elements of which none is ready are passed over. -/
theorem passed_over {l : List Deferred} (h : ∀ d ∈ l, t.ready d = false) :
    t.reached env l = t ∧ t.left env l = l := by
  have hnone := @sweep_of_none _ _ ready (fun t d => t.applyOne env d) t l h
  exact ⟨congrArg Prod.fst hnone, congrArg Prod.snd hnone⟩

end RegistryIoTable

section Loop

variable {H : UInt64 → Prop} {env : Env} {t t' : RegistryIoTable} {l : List Deferred}

/-- The loop goes over the same elements in tables that name alike. -/
theorem Alike.reached (env : Env) (h : Alike H t t') (hl : ∀ d ∈ l, d.Clear H) :
    Alike H (t.reached env l) (t'.reached env l) ∧ t.left env l = t'.left env l
      ∧ ∃ new, (t.reached env l).entries = new ++ t.entries
        ∧ (t'.reached env l).entries = new ++ t'.entries := by
  have hsweep : (Alike H (t.reached env l) (t'.reached env l)
      ∧ ∃ new, (t.reached env l).entries = new ++ t.entries
        ∧ (t'.reached env l).entries = new ++ t'.entries)
      ∧ t.left env l = t'.left env l := by
    refine sweep_related (R := fun s s' => Alike H s s' ∧ ∃ new, s.entries = new ++ t.entries
      ∧ s'.entries = new ++ t'.entries) (fun s s' d hd hs => hs.1.ready (hl d hd).1 rfl) ?_
      ⟨h, [], rfl, rfl⟩
    rintro s s' d hd ⟨hs, new, hnew, hnew'⟩
    have hsame : d.Same d := ⟨rfl, rfl, rfl, rfl⟩
    refine ⟨hs.applyOne (hl d hd) hsame, ⟨d.event, s.countedName env d, d.pid⟩ :: new, ?_, ?_⟩
    · rw [applyOne_entries, hnew]
      rfl
    · rw [applyOne_entries, hnew', ← hs.countedName (hl d hd) hsame]
      rfl
  exact ⟨hsweep.1.1, hsweep.2, hsweep.1.2⟩

/-- Operations that wait on something named are all counted under that name. -/
theorem reached_operations {x : UInt64} {name : WString}
    (hl : ∀ d ∈ l, d.event.isOpen = false ∧ d.waiting = x) (hx : t.text x = some name) :
    Alike H t (t.reached env l) ∧ t.left env l = []
      ∧ (t.reached env l).entries
        = (l.map fun d => ⟨d.event, name, d.pid⟩).reverse ++ t.entries := by
  induction l generalizing t with
  | nil => exact ⟨Alike.refl t, rfl, rfl⟩
  | cons d l ih =>
    obtain ⟨ho, hw⟩ := hl d List.mem_cons_self
    have hready : t.ready d = true := ready_of_text (by rw [hw, hx])
    have hone : Alike H t (t.applyOne env d) := Alike.of_operation ho t
    obtain ⟨halike, hleft, hentries⟩ := ih (t := t.applyOne env d)
      (fun e he => hl e (List.mem_cons_of_mem d he)) (by rw [applyOne_operation_text ho, hx])
    refine ⟨?_, ?_, ?_⟩
    · rw [RegistryIoTable.reached_cons_ready l hready]
      exact hone.trans halike
    · rw [RegistryIoTable.left_cons_ready l hready]
      exact hleft
    · rw [RegistryIoTable.reached_cons_ready l hready, hentries, applyOne_entries,
        RegistryIoTable.countedName, ho, hw, hx]
      simp

end Loop

end WinSys.Registry
