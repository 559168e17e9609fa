import WinSys.Registry.Alike
import WinSys.Registry.Drain

/-!
# The resolver over several passes

A resolver pass takes the key objects waited on, answers for each of them in any order, applies its
answers and prunes (`RegistryIoTracker::Resolve`). What it answers depends on the pass and the key
object, not on the table.
-/

namespace WinSys.Registry

open Infra

/-! ## passes -/

/-- A name the resolver found. -/
abbrev KeyName := { name : WString // name ≠ [] }

/-- A pass: what it finds out about a key object, and the tick it ends at. -/
structure ResolverPass where
  answer : UInt64 → Except RegistryUnnamed KeyName
  tick : UInt64

def ResolverPass.reply (p : ResolverPass) (object : UInt64) : Answer :=
  match p.answer object with
  | .ok name => .named object name p.tick
  | .error why => .failed object why

/-- The table after a pass that answered in the order of `objects`. -/
def RegistryIoTable.resolve (env : Env) (t : RegistryIoTable) (p : ResolverPass)
    (objects : List UInt64) : RegistryIoTable :=
  (t.pass env (objects.map p.reply)).prune p.tick

/-- A table that passes make of another: each answers once for every key object it took. -/
def Passes (env : Env) : List ResolverPass → RegistryIoTable → RegistryIoTable → Prop
  | [], t, t' => t' = t
  | p :: ps, t, t' => ∃ objects : List UInt64, objects.Nodup ∧ objects.toFinset = t.unnamed
      ∧ Passes env ps (t.resolve env p objects) t'

/-! ## answers -/

section Replies

variable {env : Env} {p : ResolverPass} {objects : List UInt64} {k : UInt64}

/-- A name answered, as the table shows it. -/
def ResolverPass.text (p : ResolverPass) (env : Env) (object : UInt64) : Option WString :=
  match p.answer object with
  | .ok name => some (env.registryName name)
  | .error _ => none

/-- What an answer makes of the failed attempts on its key object. -/
def ResolverPass.attempts (p : ResolverPass) (object : UInt64) (a : Option Attempts) :
    Option Attempts :=
  match p.answer object with
  | .ok _ => a
  | .error why => some ⟨(a.getD {}).count + 1, why⟩

/-- What one answer changes. -/
structure Replied (env : Env) (p : ResolverPass) (object : UInt64) (t t' : RegistryIoTable) :
    Prop where
  text : ∀ k, t'.text k = if k = object then (p.text env object <|> t.text object) else t.text k
  attempts : ∀ k, t'.attempts.lookup k
    = if k = object then p.attempts object (t.attempts.lookup object) else t.attempts.lookup k
  rest : t' = { t with names := t'.names, attempts := t'.attempts }

theorem replied_reply (t : RegistryIoTable) (object : UInt64) :
    Replied env p object t (t.step env (p.reply object).call) := by
  cases ha : p.answer object with
  | ok name =>
    have hreply : p.reply object = .named object name p.tick := by simp [ResolverPass.reply, ha]
    rw [hreply]
    refine ⟨fun k => ?_, fun k => ?_, rfl⟩
    · show ((t.names.insert object _).lookup k).map Name.text = _
      rw [Finmap.lookup_insert_eq, ResolverPass.text, ha]
      split
      · rfl
      · rfl
    · rw [ResolverPass.attempts, ha]
      split
      · next hk => rw [hk]; rfl
      · rfl
  | error why =>
    have hreply : p.reply object = .failed object why := by simp [ResolverPass.reply, ha]
    rw [hreply]
    refine ⟨fun k => ?_, fun k => ?_, rfl⟩
    · rw [ResolverPass.text, ha]
      split
      · next hk => rw [hk]; rfl
      · rfl
    · show (t.attempts.insert object _).lookup k = _
      rw [Finmap.lookup_insert_eq, ResolverPass.attempts, ha]

/-- What a pass's answers change: names and attempts of what it took. -/
structure Resolved (env : Env) (p : ResolverPass) (objects : List UInt64)
    (t t' : RegistryIoTable) : Prop where
  text : ∀ k, t'.text k = if k ∈ objects then (p.text env k <|> t.text k) else t.text k
  attempts : ∀ k, t'.attempts.lookup k
    = if k ∈ objects then p.attempts k (t.attempts.lookup k) else t.attempts.lookup k
  rest : t' = { t with names := t'.names, attempts := t'.attempts }

theorem resolved_replies (hnodup : objects.Nodup) (t : RegistryIoTable) :
    Resolved env p objects t
      (run (RegistryIoTable.step env) t ((objects.map p.reply).map Answer.call)) := by
  induction objects generalizing t with
  | nil => exact ⟨fun k => by simp, fun k => by simp, rfl⟩
  | cons object objects ih =>
    obtain ⟨hnot, hnodup⟩ := List.nodup_cons.mp hnodup
    have hone := @replied_reply env p t object
    have hrest := ih hnodup (t.step env (p.reply object).call)
    simp only [List.map_cons, run_cons]
    refine ⟨fun k => ?_, fun k => ?_, ?_⟩
    · rw [hrest.text, hone.text]
      by_cases hk : k = object
      · subst hk
        simp [hnot]
      · simp [hk]
    · rw [hrest.attempts, hone.attempts]
      by_cases hk : k = object
      · subst hk
        simp [hnot]
      · simp [hk]
    · rw [hrest.rest, hone.rest]

/-- The table with a pass's answers. -/
theorem resolved_answered (hnodup : objects.Nodup) (t : RegistryIoTable) :
    Resolved env p objects t.takeUnnamed.2 (t.answered env (objects.map p.reply)) :=
  resolved_replies hnodup t.takeUnnamed.2

/-- Answers by one pass keep tables alike, if it was asked the same, or else answers with the name
that is there. -/
theorem Alike.answered {H : UInt64 → Prop} {objects' : List UInt64} {t t' : RegistryIoTable}
    (h : Alike H t t') (hu : ∀ k, ¬ H k → (k ∈ t.unnamed ↔ k ∈ t'.unnamed)
      ∨ ∃ name, t.text k = some name ∧ ∀ n, p.text env k = some n → n = name)
    (hnodup : objects.Nodup) (htaken : objects.toFinset = t.unnamed)
    (hnodup' : objects'.Nodup) (htaken' : objects'.toFinset = t'.unnamed) :
    Alike H (t.answered env (objects.map p.reply)) (t'.answered env (objects'.map p.reply)) := by
  have hres := @resolved_answered env p objects hnodup t
  have hres' := @resolved_answered env p objects' hnodup' t'
  have hmem : ∀ k, (k ∈ t.unnamed ↔ k ∈ t'.unnamed) → (k ∈ objects ↔ k ∈ objects') := by
    intro k hk
    rw [← List.mem_toFinset, ← List.mem_toFinset, htaken, htaken']
    exact hk
  have hnamed : ∀ (s : RegistryIoTable) (l : List UInt64) k name, s.text k = some name →
      (∀ n, p.text env k = some n → n = name) →
      (if k ∈ l then (p.text env k <|> s.text k) else s.text k) = some name := by
    intro s l k name hs hn
    rw [hs]
    cases hp : p.text env k with
    | none => simp
    | some n => simp [hn n hp]
  have htext : ∀ k, ¬ H k → t.takeUnnamed.2.text k = t'.takeUnnamed.2.text k := h.text
  refine ⟨fun k hk => ?_, fun k hk hnone => ?_, ?_⟩
  · rw [hres.text, hres'.text]
    rcases hu k hk with hsame | ⟨name, hname, hn⟩
    · rw [htext k hk]
      simp only [hmem k hsame]
    · have hname : t.takeUnnamed.2.text k = some name := hname
      have hname' : t'.takeUnnamed.2.text k = some name := by rw [← htext k hk, hname]
      rw [hnamed _ _ k name hname hn, hnamed _ _ k name hname' hn]
  · rw [hres.text] at hnone
    rcases hu k hk with hsame | ⟨name, hname, hn⟩
    · have hbefore : t.takeUnnamed.2.text k = none := by
        split at hnone
        · cases hs : t.takeUnnamed.2.text k with
          | none => rfl
          | some n =>
            rw [hs] at hnone
            cases hp : p.text env k <;> simp [hp] at hnone
        · exact hnone
      have hattempts : t.takeUnnamed.2.attempts.lookup k = t'.takeUnnamed.2.attempts.lookup k :=
        h.attempts k hk hbefore
      rw [hres.attempts, hres'.attempts, hattempts]
      simp only [hmem k hsame]
    · have hname : t.takeUnnamed.2.text k = some name := hname
      rw [hnamed _ _ k name hname hn] at hnone
      exact absurd hnone nofun
  · rw [hres.rest, hres'.rest]
    exact h.pending

/-- Nothing is answered about what was not taken. -/
theorem answered_text_of_notMem {t : RegistryIoTable} (hnodup : objects.Nodup)
    (htaken : objects.toFinset = t.unnamed) (hk : k ∉ t.unnamed) :
    (t.answered env (objects.map p.reply)).text k = t.text k := by
  have hnot : k ∉ objects := by
    rw [← List.mem_toFinset, htaken]
    exact hk
  rw [(resolved_answered hnodup t).text, if_neg hnot]
  rfl

theorem answered_attempts_of_notMem {t : RegistryIoTable} (hnodup : objects.Nodup)
    (htaken : objects.toFinset = t.unnamed) (hk : k ∉ t.unnamed) :
    (t.answered env (objects.map p.reply)).attempts.lookup k = t.attempts.lookup k := by
  have hnot : k ∉ objects := by
    rw [← List.mem_toFinset, htaken]
    exact hk
  rw [(resolved_answered hnodup t).attempts, if_neg hnot]
  rfl

theorem answered_rest {t : RegistryIoTable} (hnodup : objects.Nodup) :
    t.answered env (objects.map p.reply) = { t with
      names := (t.answered env (objects.map p.reply)).names
      attempts := (t.answered env (objects.map p.reply)).attempts
      unnamed := ∅, taken := t.taken ∪ t.unnamed } :=
  (resolved_answered hnodup t).rest

end Replies

/-! ## ticks in a window -/

def InWindow (lo hi tick : UInt64) : Prop := lo ≤ tick ∧ tick ≤ hi

/-- Nothing in the window is idle. -/
theorem InWindow.not_idle {lo hi tick now idle : UInt64} (h : InWindow lo hi tick)
    (hle : hi ≤ now) (hidle : now - lo ≤ idle) : ¬ now - tick > idle := by
  have htick : tick ≤ now := UInt64.le_trans h.2 hle
  have hlo : lo ≤ now := UInt64.le_trans h.1 htick
  have hsub := UInt64.toNat_sub_of_le now tick htick
  have hsub' := UInt64.toNat_sub_of_le now lo hlo
  have h1 := UInt64.le_iff_toNat_le.mp h.1
  have h2 := UInt64.le_iff_toNat_le.mp htick
  have h3 := UInt64.le_iff_toNat_le.mp hidle
  show ¬ idle < now - tick
  rw [UInt64.lt_iff_toNat_lt]
  omega

section Window

variable {W : UInt64 → Prop} {env : Env} {p : ResolverPass} {objects : List UInt64}
  {t : RegistryIoTable} {lo hi tick : UInt64} {l : List Deferred}

theorem keyIdle_le_nameIdle : keyIdle ≤ nameIdle := by decide

/-- Pruning at the end of the window forgets no row and no name. -/
theorem prune_window (h : Timed (InWindow lo hi) t l) (hle : hi ≤ tick)
    (hidle : tick - lo ≤ keyIdle) :
    (t.prune tick).rows = t.rows ∧ (t.prune tick).names = t.names := by
  show t.rows.eraseIf (fun _ r => tick - r.lastTick > keyIdle) = t.rows
    ∧ t.names.eraseIf (fun _ n => tick - n.tick > nameIdle) = t.names
  refine ⟨Finmap.eraseIf_of_forall fun id r hr => ?_, Finmap.eraseIf_of_forall fun k n hn => ?_⟩
  · simpa using (h.rows id r hr).not_idle hle hidle
  · simpa using (h.names k n hn).2.not_idle hle (UInt64.le_trans hidle keyIdle_le_nameIdle)

/-- The attempts of what is still waited on are kept. -/
theorem prune_attempts {k : UInt64} : (t.prune tick).attempts.lookup k
    = if k ∈ t.waiting then t.attempts.lookup k else none := by
  show (t.attempts.eraseIf fun object _ => object ∉ t.waiting).lookup k = _
  rw [Finmap.lookup_eraseIf]
  by_cases hk : k ∈ t.waiting
  · cases hl : t.attempts.lookup k <;> simp [hk]
  · cases hl : t.attempts.lookup k <;> simp [hk]

theorem Timed.answered (h : Timed W t t.deferred) (hw : W p.tick) :
    Timed W (t.answered env (objects.map p.reply))
      (t.answered env (objects.map p.reply)).deferred := by
  have hstart : Timed W t.takeUnnamed.2 t.takeUnnamed.2.deferred := h.of_eq rfl rfl
  refine run_invariant_mem _ (fun s : RegistryIoTable => Timed W s s.deferred)
    (fun s c hs (hc : c.TimedBy W) => hs.step hc) hstart fun c hc => ?_
  obtain ⟨a, ha, rfl⟩ := List.mem_map.mp hc
  obtain ⟨object, -, rfl⟩ := List.mem_map.mp ha
  unfold ResolverPass.reply
  split
  · next name _ => exact ⟨name.2, hw⟩
  · trivial

theorem Timed.pass (env : Env) (objects : List UInt64) (h : Timed W t t.deferred)
    (hw : W p.tick) :
    Timed W (t.pass env (objects.map p.reply)) (t.pass env (objects.map p.reply)).deferred :=
  (h.answered hw).applyDeferred

theorem Timed.resolve (h : Timed W t t.deferred) (hw : W p.tick) :
    Timed W (t.resolve env p objects) (t.resolve env p objects).deferred := by
  have hpass : Timed W (t.pass env (objects.map p.reply))
      (t.pass env (objects.map p.reply)).deferred := h.pass env objects hw
  exact @Timed.step W env _ (.prune p.tick) hpass trivial

end Window

/-! ## what a pass comes to -/

/-- A table that a pass makes of the one with its answers. -/
structure Applied (env : Env) (s t : RegistryIoTable) : Prop where
  text : ∀ k, t.text k = (s.reached env s.deferred).text k
  pending : t.pendingOpens = (s.reached env s.deferred).pendingOpens
  entries : t.entries = (s.reached env s.deferred).entries
  deferred : t.deferred = s.left env s.deferred
  attempts : ∀ k, (∃ d ∈ t.deferred, d.waiting = k) →
    t.attempts.lookup k = s.attempts.lookup k
  forgotten : ∀ k, (¬ ∃ d ∈ t.deferred, d.waiting = k) → t.attempts.lookup k = none
  unnamed : ∀ k, k ∈ t.unnamed ↔ isToken k = false ∧ ∃ d ∈ t.deferred, d.waiting = k

section Applied

variable {env : Env} {p : ResolverPass} {objects : List UInt64} {t : RegistryIoTable}
  {lo hi : UInt64}

theorem applyOne_unnamed (t : RegistryIoTable) (d : Deferred) :
    (t.applyOne env d).unnamed = t.unnamed := by
  unfold RegistryIoTable.applyOne
  dsimp only
  split
  · simp [RegistryIoTable.applyOpen]
  · unfold RegistryIoTable.applyOperation
    split <;> rfl

theorem reached_unnamed (s : RegistryIoTable) (l : List Deferred) :
    (s.reached env l).unnamed = s.unnamed :=
  sweep_state (P := fun r : RegistryIoTable => r.unnamed = s.unnamed)
    (fun r d hr _ => (applyOne_unnamed r d).trans hr) rfl

theorem Tallied.resolve (h : Tallied t) : Tallied (t.resolve env p objects) := by
  have hanswered : Tallied (t.answered env (objects.map p.reply)) :=
    run_invariant_mem _ Tallied (fun _ c hs (_ : True) => hs.step c)
      (h.of_eq rfl rfl) fun _ _ => trivial
  exact hanswered.applyDeferred.of_eq rfl rfl

theorem applied_resolve (htallied : Tallied t) (htimed : Timed (InWindow lo hi) t t.deferred)
    (hnodup : objects.Nodup) (hle : hi ≤ p.tick) (hlo : lo ≤ p.tick)
    (hidle : p.tick - lo ≤ keyIdle) :
    Applied env (t.answered env (objects.map p.reply)) (t.resolve env p objects) := by
  have hwindow : Timed (InWindow lo p.tick) t t.deferred :=
    htimed.mono fun tick hw => ⟨hw.1, UInt64.le_trans hw.2 hle⟩
  have hkept := prune_window (hwindow.pass env objects
    ⟨hlo, UInt64.le_refl _⟩) (UInt64.le_refl _) hidle
  have hwaiting : ∀ k, k ∈ (t.resolve env p objects).waiting
      ↔ ∃ d ∈ (t.resolve env p objects).deferred, d.waiting = k :=
    fun k => (htallied.resolve.tally.mem_iff k).trans List.mem_map
  have hattempts : (t.pass env (objects.map p.reply)).attempts
      = (t.answered env (objects.map p.reply)).attempts := reached_attempts _
  refine ⟨fun k => ?_, rfl, rfl, rfl, fun k hk => ?_, fun k hk => ?_, fun k => ?_⟩
  · rw [RegistryIoTable.text, RegistryIoTable.resolve, hkept.2]
    rfl
  · have hk' : k ∈ (t.pass env (objects.map p.reply)).waiting := (hwaiting k).mpr hk
    rw [RegistryIoTable.resolve, prune_attempts, if_pos hk', hattempts]
  · have hk' : k ∉ (t.pass env (objects.map p.reply)).waiting :=
      fun hmem => hk ((hwaiting k).mp hmem)
    rw [RegistryIoTable.resolve, prune_attempts, if_neg hk']
  · rw [← hwaiting]
    have hempty : ((t.answered env (objects.map p.reply)).applySweep env).1.unnamed = ∅ := by
      refine (reached_unnamed _ _).trans ?_
      rw [answered_rest hnodup]
    show k ∈ ((t.answered env (objects.map p.reply)).applySweep env).1.unnamed
      ∪ (t.pass env (objects.map p.reply)).waiting.keys.filter (fun object => !isToken object) ↔ _
    rw [hempty, Finset.empty_union, Finset.mem_filter, Finmap.mem_keys]
    simp only [Bool.not_eq_true']
    exact And.comm

end Applied

end WinSys.Registry
