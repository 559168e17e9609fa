import WinSys.Registry.Queue

/-!
# The ticks, texts and tokens of a table

Two invariants of every run. `Timed`: no name is empty, and every tick the table keeps is one it
was given. `Fresh`: no token is used before it is handed out, and neither the resolver's queue nor
its failures are about tokens.
-/

namespace WinSys.Registry

open Infra

/-! ## ticks and texts -/

/-- No name is empty, and the ticks kept are of some kind. -/
structure Timed (W : UInt64 → Prop) (t : RegistryIoTable) (l : List Deferred) : Prop where
  rows : ∀ id r, t.rows.lookup id = some r → W r.lastTick
  names : ∀ k n, t.names.lookup k = some n → n.text ≠ [] ∧ W n.tick
  waiting : ∀ d ∈ l, W d.tick

/-- A call's ticks are of the kind, and its name is not empty. -/
def Call.TimedBy (W : UInt64 → Prop) : Call → Prop
  | .onEvent _ _ _ tick => W tick
  | .setName _ name tick => name ≠ [] ∧ W tick
  | _ => True

namespace Timed

variable {W W' : UInt64 → Prop} {env : Env} {t : RegistryIoTable} {l : List Deferred}
  {e : RegistryEvent} {name : WString} {pid : UInt32} {time : ℤ} {tick : UInt64} {d : Deferred}

theorem start : Timed W {} [] where
  rows id r h := by simp at h
  names k n h := by simp at h
  waiting _ hd := absurd hd List.not_mem_nil

theorem mono (h : Timed W t l) (hw : ∀ tick, W tick → W' tick) : Timed W' t l where
  rows id r hr := hw _ (h.rows id r hr)
  names k n hn := ⟨(h.names k n hn).1, hw _ (h.names k n hn).2⟩
  waiting d hd := hw _ (h.waiting d hd)

theorem subset {l' : List Deferred} (h : Timed W t l) (hsub : l' ⊆ l) : Timed W t l' where
  rows := h.rows
  names := h.names
  waiting d hd := h.waiting d (hsub hd)

theorem texts (h : Timed W t l) : ∀ k n, t.names.lookup k = some n → n.text ≠ [] :=
  fun k n hn => (h.names k n hn).1

/-- Rows and names may be forgotten. -/
theorem forget {t' : RegistryIoTable} (h : Timed W t l)
    (hr : ∀ id r, t'.rows.lookup id = some r → t.rows.lookup id = some r)
    (hn : ∀ k n, t'.names.lookup k = some n → t.names.lookup k = some n) : Timed W t' l where
  rows id r hir := h.rows id r (hr id r hir)
  names k n hkn := h.names k n (hn k n hkn)
  waiting := h.waiting

theorem of_eq {t' : RegistryIoTable} (h : Timed W t l) (hr : t'.rows = t.rows)
    (hn : t'.names = t.names) : Timed W t' l :=
  h.forget (fun _ _ hl => by rw [← hr]; exact hl) (fun _ _ hl => by rw [← hn]; exact hl)

theorem insert_name {k : UInt64} {n : Name} (h : Timed W t l) (hn : n.text ≠ [] ∧ W n.tick) :
    Timed W { t with names := t.names.insert k n } l := by
  refine ⟨h.rows, fun j m hj => ?_, h.waiting⟩
  have hj' : (t.names.insert k n).lookup j = some m := hj
  rw [Finmap.lookup_insert_eq] at hj'
  split at hj'
  · rw [← Option.some.inj hj']
    exact hn
  · exact h.names j m hj'

theorem count (h : Timed W t l) (hw : W tick) (b : Bool) :
    Timed W (t.count env e name pid time tick b) l := by
  have hrows : Timed W { t with
      rows := t.rows.insert (env.rowId e name pid) (t.countedRow env e name pid time tick) } l := by
    refine ⟨fun id r hr => ?_, h.names, h.waiting⟩
    have hr' : (t.rows.insert (env.rowId e name pid)
        (t.countedRow env e name pid time tick)).lookup id = some r := hr
    rw [Finmap.lookup_insert_eq] at hr'
    split at hr'
    · rw [← Option.some.inj hr']
      exact hw
    · exact h.rows id r hr'
  -- a base's use is noted: its text and its tick stay
  have hnoted : ∀ k n, (t.noteBase env e name tick).lookup k = some n → n.text ≠ [] ∧ W n.tick := by
    intro k n hk
    rcases @RegistryIoTable.noteBase_lookup env t e name tick k with hsame | ⟨m, hm, -, hnew⟩
    · exact h.names k n (hsame ▸ hk)
    · rw [hnew, Option.some.injEq] at hk
      rw [← hk]
      exact h.names k m hm
  refine ⟨hrows.rows, fun k n hk => ?_, h.waiting⟩
  rw [RegistryIoTable.count_names] at hk
  split at hk
  · next hn =>
    have hne : name ≠ [] := by
      simp only [RegistryEvent.names, Bool.and_eq_true, decide_eq_true_eq] at hn
      exact hn.1.2
    rw [Finmap.lookup_insert_eq] at hk
    split at hk
    · rw [← Option.some.inj hk]
      exact ⟨hne, hw⟩
    · exact hnoted k n hk
  · exact hnoted k n hk

theorem nameToken (h : Timed W t l) (hne : name ≠ []) (hw : W tick) (d : Deferred) :
    Timed W (t.nameToken d name tick) l := by
  by_cases h0 : d.token = 0
  · exact h.of_eq (by simp) (by rw [RegistryIoTable.nameToken_names, if_pos h0])
  · refine (h.insert_name (k := d.token) (n := ⟨name, tick, [tick]⟩) ⟨hne, hw⟩).of_eq
      (by simp) ?_
    rw [RegistryIoTable.nameToken_names, if_neg h0]

/-- A name used keeps its text and gets the tick of the use, or keeps the newer one it has. -/
theorem useName {k : UInt64} {n : Name} {used : UInt64} (h : Timed W t l)
    (hn : t.names.lookup k = some n) (ht : W tick) : Timed W (t.useName k n tick used) l :=
  h.insert_name ⟨(h.names k n hn).1, ht⟩

theorem append (h : Timed W t l) (hw : W d.tick) : Timed W t (l ++ [d]) where
  rows := h.rows
  names := h.names
  waiting x hx := by
    rcases List.mem_append.mp hx with hx | hx
    · exact h.waiting x hx
    · rw [List.mem_singleton.mp hx]
      exact hw

theorem defer {waiting token : UInt64} (h : Timed W t t.deferred) (hw : W tick) :
    Timed W (t.defer env e pid time tick waiting token)
      (t.defer env e pid time tick waiting token).deferred := by
  unfold RegistryIoTable.defer
  split
  · split
    · rw [RegistryIoTable.nameToken_deferred]
      exact (h.count hw true).nameToken (RegistryIoTable.unnamedBase_ne_nil _ _) hw _
    · split
      · exact h.count hw true
      · exact h.count hw true
  · have hd : W (⟨e, pid, time, tick, waiting, token⟩ : Deferred).tick := hw
    exact (h.append hd).of_eq rfl rfl

theorem newKeyObject (h : Timed W t t.deferred) (object : UInt64) (stamp : ℤ) :
    Timed W (t.newKeyObject env object stamp) (t.newKeyObject env object stamp).deferred := by
  unfold RegistryIoTable.newKeyObject RegistryIoTable.flushWaiting
  split
  · exact h
  · split
    · exact h.of_eq rfl rfl
    · have hsweep : Timed W (t.flushSweep env object stamp).1
          (t.flushSweep env object stamp).2 := by
        refine RegistryIoTable.flushSweep_invariant (h.of_eq rfl rfl) ?_
        intro s kept d rest hs _ _
        have hrest : Timed W s (kept ++ rest) := hs.subset fun x hx => mem_skip hx
        exact (hrest.count (hs.waiting d (by simp)) true).of_eq rfl rfl
      exact hsweep.of_eq rfl rfl

theorem retarget (h : Timed W t t.deferred) (object : UInt64) (stamp : ℤ) (token : UInt64) :
    Timed W (t.retarget object stamp token) (t.retarget object stamp token).deferred := by
  have hwaiting : ∀ d ∈ (t.retarget object stamp token).deferred, W d.tick := by
    intro d hd
    have hmem := List.mem_map_of_mem (f := Deferred.operation) hd
    rw [t.retarget_map_operation] at hmem
    obtain ⟨x, hx, heq⟩ := List.mem_map.mp hmem
    rw [show d.tick = x.tick from (congrArg Operation.tick heq).symm]
    exact h.waiting x hx
  exact ⟨by simpa using h.rows, by simpa using h.names, hwaiting⟩

theorem deferOpen (h : Timed W t t.deferred) (hw : W tick) :
    Timed W (t.deferOpen env e pid time tick) (t.deferOpen env e pid time tick).deferred := by
  unfold RegistryIoTable.deferOpen
  split
  · have hpend : Timed W (t.pend e.keyObject) (t.pend e.keyObject).deferred := by
      refine h.forget (fun _ _ hr => hr) fun k n hn => ?_
      have hn' : (t.names.erase e.keyObject).lookup k = some n := hn
      rw [Finmap.lookup_erase_eq] at hn'
      split at hn'
      · exact absurd hn' nofun
      · exact hn'
    exact (hpend.retarget _ _ _).defer hw
  · exact h.defer hw

theorem onOpen (h : Timed W t t.deferred) (hw : W tick) :
    Timed W (t.onOpen env e pid time tick) (t.onOpen env e pid time tick).deferred := by
  have hn : Timed W (t.newKeyObject env e.keyObject e.stamp)
      (t.newKeyObject env e.keyObject e.stamp).deferred := h.newKeyObject _ _
  unfold RegistryIoTable.onOpen
  dsimp only
  split
  · exact hn.count hw true
  · split
    · exact hn.count hw true
    · exact hn.deferOpen hw

theorem onOperation (h : Timed W t t.deferred) (hw : W tick) :
    Timed W (t.onOperation env e pid time tick)
      (t.onOperation env e pid time tick).deferred := by
  unfold RegistryIoTable.onOperation
  split
  · next n hn => exact (h.useName hn hw).count hw true
  · split
    · exact h.defer hw
    · split
      · exact h.count hw true
      · exact h.defer hw

theorem onEvent (h : Timed W t t.deferred) (hw : W tick) :
    Timed W (t.onEvent env e pid time tick) (t.onEvent env e pid time tick).deferred := by
  unfold RegistryIoTable.onEvent
  split
  · exact h
  · split
    · split
      · exact h
      · exact h.onOpen hw
    · exact h.onOperation hw

theorem applyOne {kept rest : List Deferred} (h : Timed W t (kept ++ d :: rest)) :
    Timed W (t.applyOne env d) (kept ++ rest) := by
  have hw := h.waiting d (by simp)
  have hless : Timed W { t with
      waiting := (t.waiting.decrement d.waiting).eraseZero d.waiting } (kept ++ rest) :=
    (h.subset fun x hx => mem_skip hx).of_eq rfl rfl
  by_cases ho : d.event.isOpen = true
  · have hne : t.appliedName env d ≠ [] := RegistryIoTable.appliedName_ne_nil h.texts
    unfold RegistryIoTable.applyOne
    dsimp only
    rw [if_pos ho]
    exact (hless.count hw _).nameToken hne hw d
  · unfold RegistryIoTable.applyOne
    dsimp only
    rw [if_neg ho]
    unfold RegistryIoTable.applyOperation
    split
    · next n hn =>
      refine (hless.useName hn ?_).count hw true
      show W (if n.tick ≤ d.tick then d.tick else n.tick)
      split
      · exact hw
      · exact (h.names _ n hn).2
    · exact hless.count hw true

theorem applyDeferred (h : Timed W t t.deferred) :
    Timed W (t.applyDeferred env) (t.applyDeferred env).deferred := by
  have hsweep : Timed W (t.applySweep env).1 (t.applySweep env).2 :=
    RegistryIoTable.applySweep_invariant h fun _ _ _ _ hs _ => hs.applyOne
  exact hsweep.of_eq rfl rfl

/-- One call. -/
theorem step {c : Call} (h : Timed W t t.deferred) (hc : c.TimedBy W) :
    Timed W (t.step env c) (t.step env c).deferred := by
  cases c with
  | onEvent e pid time tick => exact h.onEvent hc
  | takeUnnamed => exact h.of_eq rfl rfl
  | setName object name tick =>
    exact h.insert_name ⟨env.registryName_ne_nil hc.1, hc.2⟩
  | nameFailed => exact h.of_eq rfl rfl
  | applyDeferred => exact h.applyDeferred
  | prune tick =>
    exact h.forget (fun _ _ hl => Finmap.of_lookup_eraseIf hl)
      fun _ _ hl => Finmap.of_lookup_eraseIf hl
  | removeProcess pid =>
    exact h.forget (fun _ _ hl => Finmap.of_lookup_eraseIf hl) fun _ _ hl => hl
  | clear => exact start.of_eq rfl rfl

end Timed

/-! ## tokens -/

/-- No token is named before it is handed out, and none is given to the resolver. -/
structure Fresh (t : RegistryIoTable) : Prop where
  names : ∀ k ∈ t.names, isToken k = true → k < t.nextToken
  attempts : ∀ k ∈ t.attempts, isToken k = false
  unnamed : ∀ k ∈ t.unnamed, isToken k = false

/-- A call is about key objects: events and answers carry no token, and an answer is a name. -/
def Call.Proper : Call → Prop
  | .onEvent e _ _ _ => isToken e.keyObject = false ∧ isToken e.baseObject = false
  | .setName object name _ => isToken object = false ∧ name ≠ []
  | .nameFailed object _ => isToken object = false
  | _ => True

instance : DecidablePred Call.Proper
  | .onEvent .. | .setName .. => inferInstanceAs (Decidable (_ ∧ _))
  | .nameFailed .. => inferInstanceAs (Decidable (_ = _))
  | .takeUnnamed | .applyDeferred | .prune _ | .removeProcess _ | .clear => .isTrue trivial

theorem Call.Proper.noTokens {c : Call} (h : c.Proper) : c.NoTokens := by
  cases c with
  | onEvent => exact h
  | _ => trivial

theorem Call.Proper.timedBy {c : Call} (h : c.Proper) : c.TimedBy fun _ => True := by
  cases c with
  | onEvent => trivial
  | setName => exact ⟨h.2, trivial⟩
  | _ => trivial

namespace Fresh

variable {env : Env} {t : RegistryIoTable} {e : RegistryEvent} {name : WString} {pid : UInt32}
  {time : ℤ} {tick : UInt64} {d : Deferred} {b : Bool}

theorem start : Fresh {} where
  names _ hk := absurd hk Finmap.notMem_empty
  attempts _ hk := absurd hk Finmap.notMem_empty
  unnamed k hk := absurd hk (Finset.notMem_empty k)

/-- A change of the other fields. -/
theorem of_eq {t' : RegistryIoTable} (h : Fresh t) (hn : t'.names = t.names)
    (ha : t'.attempts = t.attempts) (hu : t'.unnamed = t.unnamed)
    (hnext : t'.nextToken = t.nextToken) : Fresh t' where
  names := by rw [hn, hnext]; exact h.names
  attempts := by rw [ha]; exact h.attempts
  unnamed := by rw [hu]; exact h.unnamed

theorem insert_name {k : UInt64} (h : Fresh t) (hk : isToken k = true → k < t.nextToken)
    (n : Name) : Fresh { t with names := t.names.insert k n } where
  names j hj := by
    rcases Finmap.mem_insert.mp hj with rfl | hj
    · exact hk
    · exact h.names j hj
  attempts := h.attempts
  unnamed := h.unnamed

theorem insert_attempts {k : UInt64} (h : Fresh t) (hk : isToken k = false) (a : Attempts) :
    Fresh { t with attempts := t.attempts.insert k a } where
  names := h.names
  attempts j hj := by
    rcases Finmap.mem_insert.mp hj with rfl | hj
    · exact hk
    · exact h.attempts j hj
  unnamed := h.unnamed

/-- Names and failures may be forgotten. -/
theorem forget {t' : RegistryIoTable} (h : Fresh t) (hn : ∀ k ∈ t'.names, k ∈ t.names)
    (ha : ∀ k ∈ t'.attempts, k ∈ t.attempts) (hu : t'.unnamed = t.unnamed)
    (hnext : t'.nextToken = t.nextToken) : Fresh t' where
  names k hk := by rw [hnext]; exact h.names k (hn k hk)
  attempts k hk := h.attempts k (ha k hk)
  unnamed := by rw [hu]; exact h.unnamed

theorem count (h : Fresh t) (hk : isToken e.keyObject = false) :
    Fresh (t.count env e name pid time tick b) := by
  have hnoted : ∀ k ∈ t.noteBase env e name tick, isToken k = true → k < t.nextToken :=
    fun k hk => h.names k (RegistryIoTable.mem_noteBase.mp hk)
  refine ⟨fun k hkn => ?_, h.attempts, h.unnamed⟩
  rw [RegistryIoTable.count_names] at hkn
  split at hkn
  · rcases Finmap.mem_insert.mp hkn with rfl | hkn
    · intro ht
      rw [hk] at ht
      exact absurd ht (by simp)
    · exact hnoted k hkn
  · exact hnoted k hkn

theorem nameToken (h : Fresh t)
    (htoken : d.token = 0 ∨ isToken d.token = true ∧ d.token < t.nextToken) :
    Fresh (t.nameToken d name tick) := by
  by_cases h0 : d.token = 0
  · refine h.of_eq ?_ (by simp) (by simp) (by simp)
    rw [RegistryIoTable.nameToken_names, if_pos h0]
  · refine (h.insert_name (k := d.token) (fun _ => (htoken.resolve_left h0).2)
      ⟨name, tick, [tick]⟩).of_eq ?_ (by simp) (by simp) (by simp)
    rw [RegistryIoTable.nameToken_names, if_neg h0]

theorem useName {k : UInt64} {n : Name} {used : UInt64} (h : Fresh t)
    (hn : t.names.lookup k = some n) : Fresh (t.useName k n tick used) :=
  h.insert_name (h.names k (Finmap.lookup_isSome.mp (by rw [hn]; rfl))) _

theorem defer {waiting token : UInt64} (h : Fresh t) (hk : isToken e.keyObject = false)
    (htoken : token = 0 ∨ isToken token = true ∧ token < t.nextToken) :
    Fresh (t.defer env e pid time tick waiting token) := by
  unfold RegistryIoTable.defer
  split
  · split
    · refine Fresh.nameToken ?_ htoken
      exact h.count hk
    · split <;> exact h.count hk
  · refine ⟨h.names, h.attempts, fun k hm => ?_⟩
    dsimp only at hm
    split at hm
    · next hw =>
      rcases Finset.mem_insert.mp hm with rfl | hm
      · simp only [Bool.and_eq_true, Bool.not_eq_true'] at hw
        exact hw.2
      · exact h.unnamed k hm
    · exact h.unnamed k hm

theorem newKeyObject {object : UInt64} {stamp : ℤ} {next : UInt64} (h : Fresh t)
    (hq : Ordered t.deferred next) (hk : isToken object = false) :
    Fresh (t.newKeyObject env object stamp) := by
  have herase : ∀ {s : RegistryIoTable}, Fresh s → Fresh { s with
      attempts := s.attempts.erase object, pendingOpens := s.pendingOpens.erase object } :=
    fun hs => hs.forget (fun _ hk => hk) (fun _ hk => (Finmap.mem_erase.mp hk).2) rfl rfl
  unfold RegistryIoTable.newKeyObject RegistryIoTable.flushWaiting
  split
  · exact h
  · split
    · exact herase h
    · have hsweep : Fresh (t.flushSweep env object stamp).1 := by
        refine sweep_state_mem (P := Fresh) ?_ (h.insert_attempts hk _)
        intro s d hd hs
        have hcount := @Fresh.count env s d.event
          (if d.event.isOpen then s.unnamedBase object d.event.name else []) d.pid d.time d.tick
          true hs (hq.addresses d hd).1
        exact hcount.of_eq rfl rfl rfl rfl
      exact (herase hsweep).of_eq rfl rfl rfl rfl

theorem deferOpen (h : Fresh t) (hk : isToken e.keyObject = false)
    (ht : (t.deferOpen env e pid time tick).nextToken ≠ t.nextToken →
      isToken t.nextToken = true) : Fresh (t.deferOpen env e pid time tick) := by
  rw [RegistryIoTable.deferOpen_nextToken] at ht
  unfold RegistryIoTable.deferOpen
  split
  · next hw =>
    rw [if_pos hw] at ht
    have htok : isToken t.nextToken = true := ht (by simp)
    have hlt := lt_succ_of_isToken htok
    have hpend : Fresh (t.pend e.keyObject) :=
      ⟨fun k hm hkt => UInt64.lt_trans (h.names k (Finmap.mem_erase.mp hm).2 hkt) hlt,
        h.attempts, h.unnamed⟩
    have hretarget : Fresh ((t.pend e.keyObject).retarget e.keyObject e.stamp t.nextToken) :=
      hpend.of_eq (by simp) (by simp) (by simp) (by simp)
    refine hretarget.defer hk (Or.inr ⟨htok, ?_⟩)
    rw [RegistryIoTable.retarget_nextToken]
    exact hlt
  · exact h.defer hk (Or.inl rfl)

theorem onOpen (h : Fresh t) (hq : Ordered t.deferred t.nextToken)
    (hk : isToken e.keyObject = false)
    (ht : (t.onOpen env e pid time tick).nextToken ≠ t.nextToken → isToken t.nextToken = true) :
    Fresh (t.onOpen env e pid time tick) := by
  have hn : Fresh (t.newKeyObject env e.keyObject e.stamp) := h.newKeyObject hq hk
  unfold RegistryIoTable.onOpen at ht ⊢
  dsimp only at ht ⊢
  split
  · exact hn.count hk
  · next hname =>
    simp only [hname] at ht
    split
    · exact hn.count hk
    · next hg =>
      rw [if_neg hg] at ht
      refine hn.deferOpen hk fun hne => ?_
      rw [RegistryIoTable.newKeyObject_nextToken] at hne ⊢
      exact ht hne

theorem onOperation (h : Fresh t) (hk : isToken e.keyObject = false) :
    Fresh (t.onOperation env e pid time tick) := by
  unfold RegistryIoTable.onOperation
  split
  · next n hn => exact (h.useName hn).count hk
  · split
    · exact h.defer hk (Or.inl rfl)
    · split
      · exact h.count hk
      · exact h.defer hk (Or.inl rfl)

theorem applyOne (h : Fresh t) (hk : isToken d.event.keyObject = false)
    (htoken : d.token = 0 ∨ isToken d.token = true ∧ d.token < t.nextToken) :
    Fresh (t.applyOne env d) := by
  have hless : Fresh { t with
      waiting := (t.waiting.decrement d.waiting).eraseZero d.waiting } := h.of_eq rfl rfl rfl rfl
  unfold RegistryIoTable.applyOne
  dsimp only
  split
  · refine Fresh.nameToken ?_ htoken
    exact hless.count hk
  · unfold RegistryIoTable.applyOperation
    split
    · next n hn => exact (hless.useName hn).count hk
    · exact hless.count hk

theorem applyDeferred (h : Fresh t) (hq : Ordered t.deferred t.nextToken) :
    Fresh (t.applyDeferred env) := by
  have hsweep : Fresh (t.applySweep env).1 ∧ (t.applySweep env).1.nextToken = t.nextToken := by
    refine sweep_state_mem (P := fun s => Fresh s ∧ s.nextToken = t.nextToken) ?_ ⟨h, rfl⟩
    rintro s d hd ⟨hs, hnext⟩
    refine ⟨hs.applyOne (hq.addresses d hd).1 ?_, ?_⟩
    · rw [hnext]
      exact hq.tokens d hd
    · rw [RegistryIoTable.applyOne_nextToken, hnext]
  refine ⟨hsweep.1.names, hsweep.1.attempts, fun k hm => ?_⟩
  rcases Finset.mem_union.mp hm with hm | hm
  · exact hsweep.1.unnamed k hm
  · simpa using (Finset.mem_filter.mp hm).2

/-- One call. -/
theorem step {c : Call} (h : Fresh t) (hq : Ordered t.deferred t.nextToken) (hc : c.Proper)
    (ht : TokenInRange env t c) : Fresh (t.step env c) := by
  cases c with
  | onEvent e pid time tick =>
    simp only [TokenInRange, RegistryIoTable.step, RegistryIoTable.onEvent] at ht ⊢
    split
    · exact h
    · next hi =>
      rw [if_neg hi] at ht
      split
      · next ho =>
        rw [if_pos ho] at ht
        split
        · exact h
        · next hr =>
          rw [if_neg hr] at ht
          exact h.onOpen hq hc.1 ht
      · exact h.onOperation hc.1
  | takeUnnamed => exact ⟨h.names, h.attempts, fun k hk => absurd hk (Finset.notMem_empty k)⟩
  | setName object name tick =>
    refine h.insert_name (fun ht => ?_) _
    rw [hc.1] at ht
    exact absurd ht (by simp)
  | nameFailed => exact h.insert_attempts hc _
  | applyDeferred => exact h.applyDeferred hq
  | prune tick =>
    exact h.forget (fun _ hm => Finmap.of_mem_eraseIf hm) (fun _ hm => Finmap.of_mem_eraseIf hm)
      rfl rfl
  | removeProcess => exact h.of_eq rfl rfl rfl rfl
  | clear =>
    exact ⟨fun _ hm => absurd hm Finmap.notMem_empty, fun _ hm => absurd hm Finmap.notMem_empty,
      fun k hk => absurd hk (Finset.notMem_empty k)⟩

end Fresh

/-! ## runs -/

/-- What every table that a session can have meets. -/
structure Orderly (t : RegistryIoTable) : Prop where
  tallied : Tallied t
  timed : Timed (fun _ => True) t t.deferred
  ordered : Ordered t.deferred t.nextToken
  fresh : Fresh t

theorem Orderly.start : Orderly {} := ⟨Tallied.start, Timed.start, Ordered.nil, Fresh.start⟩

theorem Orderly.step {env : Env} {t : RegistryIoTable} {c : Call} (h : Orderly t) (hc : c.Proper)
    (ht : TokenInRange env t c) : Orderly (t.step env c) where
  tallied := h.tallied.step c
  timed := h.timed.step hc.timedBy
  ordered := h.ordered.step hc.noTokens ht
  fresh := h.fresh.step h.ordered hc ht

/-- Every state of a run of such calls, while the tokens last. -/
theorem orderly_run {env : Env} {calls : List Call} (hc : ∀ c ∈ calls, c.Proper)
    (ht : Along (RegistryIoTable.step env) (TokenInRange env) {} calls) :
    Orderly (RegistryIoTable.after env calls) :=
  run_invariant (RegistryIoTable.step env) Orderly (fun _ _ hs hok => hs.step hok.1 hok.2)
    Orderly.start ((along_of_forall hc).and ht)

end WinSys.Registry
