import WinSys.Registry.Frame

/-!
# The bookkeeping of what waits

`m_Waiting` is the tally of what the elements of `m_Deferred` wait on, there are at most
`MaxDeferred` of them, and no key object waited on is hidden from the resolver: it is in
`m_Unnamed`, or was taken by a pass that has not applied its answers yet.

Tokens are not for the resolver, so the last part is about values that are no tokens. `m_NextToken`
counts up from `TokenBase` and is never reset, not even by `Clear`, so a table that handed out all
2^48 values of the range goes on with values that are no tokens. The tally and the bound hold there
too.
-/

namespace WinSys.Registry

open Infra

/-- `m_Waiting` and the bound, whatever the tokens are. -/
structure Tallied (t : RegistryIoTable) : Prop where
  tally : Finmap.IsTally t.waiting (t.deferred.map (·.waiting))
  bound : t.deferred.length ≤ maxDeferred

/-- What the table keeps about `m_Deferred`, after every operation. -/
structure Bookkept (t : RegistryIoTable) : Prop extends Tallied t where
  offered : ∀ w ∈ t.waiting, isToken w = false → w ∈ t.unnamed ∨ w ∈ t.taken

section Operations

variable {env : Env} {t : RegistryIoTable} {e : RegistryEvent} {name : WString} {pid : UInt32}
  {time : ℤ} {tick : UInt64}

/-! ## the tally -/

namespace Tallied

theorem start : Tallied {} where
  tally := Finmap.IsTally.empty
  bound := Nat.zero_le _

/-- A change of the other fields. -/
theorem of_eq {t' : RegistryIoTable} (h : Tallied t) (hw : t'.waiting = t.waiting)
    (hd : t'.deferred = t.deferred) : Tallied t' where
  tally := by rw [hw, hd]; exact h.tally
  bound := by rw [hd]; exact h.bound

theorem count (h : Tallied t) (b : Bool) : Tallied (t.count env e name pid time tick b) :=
  h.of_eq rfl rfl

theorem nameToken (h : Tallied t) (d : Deferred) : Tallied (t.nameToken d name tick) :=
  h.of_eq (by simp) (by simp)

theorem defer (h : Tallied t) (waiting token : UInt64) :
    Tallied (t.defer env e pid time tick waiting token) := by
  unfold RegistryIoTable.defer
  split
  · split
    · exact (h.count true).nameToken _
    · split <;> exact h.count true
  · next hroom =>
    refine ⟨?_, ?_⟩
    · rw [List.map_append]
      exact (h.tally.bump waiting).perm (List.perm_append_singleton _ _).symm
    · simp only [List.length_append, List.length_singleton]
      omega

/-- Moving what waits on `object` over to `token`, one by one. -/
theorem retarget_tally {object token : UInt64} {stamp : ℤ} :
    ∀ (ds : List Deferred) (w : Finmap fun _ : UInt64 => ℤ) (moved : List UInt64),
      Finmap.IsTallyBut object w (moved ++ ds.map (·.waiting)) →
      Finmap.IsTallyBut object
        (ds.foldl (fun w d => if RegistryIoTable.retargets object stamp d
          then (w.bump token).decrement object else w) w)
        (moved ++ ds.map fun d =>
          (if RegistryIoTable.retargets object stamp d then { d with waiting := token }
            else d).waiting)
  | [], w, moved, h => h
  | d :: ds, w, moved, h => by
    have happ : ∀ (x : UInt64) (l : List UInt64), moved ++ x :: l = (moved ++ [x]) ++ l := by
      simp
    simp only [List.foldl_cons, List.map_cons] at h ⊢
    cases hr : RegistryIoTable.retargets object stamp d with
    | true =>
      have hd : d.waiting = object := by
        simp only [RegistryIoTable.retargets, Bool.and_eq_true, decide_eq_true_eq] at hr
        exact hr.1
      simp only [reduceIte]
      rw [happ]
      refine retarget_tally ds _ (moved ++ [token]) ?_
      rw [hd] at h
      have hfront : (moved ++ object :: ds.map (·.waiting)).Perm
          (object :: (moved ++ ds.map (·.waiting))) := List.perm_middle
      have hb := (h.bump token).perm ((hfront.cons token).trans (List.Perm.swap ..))
      refine hb.decrement.perm ?_
      rw [← happ]
      exact List.perm_middle.symm
    | false =>
      simp only [Bool.false_eq_true, reduceIte]
      rw [happ] at h ⊢
      exact retarget_tally ds w (moved ++ [d.waiting]) h

theorem retarget (h : Tallied t) (object : UInt64) (stamp : ℤ) (token : UInt64) :
    Tallied (t.retarget object stamp token) := by
  unfold RegistryIoTable.retarget
  split
  · exact h
  · have htally := (@retarget_tally object token stamp t.deferred t.waiting []
      (h.tally.but object)).eraseZero
    simp only [List.nil_append] at htally
    exact ⟨by rw [List.map_map]; exact htally, by simpa using h.bound⟩

theorem flushWaiting (h : Tallied t) (object : UInt64) (stamp : ℤ) :
    Tallied (t.flushWaiting env object stamp) := by
  unfold RegistryIoTable.flushWaiting
  split
  · exact h
  · have hb : Finmap.IsTallyBut object (t.flushSweep env object stamp).1.waiting
        ((t.flushSweep env object stamp).2.map (·.waiting)) := by
      refine RegistryIoTable.flushSweep_invariant (P := fun s l =>
        Finmap.IsTallyBut object s.waiting (l.map (·.waiting))) (h.tally.but object) ?_
      intro s kept d rest hs hd _
      rw [List.map_append, List.map_cons, hd] at hs
      rw [List.map_append]
      exact (hs.perm List.perm_middle).decrement
    have hsub := @RegistryIoTable.flushSweep_sublist env t object stamp
    exact ⟨hb.eraseZero, hsub.length_le.trans h.bound⟩

theorem newKeyObject (h : Tallied t) (object : UInt64) (stamp : ℤ) :
    Tallied (t.newKeyObject env object stamp) := by
  unfold RegistryIoTable.newKeyObject
  split
  · exact h
  · exact (h.flushWaiting object stamp).of_eq rfl rfl

theorem deferOpen (h : Tallied t) : Tallied (t.deferOpen env e pid time tick) := by
  unfold RegistryIoTable.deferOpen
  split
  · have hp : Tallied (t.pend e.keyObject) := h.of_eq rfl rfl
    exact (hp.retarget _ _ _).defer _ _
  · exact h.defer _ _

theorem onOpen (h : Tallied t) : Tallied (t.onOpen env e pid time tick) := by
  have hn : Tallied (t.newKeyObject env e.keyObject e.stamp) := h.newKeyObject _ _
  unfold RegistryIoTable.onOpen
  dsimp only
  split
  · exact hn.count true
  · split
    · exact hn.count true
    · exact hn.deferOpen

theorem onOperation (h : Tallied t) : Tallied (t.onOperation env e pid time tick) := by
  unfold RegistryIoTable.onOperation
  split
  · next n _ =>
    have hu : Tallied (t.useName e.keyObject n tick tick) := h.of_eq rfl rfl
    exact hu.count true
  · split
    · exact h.defer _ _
    · split
      · exact h.count true
      · exact h.defer _ _

theorem onEvent (h : Tallied t) : Tallied (t.onEvent env e pid time tick) := by
  unfold RegistryIoTable.onEvent
  split
  · exact h
  · split
    · split
      · exact h
      · exact h.onOpen
    · exact h.onOperation

theorem applyOne_waiting (s : RegistryIoTable) (d : Deferred) :
    (s.applyOne env d).waiting = (s.waiting.decrement d.waiting).eraseZero d.waiting := by
  unfold RegistryIoTable.applyOne
  dsimp only
  split
  · simp [RegistryIoTable.applyOpen]
  · unfold RegistryIoTable.applyOperation
    split <;> rfl

theorem applyDeferred (h : Tallied t) : Tallied (t.applyDeferred env) := by
  have htally : Finmap.IsTally (t.applySweep env).1.waiting
      ((t.applySweep env).2.map (·.waiting)) := by
    refine RegistryIoTable.applySweep_invariant
      (P := fun s l => Finmap.IsTally s.waiting (l.map (·.waiting))) h.tally ?_
    intro s kept d rest hs _
    rw [List.map_append, List.map_cons] at hs
    rw [applyOne_waiting s d, List.map_append]
    exact ((hs.perm List.perm_middle).but d.waiting).decrement.eraseZero
  have hsub := @RegistryIoTable.applySweep_sublist env t
  exact ⟨htally, hsub.length_le.trans h.bound⟩

theorem step (h : Tallied t) (c : Call) : Tallied (t.step env c) := by
  cases c with
  | onEvent e pid time tick => exact h.onEvent
  | applyDeferred => exact h.applyDeferred
  | clear => exact ⟨Finmap.IsTally.empty, Nat.zero_le _⟩
  | _ => exact h.of_eq rfl rfl

/-- What an element waits on has an entry. -/
theorem mem_waiting (h : Tallied t) {d : Deferred} (hd : d ∈ t.deferred) : d.waiting ∈ t.waiting :=
  h.tally.entry _ (List.mem_map.mpr ⟨d, hd, rfl⟩)

end Tallied

/-! ## nothing is hidden from the resolver -/

namespace Bookkept

theorem start : Bookkept {} where
  toTallied := Tallied.start
  offered _ hw := absurd hw Finmap.notMem_empty

/-- A change of the other fields. -/
theorem of_eq {t' : RegistryIoTable} (h : Bookkept t) (hw : t'.waiting = t.waiting)
    (hd : t'.deferred = t.deferred) (hu : t'.unnamed = t.unnamed) (ht : t'.taken = t.taken) :
    Bookkept t' where
  toTallied := h.toTallied.of_eq hw hd
  offered := by rw [hw, hu, ht]; exact h.offered

theorem count (h : Bookkept t) (b : Bool) : Bookkept (t.count env e name pid time tick b) :=
  h.of_eq rfl rfl rfl rfl

theorem nameToken (h : Bookkept t) (d : Deferred) : Bookkept (t.nameToken d name tick) :=
  h.of_eq (by simp) (by simp) (by simp) (by simp)

theorem defer (h : Bookkept t) (waiting token : UInt64) :
    Bookkept (t.defer env e pid time tick waiting token) := by
  refine ⟨h.toTallied.defer waiting token, ?_⟩
  unfold RegistryIoTable.defer
  split
  · split
    · exact ((h.count true).nameToken _).offered
    · split <;> exact h.offered
  · intro w hw hnt
    by_cases hwt : w ∈ t.waiting
    · refine (h.offered w hwt hnt).imp_left fun hu => ?_
      dsimp only
      split
      · exact Finset.mem_insert_of_mem hu
      · exact hu
    · -- the first operation that waits on it offers it to the resolver
      obtain rfl := (Finmap.mem_of_mem_bump hw).resolve_right hwt
      refine Or.inl ?_
      dsimp only
      rw [Finmap.lookup_eq_none.mpr hwt, if_pos (by simp [hnt])]
      exact Finset.mem_insert_self w t.unnamed

theorem retarget (h : Bookkept t) (object : UInt64) (stamp : ℤ) {token : UInt64}
    (ht : isToken token = true) : Bookkept (t.retarget object stamp token) := by
  have htally := h.toTallied.retarget object stamp token
  refine ⟨htally, fun w hw hnt => ?_⟩
  -- whatever is waited on now was waited on before, the token aside
  obtain ⟨d, hd, rfl⟩ := List.mem_map.mp ((htally.tally.mem_iff w).mp hw)
  rw [RegistryIoTable.retarget_unnamed, RegistryIoTable.retarget_taken]
  unfold RegistryIoTable.retarget at hd
  split at hd
  · exact h.offered _ (h.mem_waiting hd) hnt
  · obtain ⟨d', hd', rfl⟩ := List.mem_map.mp hd
    split at hnt
    · rw [ht] at hnt
      exact absurd hnt (by simp)
    · next hr =>
      rw [if_neg hr]
      exact h.offered _ (h.mem_waiting hd') hnt

theorem flushWaiting (h : Bookkept t) (object : UInt64) (stamp : ℤ) :
    Bookkept (t.flushWaiting env object stamp) := by
  have htally : Tallied (t.flushWaiting env object stamp) := h.toTallied.flushWaiting object stamp
  refine ⟨htally, fun w hw hnt => ?_⟩
  have hmem := (htally.tally.mem_iff w).mp hw
  unfold RegistryIoTable.flushWaiting at hmem ⊢
  split at hmem
  · exact h.offered w ((h.tally.mem_iff w).mpr hmem) hnt
  · have hframe : (t.flushSweep env object stamp).1.unnamed = t.unnamed
        ∧ (t.flushSweep env object stamp).1.taken = t.taken := by
      refine RegistryIoTable.flushSweep_invariant
        (P := fun s _ => s.unnamed = t.unnamed ∧ s.taken = t.taken) ⟨rfl, rfl⟩ ?_
      exact fun s kept d rest hs _ _ => hs
    have hsub := @RegistryIoTable.flushSweep_sublist env t object stamp
    dsimp only
    rw [hframe.1, hframe.2]
    exact h.offered w (h.tally.entry w ((hsub.map (·.waiting)).subset hmem)) hnt

theorem newKeyObject (h : Bookkept t) (object : UInt64) (stamp : ℤ) :
    Bookkept (t.newKeyObject env object stamp) := by
  unfold RegistryIoTable.newKeyObject
  split
  · exact h
  · exact (h.flushWaiting object stamp).of_eq rfl rfl rfl rfl

/-- An open that waits may take a token; then it has to be one. -/
theorem deferOpen (h : Bookkept t)
    (ht : (t.deferOpen env e pid time tick).nextToken ≠ t.nextToken → isToken t.nextToken = true) :
    Bookkept (t.deferOpen env e pid time tick) := by
  rw [RegistryIoTable.deferOpen_nextToken] at ht
  unfold RegistryIoTable.deferOpen
  split
  · next hk =>
    rw [if_pos hk] at ht
    have hp : Bookkept (t.pend e.keyObject) := h.of_eq rfl rfl rfl rfl
    exact (hp.retarget _ _ (ht (by simp))).defer _ _
  · exact h.defer _ _

theorem onOpen (h : Bookkept t)
    (ht : (t.onOpen env e pid time tick).nextToken ≠ t.nextToken → isToken t.nextToken = true) :
    Bookkept (t.onOpen env e pid time tick) := by
  have hn : Bookkept (t.newKeyObject env e.keyObject e.stamp) := h.newKeyObject _ _
  unfold RegistryIoTable.onOpen at ht ⊢
  dsimp only at ht ⊢
  split
  · exact hn.count true
  · next hname =>
    simp only [hname] at ht
    split
    · exact hn.count true
    · next hg =>
      rw [if_neg hg] at ht
      refine hn.deferOpen fun hne => ?_
      rw [RegistryIoTable.newKeyObject_nextToken] at hne ⊢
      exact ht hne

theorem onOperation (h : Bookkept t) : Bookkept (t.onOperation env e pid time tick) := by
  unfold RegistryIoTable.onOperation
  split
  · next n _ =>
    have hu : Bookkept (t.useName e.keyObject n tick tick) := h.of_eq rfl rfl rfl rfl
    exact hu.count true
  · split
    · exact h.defer _ _
    · split
      · exact h.count true
      · exact h.defer _ _

/-- After `ApplyDeferred` whatever still waits on a key object is offered to the resolver. -/
theorem offered_applyDeferred (t : RegistryIoTable) :
    ∀ w ∈ (t.applyDeferred env).waiting, isToken w = false → w ∈ (t.applyDeferred env).unnamed := by
  intro w hw hnt
  refine Finset.mem_union_right _ (Finset.mem_filter.mpr ⟨?_, by simp [hnt]⟩)
  exact Finmap.mem_keys.mpr hw

theorem applyDeferred (h : Bookkept t) : Bookkept (t.applyDeferred env) where
  toTallied := h.toTallied.applyDeferred
  offered w hw hnt := Or.inl (offered_applyDeferred t w hw hnt)

end Bookkept

end Operations

/-! ## runs -/

/-- A token handed out is in the token range. -/
def TokenInRange (env : Env) (t : RegistryIoTable) (c : Call) : Prop :=
  (t.step env c).nextToken ≠ t.nextToken → isToken t.nextToken = true

instance (env : Env) (t : RegistryIoTable) (c : Call) : Decidable (TokenInRange env t c) :=
  inferInstanceAs (Decidable (_ → _))

theorem Bookkept.step {env : Env} {t : RegistryIoTable} {c : Call} (h : Bookkept t)
    (ht : TokenInRange env t c) : Bookkept (t.step env c) := by
  cases c with
  | onEvent e pid time tick =>
    simp only [TokenInRange, RegistryIoTable.step, RegistryIoTable.onEvent] at ht ⊢
    split
    · exact h
    · next hi =>
      rw [if_neg hi] at ht
      split
      · next ho =>
        rw [if_pos ho] at ht
        split
        · exact h
        · next hr =>
          rw [if_neg hr] at ht
          exact h.onOpen ht
      · exact h.onOperation
  | takeUnnamed =>
    refine ⟨h.toTallied.step .takeUnnamed, fun w hw hnt => Or.inr ?_⟩
    exact Finset.mem_union.mpr ((h.offered w hw hnt).symm)
  | setName => exact h.of_eq rfl rfl rfl rfl
  | nameFailed => exact h.of_eq rfl rfl rfl rfl
  | applyDeferred => exact h.applyDeferred
  | prune => exact h.of_eq rfl rfl rfl rfl
  | removeProcess => exact h.of_eq rfl rfl rfl rfl
  | clear => exact ⟨h.toTallied.step .clear, fun w hw => absurd hw Finmap.notMem_empty⟩

/-- Every state of a run that hands out tokens of the range only is kept in order. -/
theorem bookkept_run {env : Env} {calls : List Call}
    (h : Along (RegistryIoTable.step env) (TokenInRange env) {} calls) :
    Bookkept (RegistryIoTable.after env calls) :=
  run_invariant (RegistryIoTable.step env) Bookkept (fun _ _ hs hc => hs.step hc) Bookkept.start h

theorem tallied_run (env : Env) (calls : List Call) : Tallied (RegistryIoTable.after env calls) :=
  run_invariant_mem _ Tallied (fun _ c hs (_ : True) => hs.step c) Tallied.start fun _ _ => trivial

/-- The entries of `m_Waiting` and their counts, and the bound on `m_Deferred`. -/
structure CountsLaw (t : RegistryIoTable) : Prop where
  entry : ∀ w, w ∈ t.waiting ↔ ∃ d ∈ t.deferred, d.waiting = w
  count : ∀ w n, t.waiting.lookup w = some n → n = t.deferred.countP (·.waiting = w)
  bound : t.getDeferredCount ≤ maxDeferred

/-- No key object that is waited on is hidden from the resolver. -/
def Offered (t : RegistryIoTable) : Prop :=
  ∀ w ∈ t.waiting, isToken w = false → w ∈ t.unnamed ∨ w ∈ t.taken

instance (t : RegistryIoTable) : Decidable (Offered t) :=
  inferInstanceAs (Decidable (∀ w ∈ t.waiting, _))

theorem Tallied.law {t : RegistryIoTable} (h : Tallied t) : CountsLaw t where
  entry w := (h.tally.mem_iff w).trans List.mem_map
  count w n hn := by
    rw [h.tally.count w n hn, List.count, List.countP_map]
    congr 2
  bound := h.bound

/-- **The bookkeeping holds in every state**: the counts and the bound whatever the run, and what
the resolver is offered as long as the tokens handed out are in their range. -/
theorem bookkeeping (env : Env) (calls : List Call) :
    CountsLaw (RegistryIoTable.after env calls)
      ∧ (Along (RegistryIoTable.step env) (TokenInRange env) {} calls →
        Offered (RegistryIoTable.after env calls)) :=
  ⟨(tallied_run env calls).law, fun h => (bookkept_run h).offered⟩

/-- An open that waits and takes a token, flushed and retargeted operations, a pass split at
`TakeUnnamed`, and a table cleared. -/
theorem bookkeeping_retarget : Offered (RegistryIoTable.after Env.ascii
    [ .onEvent { operation := .setValue, keyObject := 0x10, stamp := 5 } 7 1 1,
      .takeUnnamed,
      .onEvent { operation := .openKey, keyObject := 0x10, baseObject := 0x20, stamp := 3 } 7 2 2,
      .onEvent { operation := .openKey, keyObject := 0x20, baseObject := 0x30, stamp := 4 } 7 3 3,
      .applyDeferred ]) :=
  (bookkeeping Env.ascii _).2 (by decide)

/-! ## when the tokens run out -/

/-- An open or create. -/
def Call.isOpenEvent : Call → Bool
  | .onEvent e _ _ _ => e.isOpen
  | _ => false

/-- A call leaves the next token or, an open or create, takes it. -/
theorem RegistryIoTable.step_nextToken (env : Env) (t : RegistryIoTable) (c : Call) :
    (t.step env c).nextToken = t.nextToken
      ∨ (c.isOpenEvent = true ∧ (t.step env c).nextToken = t.nextToken + 1) := by
  cases c with
  | onEvent e pid time tick =>
    simp only [RegistryIoTable.step, RegistryIoTable.onEvent]
    split
    · exact Or.inl rfl
    · split
      · next ho =>
        split
        · exact Or.inl rfl
        · unfold RegistryIoTable.onOpen
          dsimp only
          split
          · exact Or.inl (RegistryIoTable.newKeyObject_nextToken _ _)
          · split
            · exact Or.inl (RegistryIoTable.newKeyObject_nextToken _ _)
            · rw [RegistryIoTable.deferOpen_nextToken, RegistryIoTable.newKeyObject_nextToken]
              split
              · exact Or.inr ⟨ho, rfl⟩
              · exact Or.inl rfl
      · exact Or.inl RegistryIoTable.onOperation_nextToken
  | applyDeferred => exact Or.inl RegistryIoTable.applyDeferred_nextToken
  | _ => exact Or.inl rfl

/-- The range has 2^48 tokens: a run of at most as many opens and creates does not leave it. -/
theorem tokenInRange_of_opens {env : Env} {t : RegistryIoTable} {calls : List Call}
    (h : t.nextToken.toNat + calls.countP Call.isOpenEvent ≤ 0x8000000000000000)
    (h0 : tokenBase.toNat ≤ t.nextToken.toNat) :
    Along (RegistryIoTable.step env) (TokenInRange env) t calls := by
  induction calls generalizing t with
  | nil => trivial
  | cons c calls ih =>
    rw [List.countP_cons] at h
    rcases RegistryIoTable.step_nextToken env t c with hn | ⟨ho, hn⟩
    · refine ⟨fun hne => absurd hn hne, ih ?_ ?_⟩
      · rw [hn]; omega
      · rw [hn]; exact h0
    · rw [if_pos ho] at h
      have hlt : t.nextToken.toNat < 0x8000000000000000 := by omega
      have hsucc : (t.nextToken + 1).toNat = t.nextToken.toNat + 1 := by
        rw [UInt64.toNat_add, UInt64.toNat_one]
        omega
      refine ⟨fun _ => ?_, ih ?_ ?_⟩
      · simp only [isToken, Bool.and_eq_true, decide_eq_true_eq, UInt64.le_iff_toNat_le,
          UInt64.lt_iff_toNat_lt]
        exact ⟨h0, hlt⟩
      · rw [hn, hsucc]; omega
      · rw [hn, hsucc]; omega

/-- One token gone: an open that waits, and the session stopped. -/
def wearOne : List Call :=
  [.onEvent { operation := .openKey, keyObject := 0x10, baseObject := 0x20 } 7 1 1, .clear]

def wear (n : ℕ) : List Call := (List.replicate n wearOne).flatten

theorem run_wearOne (v : UInt64) : run (RegistryIoTable.step Env.ascii) { nextToken := v } wearOne
    = { nextToken := v + 1 } := rfl

theorem run_wear (v : UInt64) (n : ℕ) :
    run (RegistryIoTable.step Env.ascii) { nextToken := v } (wear n)
      = { nextToken := v + UInt64.ofNat n } := by
  induction n generalizing v with
  | zero => simp [wear]
  | succ n ih =>
    rw [wear, List.replicate_succ, List.flatten_cons, run_append, run_wearOne, ← wear, ih,
      UInt64.ofNat_add, add_assoc, add_comm 1]
    rfl

/-- With 2^48 tokens gone, an operation that arrived before its key object's open waits on a value
that is no token and that the resolver is never asked for. -/
theorem bookkeeping_wornOut : ¬ ∀ calls : List Call,
    CountsLaw (RegistryIoTable.after Env.ascii calls)
      ∧ Offered (RegistryIoTable.after Env.ascii calls) := by
  intro h
  have hlaw := h (wear (2 ^ 48) ++
    [ .onEvent { operation := .setValue, keyObject := 0x10, stamp := 5 } 7 1 1,
      .onEvent { operation := .openKey, keyObject := 0x10, baseObject := 0x20, stamp := 3 } 7 2 2 ])
  have h0 : ({} : RegistryIoTable) = { nextToken := tokenBase } := rfl
  have hv : tokenBase + UInt64.ofNat (2 ^ 48) = 0x8000000000000000 := by decide
  rw [RegistryIoTable.after, run_append, h0, run_wear, hv] at hlaw
  have hoff := hlaw.2 0x8000000000000000
  revert hoff
  decide

end WinSys.Registry
