import WinSys.Registry.Bookkeeping
import WinSys.Registry.Tokens

/-!
# The order of the queue

In `m_Deferred` a waiting open comes before the open whose token it waits on (`Ordered`), so the
loop of `ApplyDeferred` names no token before what waits on it was passed. And what that loop does
to the names: an open names its token, and its key object while it is the pending one.
-/

namespace WinSys.Registry

open Infra

namespace RegistryIoTable

/-- The table when `ApplyDeferred` has gone over the first elements. -/
def reached (env : Env) (t : RegistryIoTable) (pre : List Deferred) : RegistryIoTable :=
  (sweep ready (fun t d => t.applyOne env d) t pre).1

end RegistryIoTable

/-- A waiting open by a relative name. -/
def Deferred.IsRelative (d : Deferred) : Prop :=
  d.event.isOpen = true ∧ d.event.name.head? ≠ some backslash

instance (d : Deferred) : Decidable d.IsRelative := inferInstanceAs (Decidable (_ ∧ _))

/-! ## what the queue keeps -/

/-- What the queue keeps, with the next token. -/
structure Ordered (l : List Deferred) (next : UInt64) : Prop where
  waits : ∀ d ∈ l, d.event.isOpen = true →
    d.waiting = d.event.baseObject ∨ isToken d.waiting = true ∧ d.waiting < next
  tokens : ∀ d ∈ l, d.token = 0 ∨ isToken d.token = true ∧ d.token < next
  addresses : ∀ d ∈ l, isToken d.event.keyObject = false ∧ isToken d.event.baseObject = false
  before : l.Pairwise fun a b => b.event.isOpen = true → isToken b.waiting = true →
    a.token ≠ b.waiting

namespace Ordered

variable {l : List Deferred} {next : UInt64} {d : Deferred}

theorem nil : Ordered [] next :=
  ⟨fun _ hd => absurd hd List.not_mem_nil, fun _ hd => absurd hd List.not_mem_nil,
    fun _ hd => absurd hd List.not_mem_nil, List.Pairwise.nil⟩

theorem sublist {l' : List Deferred} (h : Ordered l next) (hsub : l'.Sublist l) :
    Ordered l' next where
  waits d hd := h.waits d (hsub.subset hd)
  tokens d hd := h.tokens d (hsub.subset hd)
  addresses d hd := h.addresses d (hsub.subset hd)
  before := h.before.sublist hsub

/-- The next token is nobody's. -/
theorem token_ne_next (h : Ordered l next) (ht : isToken next = true) (hd : d ∈ l) :
    d.token ≠ next := by
  rcases h.tokens d hd with h0 | ⟨-, hlt⟩
  · rw [h0]
    rintro rfl
    exact absurd ht (by decide)
  · exact (UInt64.ne_of_lt hlt)

/-- Elements move over to the next token, which is taken. -/
theorem take_token {f : Deferred → Deferred} (h : Ordered l next) (ht : isToken next = true)
    (hf : ∀ x, (f x).event = x.event ∧ (f x).token = x.token
      ∧ ((f x).waiting = x.waiting ∨ (f x).waiting = next)) :
    Ordered (l.map f) (next + 1) where
  waits d hd ho := by
    obtain ⟨x, hx, rfl⟩ := List.mem_map.mp hd
    obtain ⟨hevent, -, hwaiting⟩ := hf x
    rw [hevent] at ho ⊢
    rcases hwaiting with hw | hw
    · rw [hw]
      refine (h.waits x hx ho).imp_right fun ⟨htok, hlt⟩ => ⟨htok, ?_⟩
      exact UInt64.lt_trans hlt (lt_succ_of_isToken ht)
    · rw [hw]
      exact Or.inr ⟨ht, lt_succ_of_isToken ht⟩
  tokens d hd := by
    obtain ⟨x, hx, rfl⟩ := List.mem_map.mp hd
    rw [(hf x).2.1]
    refine (h.tokens x hx).imp_right fun ⟨htok, hlt⟩ => ⟨htok, ?_⟩
    exact UInt64.lt_trans hlt (lt_succ_of_isToken ht)
  addresses d hd := by
    obtain ⟨x, hx, rfl⟩ := List.mem_map.mp hd
    rw [(hf x).1]
    exact h.addresses x hx
  before := by
    rw [List.pairwise_map]
    refine List.Pairwise.imp_of_mem (fun {a b} ha _ hab ho htok => ?_) h.before
    rw [(hf b).1] at ho
    rw [(hf a).2.1]
    rcases (hf b).2.2 with hw | hw
    · rw [hw] at htok ⊢
      exact hab ho htok
    · rw [hw]
      exact h.token_ne_next ht ha

/-- One element more, an operation or an open that waits on an address. -/
theorem append (h : Ordered l next)
    (hw : d.event.isOpen = true → d.waiting = d.event.baseObject)
    (htoken : d.token = 0 ∨ isToken d.token = true ∧ d.token < next)
    (ha : isToken d.event.keyObject = false ∧ isToken d.event.baseObject = false) :
    Ordered (l ++ [d]) next where
  waits x hx ho := by
    rcases List.mem_append.mp hx with hx | hx
    · exact h.waits x hx ho
    · rw [List.mem_singleton.mp hx] at ho ⊢
      exact Or.inl (hw ho)
  tokens x hx := by
    rcases List.mem_append.mp hx with hx | hx
    · exact h.tokens x hx
    · rw [List.mem_singleton.mp hx]
      exact htoken
  addresses x hx := by
    rcases List.mem_append.mp hx with hx | hx
    · exact h.addresses x hx
    · rw [List.mem_singleton.mp hx]
      exact ha
  before := by
    rw [List.pairwise_append]
    refine ⟨h.before, List.pairwise_singleton _ _, fun a _ b hb ho htok => ?_⟩
    rw [List.mem_singleton.mp hb] at ho htok
    rw [hw ho, ha.2] at htok
    exact absurd htok (by simp)

end Ordered

/-! ## the table's operations keep the order -/

section Operations

variable {env : Env} {t : RegistryIoTable} {e : RegistryEvent} {pid : UInt32} {time : ℤ}
  {tick : UInt64}

theorem Ordered.defer {waiting token next : UInt64} (h : Ordered t.deferred next)
    (hw : e.isOpen = true → waiting = e.baseObject)
    (htoken : token = 0 ∨ isToken token = true ∧ token < next)
    (ha : isToken e.keyObject = false ∧ isToken e.baseObject = false) :
    Ordered (t.defer env e pid time tick waiting token).deferred next := by
  rcases @RegistryIoTable.defer_deferred env t e pid time tick waiting token with hd | hd
  · rw [hd]
    exact h
  · rw [hd]
    exact h.append hw htoken ha

theorem Ordered.deferOpen (h : Ordered t.deferred t.nextToken)
    (ha : isToken e.keyObject = false ∧ isToken e.baseObject = false)
    (ht : (t.deferOpen env e pid time tick).nextToken ≠ t.nextToken →
      isToken t.nextToken = true) :
    Ordered (t.deferOpen env e pid time tick).deferred
      (t.deferOpen env e pid time tick).nextToken := by
  rw [RegistryIoTable.deferOpen_nextToken] at ht ⊢
  unfold RegistryIoTable.deferOpen
  split
  · next hk =>
    rw [if_pos hk] at ht
    have htoken : isToken t.nextToken = true := ht (by simp)
    refine Ordered.defer ?_ (fun _ => rfl) (Or.inr ⟨htoken, ?_⟩) ha
    · obtain ⟨f, hdeferred, hf⟩ := @RegistryIoTable.retarget_deferred
        (t.pend e.keyObject) e.keyObject e.stamp t.nextToken
      rw [hdeferred]
      refine h.take_token htoken fun x => ?_
      obtain ⟨hevent, htok, hwaiting⟩ := hf x
      exact ⟨hevent, htok, hwaiting.imp_right fun hr => hr.1⟩
    · exact lt_succ_of_isToken htoken
  · exact h.defer (fun _ => rfl) (Or.inl rfl) ha

theorem Ordered.onOpen (h : Ordered t.deferred t.nextToken)
    (ha : isToken e.keyObject = false ∧ isToken e.baseObject = false)
    (ht : (t.onOpen env e pid time tick).nextToken ≠ t.nextToken → isToken t.nextToken = true) :
    Ordered (t.onOpen env e pid time tick).deferred (t.onOpen env e pid time tick).nextToken := by
  have hn : Ordered (t.newKeyObject env e.keyObject e.stamp).deferred
      (t.newKeyObject env e.keyObject e.stamp).nextToken := by
    rw [RegistryIoTable.newKeyObject_nextToken]
    exact h.sublist (RegistryIoTable.newKeyObject_sublist _ _)
  unfold RegistryIoTable.onOpen at ht ⊢
  dsimp only at ht ⊢
  split
  · exact hn
  · next hname =>
    simp only [hname] at ht
    split
    · exact hn
    · next hg =>
      rw [if_neg hg] at ht
      refine hn.deferOpen ha fun hne => ?_
      rw [RegistryIoTable.newKeyObject_nextToken] at hne ⊢
      exact ht hne

theorem Ordered.onOperation (h : Ordered t.deferred t.nextToken) (ho : e.isOpen = false)
    (ha : isToken e.keyObject = false ∧ isToken e.baseObject = false) :
    Ordered (t.onOperation env e pid time tick).deferred t.nextToken := by
  have hno : ∀ waiting : UInt64, e.isOpen = true → waiting = e.baseObject := by
    intro waiting hopen
    rw [ho] at hopen
    exact absurd hopen (by simp)
  unfold RegistryIoTable.onOperation
  split
  · exact h
  · split
    · exact h.defer (hno _) (Or.inl rfl) ha
    · split
      · exact h
      · exact h.defer (hno _) (Or.inl rfl) ha

theorem Ordered.step {c : Call} (h : Ordered t.deferred t.nextToken) (hc : c.NoTokens)
    (ht : TokenInRange env t c) :
    Ordered (t.step env c).deferred (t.step env c).nextToken := by
  cases c with
  | onEvent e pid time tick =>
    simp only [TokenInRange, RegistryIoTable.step, RegistryIoTable.onEvent] at ht ⊢
    split
    · exact h
    · next hi =>
      rw [if_neg hi] at ht
      split
      · next ho =>
        rw [if_pos ho] at ht
        split
        · exact h
        · next hr =>
          rw [if_neg hr] at ht
          exact h.onOpen hc ht
      · next ho =>
        rw [if_neg ho] at ht
        have hnext : (t.onOperation env e pid time tick).nextToken = t.nextToken :=
          RegistryIoTable.onOperation_nextToken
        rw [hnext]
        exact h.onOperation (by simpa using ho) hc
  | applyDeferred =>
    have hnext : (t.step env .applyDeferred).nextToken = t.nextToken :=
      RegistryIoTable.applyDeferred_nextToken
    rw [hnext]
    exact h.sublist RegistryIoTable.applySweep_sublist
  | clear => exact Ordered.nil
  | _ => exact h

end Operations

/-! ## the loop of ApplyDeferred -/

section Loop

variable {env : Env} {t : RegistryIoTable} {d : Deferred} {name : WString} {tick k : UInt64}

theorem nameToken_text : (t.nameToken d name tick).text k
    = if d.token ≠ 0 ∧ k = d.token then some name else t.text k := by
  rw [RegistryIoTable.text, RegistryIoTable.nameToken_names]
  by_cases h0 : d.token = 0
  · simp [h0, RegistryIoTable.text]
  · rw [if_neg h0, Finmap.lookup_insert_eq]
    by_cases hk : k = d.token
    · simp [hk, h0]
    · simp [hk, RegistryIoTable.text]

/-- An open that waited names its token, and its key object while it is the pending one. -/
theorem applyOne_open_text (ho : d.event.isOpen = true) : (t.applyOne env d).text k
    = if d.token ≠ 0 ∧ k = d.token then some (t.appliedName env d)
      else if d.event.names (t.appliedName env d)
          (decide (t.pendingOpens.lookup d.event.keyObject = some d.token)) = true
            ∧ k = d.event.keyObject then some (t.appliedName env d)
      else t.text k := by
  rw [t.applyOne_open_eq env ho, nameToken_text, RegistryIoTable.count_text]
  rfl

theorem applyOne_open_pending (ho : d.event.isOpen = true) : (t.applyOne env d).pendingOpens
    = if d.token ≠ 0 ∧ t.pendingOpens.lookup d.event.keyObject = some d.token
      then t.pendingOpens.erase d.event.keyObject else t.pendingOpens := by
  rw [t.applyOne_open_eq env ho, RegistryIoTable.nameToken_pendingOpens]
  rfl

/-- An operation changes no name's text. -/
theorem applyOne_operation_text (ho : d.event.isOpen = false) :
    (t.applyOne env d).text k = t.text k := by
  unfold RegistryIoTable.applyOne
  dsimp only
  rw [if_neg (by simp [ho])]
  unfold RegistryIoTable.applyOperation
  split
  · next n hn =>
    have hn' : t.names.lookup d.waiting = some n := hn
    rw [RegistryIoTable.text, RegistryIoTable.count_names_of_operation ho, RegistryIoTable.text]
    show ((t.names.insert d.waiting { n with
      tick := max n.tick d.tick, noted := d.tick :: n.noted }).lookup k).map Name.text = _
    rw [Finmap.lookup_insert_eq]
    split
    · next hk =>
      rw [hk, hn']
      rfl
    · rfl
  · rw [RegistryIoTable.text, RegistryIoTable.count_names_of_operation ho]
    rfl

/-- Counting a waiting operation leaves the name of what is neither its token nor, unless its open
is the pending one, its key object. -/
theorem applyOne_text (htoken : d.token = 0 ∨ d.token ≠ k)
    (hobject : d.event.keyObject ≠ k ∨ t.pendingOpens.lookup k ≠ some d.token) :
    (t.applyOne env d).text k = t.text k := by
  by_cases ho : d.event.isOpen = true
  · rw [applyOne_open_text ho, if_neg fun h => htoken.resolve_left h.1 h.2.symm, if_neg]
    rintro ⟨hn, rfl⟩
    rcases hobject with hobject | hobject
    · exact hobject rfl
    · exact hobject (of_decide_eq_true (RegistryEvent.names_iff.mp hn).1)
  · exact applyOne_operation_text (by simpa using ho)

/-- What was named or given up on, in terms of the texts. -/
theorem ready_congr {s : RegistryIoTable} (htext : s.text d.waiting = t.text d.waiting)
    (hattempts : s.attempts.lookup d.waiting = t.attempts.lookup d.waiting) :
    s.ready d = t.ready d := by
  have hsome : (s.names.lookup d.waiting).isSome = (t.names.lookup d.waiting).isSome := by
    have hmap := congrArg Option.isSome htext
    simpa [RegistryIoTable.text] using hmap
  rw [RegistryIoTable.ready, RegistryIoTable.ready, hsome, RegistryIoTable.gaveUp,
    RegistryIoTable.gaveUp, hattempts]

theorem applyOne_open_counted (ho : d.event.isOpen = true) (s : RegistryIoTable) :
    (s.applyOne env d).counted
      = ⟨d.event, s.appliedName env d, d.pid, d.time, d.tick⟩ :: s.counted := by
  obtain ⟨s', b, -, -, hcounted, -, heq⟩ := s.applyOne_open env ho
  rw [heq, RegistryIoTable.nameToken_counted, RegistryIoTable.count_counted, hcounted]

theorem reached_attempts (l : List Deferred) : (t.reached env l).attempts = t.attempts :=
  sweep_state (P := fun s : RegistryIoTable => s.attempts = t.attempts)
    (fun s x hs _ => (applyOne_attempts s x).trans hs) rfl

/-- The loop adds no pending open. -/
theorem applyOne_pending_none {x : Deferred} (h : t.pendingOpens.lookup k = none) :
    (t.applyOne env x).pendingOpens.lookup k = none := by
  cases hl : (t.applyOne env x).pendingOpens.lookup k with
  | none => rfl
  | some token =>
    have hold := RegistryIoTable.applyOne_pending hl
    rw [h] at hold
    exact absurd hold nofun

theorem reached_pending_none (h : t.pendingOpens.lookup k = none) (l : List Deferred) :
    (t.reached env l).pendingOpens.lookup k = none :=
  sweep_state (P := fun s : RegistryIoTable => s.pendingOpens.lookup k = none)
    (fun _ _ hs _ => applyOne_pending_none hs) h

/-- The loop leaves the name of what is none of the elements' token, and either none of their key
objects or not named by a waiting open. -/
theorem reached_text {l : List Deferred} (htoken : ∀ x ∈ l, x.token = 0 ∨ x.token ≠ k)
    (hobject : (∀ x ∈ l, x.event.keyObject ≠ k) ∨ t.pendingOpens.lookup k = none) :
    (t.reached env l).text k = t.text k := by
  rcases hobject with hobject | hpending
  · refine sweep_state_mem (P := fun s : RegistryIoTable => s.text k = t.text k) ?_ rfl
    rintro s x hx htext
    rw [← htext]
    exact applyOne_text (htoken x hx) (Or.inl (hobject x hx))
  · have hs : (t.reached env l).text k = t.text k
        ∧ (t.reached env l).pendingOpens.lookup k = none := by
      refine sweep_state_mem (P := fun s : RegistryIoTable =>
        s.text k = t.text k ∧ s.pendingOpens.lookup k = none) ?_ ⟨rfl, hpending⟩
      rintro s x hx ⟨htext, hnone⟩
      refine ⟨?_, applyOne_pending_none hnone⟩
      rw [← htext]
      exact applyOne_text (htoken x hx) (Or.inr (by rw [hnone]; exact nofun))
    exact hs.1

end Loop

end WinSys.Registry
