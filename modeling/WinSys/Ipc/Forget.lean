import WinSys.Ipc.Messages

/-!
# Forgetting a process

`RemoveProcess` erases the process's links and endpoints, but a message it sent or waits for has a
record that the next event of the message finds, and that event may be another process's. So the
process is forgotten exactly when no record that is not too old names it.

* `Forgotten`: what forgetting a process means for every continuation
* `Apart`: two trackers that differ in one process
* `removeProcess_unlinks_iff`
-/

namespace WinSys.Ipc

open Infra

/-- An event of the process. -/
def Call.isEventOf (pid : UInt32) : Call → Bool
  | .onAlpc record _ _ => record.pid = pid
  | .onRpc record _ => record.pid = pid
  | .removeProcess _ => false

def IpcLink.names (link : IpcLink) (pid : UInt32) : Prop :=
  link.clientPid = pid ∨ link.serverPid = pid

def PendingMessage.names (m : PendingMessage) (pid : UInt32) : Bool :=
  m.sender = pid || m.receiver = pid || m.client = pid

/-- The tracker without the messages the process sent, received or waits for. -/
def IpcTracker.forgetMessages (t : IpcTracker) (pid : UInt32) : IpcTracker :=
  { t with pending := t.pending.eraseIf fun _ m => m.names pid }

/-- `s'` has what `s` has of the other processes; the server of a link in `s` to the process is not
known in `s'`. -/
structure OthersKept (pid : UInt32) (s s' : IpcTracker) : Prop where
  links : ∀ link ∈ s.getLinks, ¬ link.names pid → link ∈ s'.getLinks
  only : ∀ link ∈ s'.getLinks, ¬ link.names pid → link ∈ s.getLinks
    ∨ link.serverPid = 0 ∧ { link with serverPid := pid } ∈ s.getLinks
  endpoints : ∀ k server, server ≠ pid →
    (s.endpoints.lookup k = some server ↔ s'.endpoints.lookup k = some server)

/-- After `RemoveProcess`, as long as no event of the process comes no link names it; whatever
comes, its ID's links are those of a tracker without its messages; and the other processes' links
and endpoints are those of a tracker that did not forget it. -/
structure Forgotten (t : IpcTracker) (clock : UInt64) (pid : UInt32) : Prop where
  unlisted : ∀ calls, Ticking clock calls → (∀ c ∈ calls, c.isEventOf pid = false) →
    ∀ link ∈ (run IpcTracker.step (t.removeProcess pid) calls).getLinks, ¬ link.names pid
  uncounted : ∀ calls, Ticking clock calls → ∀ client server, client = pid ∨ server = pid →
    (run IpcTracker.step (t.removeProcess pid) calls).alpc.lookup (pairKey client server)
      = (run IpcTracker.step ((t.removeProcess pid).forgetMessages pid) calls).alpc.lookup
        (pairKey client server)
  others : ∀ calls, Ticking clock calls →
    OthersKept pid (run IpcTracker.step t calls) (run IpcTracker.step (t.removeProcess pid) calls)

/-! ## links and calls -/

section Calls

variable {t : IpcTracker} {link : IpcLink} {pid : UInt32}

theorem mem_getLinks : link ∈ t.getLinks
    ↔ (∃ key counter, t.alpc.lookup key = some counter
        ∧ IpcTracker.alpcLink key counter = link)
      ∨ ∃ key counter, t.rpc.lookup key = some counter ∧ t.rpcLink key counter = link := by
  simp only [IpcTracker.getLinks, Multiset.mem_add, Multiset.mem_map, Sigma.exists,
    ← Finmap.mem_lookup_iff, Option.mem_def]

/-- What an RPC event does: nothing, name an endpoint's server, or count a call of its process. -/
theorem onRpc_cases (record : RpcRecord) (now : ℤ) :
    (∀ t : IpcTracker, t.onRpc record now = t)
      ∨ (∃ k, ∀ t : IpcTracker, t.onRpc record now
          = { t with endpoints := t.endpoints.insert k record.pid })
      ∨ ∃ key : RpcKey, key.clientPid = record.pid ∧ ∀ t : IpcTracker, t.onRpc record now
          = { t with rpc := t.rpc.insert key (((t.rpc.lookup key).getD {}).add now) } := by
  by_cases hbad : (record.id ≠ clientCallStart ∧ record.id ≠ serverCallStart)
      ∨ record.userData.length < 16 + 2 * 4
  · exact Or.inl fun t => if_pos hbad
  · by_cases hs : record.id = serverCallStart
    · exact Or.inr (Or.inl ⟨_, fun t => (if_neg hbad).trans (if_pos hs)⟩)
    · exact Or.inr (Or.inr ⟨_, rfl, fun t => (if_neg hbad).trans (if_neg hs)⟩)

end Calls

/-! ## trackers with the same messages -/

/-- Every event from here on finds the same record in both. -/
structure SameMessages (clock : UInt64) (s s' : IpcTracker) : Prop where
  timed : s.Timed clock
  timed' : s'.Timed clock
  message : ∀ id tick, clock ≤ tick → s.message id tick = s'.message id tick

section SameMessages

variable {s s' : IpcTracker} {clock tick : UInt64} {record : AlpcRecord} {now : ℤ}

theorem IpcTracker.Timed.mono {t : IpcTracker} (h : t.Timed clock) (hle : clock ≤ tick) :
    t.Timed tick :=
  fun id m hm => UInt64.le_trans (h id m hm) hle

theorem SameMessages.mono (h : SameMessages clock s s') (hle : clock ≤ tick) :
    SameMessages tick s s' where
  timed := h.timed.mono hle
  timed' := h.timed'.mono hle
  message id tick' hle' := h.message id tick' (UInt64.le_trans hle hle')

theorem SameMessages.noted (h : SameMessages tick s s') :
    s.noted record tick = s'.noted record tick := by
  rw [IpcTracker.noted, IpcTracker.noted, h.message _ _ (UInt64.le_refl tick)]

theorem SameMessages.effect (h : SameMessages tick s s') :
    s.effect record tick = s'.effect record tick := by
  rw [IpcTracker.effect, IpcTracker.effect, h.noted]

theorem SameMessages.onAlpc (h : SameMessages tick s s') :
    SameMessages tick (s.onAlpc record tick now) (s'.onAlpc record tick now) where
  timed := onAlpc_timed h.timed
  timed' := onAlpc_timed h.timed'
  message id tick' hle := by
    by_cases hi : record.isIgnored
    · rw [onAlpc_ignored hi, onAlpc_ignored hi]
      exact h.message id tick' hle
    · rw [onAlpc_message h.timed hi hle, onAlpc_message h.timed' hi hle, h.message id tick' hle,
        IpcTracker.rest, IpcTracker.rest, h.noted]

/-- A change of the other fields. -/
theorem SameMessages.of_eq {u u' : IpcTracker} (h : SameMessages clock s s')
    (hu : u.pending = s.pending) (hu' : u'.pending = s'.pending) : SameMessages clock u u' := by
  refine ⟨?_, ?_, ?_⟩
  · intro id m hm
    exact h.timed id m (hu ▸ hm)
  · intro id m hm
    exact h.timed' id m (hu' ▸ hm)
  · intro id tick hle
    rw [IpcTracker.message, IpcTracker.message, hu, hu']
    exact h.message id tick hle

theorem SameMessages.step {c : Call} (h : SameMessages clock s s') (hc : clock ≤ c.clock clock) :
    SameMessages (c.clock clock) (s.step c) (s'.step c) := by
  cases c with
  | onAlpc record tick now => exact (h.mono hc).onAlpc
  | onRpc record now =>
    rcases onRpc_cases record now with heq | ⟨k, heq⟩ | ⟨key, -, heq⟩
    · simp only [IpcTracker.step, heq]
      exact h
    · simp only [IpcTracker.step, heq]
      exact h.of_eq rfl rfl
    · simp only [IpcTracker.step, heq]
      exact h.of_eq rfl rfl
  | removeProcess pid => exact h.of_eq rfl rfl

end SameMessages

/-! ## the other processes -/

/-- The trackers differ in the process's links and endpoints only. -/
structure Apart (pid : UInt32) (clock : UInt64) (s s' : IpcTracker) : Prop where
  messages : SameMessages clock s s'
  alpc : ∀ key : UInt64, (key >>> 32).toUInt32 ≠ pid → key.toUInt32 ≠ pid →
    s.alpc.lookup key = s'.alpc.lookup key
  rpc : ∀ key, key.clientPid ≠ pid → s.rpc.lookup key = s'.rpc.lookup key
  endpoints : ∀ k, s'.endpoints.lookup k = s.endpoints.lookup k
    ∨ s.endpoints.lookup k = some pid ∧ s'.endpoints.lookup k = none

section Apart

variable {s s' : IpcTracker} {clock : UInt64} {pid : UInt32}

theorem lookup_removed (t : IpcTracker) (pid : UInt32) :
    (∀ key, (t.removeProcess pid).alpc.lookup key
        = (t.alpc.lookup key).filter fun _ =>
          !((key >>> 32).toUInt32 = pid || key.toUInt32 = pid : Bool))
      ∧ (∀ key, (t.removeProcess pid).rpc.lookup key
        = (t.rpc.lookup key).filter fun _ => !decide (key.clientPid = pid))
      ∧ ∀ k, (t.removeProcess pid).endpoints.lookup k
        = (t.endpoints.lookup k).filter fun server => !decide (server = pid) :=
  ⟨fun _ => Finmap.lookup_eraseIf _ _ _, fun _ => Finmap.lookup_eraseIf _ _ _,
    fun _ => Finmap.lookup_eraseIf _ _ _⟩

variable (pid) in
theorem apart_removed {t : IpcTracker} (ht : t.Timed clock) :
    Apart pid clock t (t.removeProcess pid) := by
  obtain ⟨halpc, hrpc, hendpoints⟩ := lookup_removed t pid
  refine ⟨⟨ht, ht, fun _ _ _ => rfl⟩, fun key hhigh hlow => ?_, fun key hkey => ?_, fun k => ?_⟩
  · rw [halpc]
    cases t.alpc.lookup key <;> simp [Option.filter_some, hhigh, hlow]
  · rw [hrpc]
    cases t.rpc.lookup key <;> simp [Option.filter_some, hkey]
  · rw [hendpoints]
    cases hk : t.endpoints.lookup k with
    | none => exact Or.inl rfl
    | some server =>
      by_cases hs : server = pid
      · exact Or.inr ⟨congrArg some hs, by simp [Option.filter_some, hs]⟩
      · exact Or.inl (by simp [Option.filter_some, hs])

theorem Apart.step {c : Call} (h : Apart pid clock s s') (hc : clock ≤ c.clock clock) :
    Apart pid (c.clock clock) (s.step c) (s'.step c) := by
  have hmessages := h.messages.step hc
  cases c with
  | onAlpc record tick now =>
    have hnow : SameMessages tick s s' := h.messages.mono hc
    refine ⟨hmessages, fun key hhigh hlow => ?_, fun key hkey => ?_, fun k => ?_⟩
    · simp only [IpcTracker.step]
      by_cases hi : record.isIgnored
      · rw [onAlpc_ignored hi, onAlpc_ignored hi, h.alpc key hhigh hlow]
      · rw [onAlpc_alpc hi, onAlpc_alpc hi, lookup_addPair, lookup_addPair,
          hnow.effect, h.alpc key hhigh hlow]
    · simp only [IpcTracker.step, onAlpc_rpc.1]
      exact h.rpc key hkey
    · simp only [IpcTracker.step, onAlpc_rpc.2]
      exact h.endpoints k
  | onRpc record now =>
    rcases onRpc_cases record now with heq | ⟨k, heq⟩ | ⟨key, -, heq⟩
    · simp only [IpcTracker.step, heq]
      exact h
    · simp only [IpcTracker.step, heq] at hmessages ⊢
      refine ⟨hmessages, h.alpc, h.rpc, fun j => ?_⟩
      rw [Finmap.lookup_insert_eq, Finmap.lookup_insert_eq]
      split
      · exact Or.inl rfl
      · exact h.endpoints j
    · simp only [IpcTracker.step, heq] at hmessages ⊢
      refine ⟨hmessages, h.alpc, fun j hj => ?_, h.endpoints⟩
      rw [Finmap.lookup_insert_eq, Finmap.lookup_insert_eq]
      split
      · next hkey => rw [h.rpc key (hkey ▸ hj)]
      · exact h.rpc j hj
  | removeProcess q =>
    obtain ⟨halpc, hrpc, hendpoints⟩ := lookup_removed s q
    obtain ⟨halpc', hrpc', hendpoints'⟩ := lookup_removed s' q
    refine ⟨hmessages, fun key hhigh hlow => ?_, fun key hkey => ?_, fun k => ?_⟩
    · exact (halpc key).trans ((h.alpc key hhigh hlow ▸ halpc' key).symm)
    · exact (hrpc key).trans ((h.rpc key hkey ▸ hrpc' key).symm)
    · simp only [IpcTracker.step, hendpoints, hendpoints']
      rcases h.endpoints k with heq | ⟨hk, hk'⟩
      · exact Or.inl (by rw [heq])
      · rw [hk, hk']
        by_cases hq : pid = q
        · exact Or.inl (by simp [Option.filter_some, hq])
        · exact Or.inr (by simp [Option.filter_some, hq])

theorem Apart.run {calls : List Call} (h : Apart pid clock s s') (ht : Ticking clock calls) :
    ∃ last, Apart pid last (run IpcTracker.step s calls) (run IpcTracker.step s' calls) := by
  induction calls generalizing s s' clock with
  | nil => exact ⟨clock, h⟩
  | cons c calls ih => exact ih (h.step ht.1) ht.2

theorem Apart.othersKept (h : Apart pid clock s s') : OthersKept pid s s' := by
  have hserver : ∀ k server, server ≠ pid →
      (s.endpoints.lookup k = some server ↔ s'.endpoints.lookup k = some server) := by
    intro k server hs
    rcases h.endpoints k with heq | ⟨hk, hk'⟩
    · rw [heq]
    · rw [hk, hk']
      simp [Ne.symm hs]
  refine ⟨fun link hlink hnames => ?_, fun link hlink hnames => ?_, hserver⟩
  · rcases mem_getLinks.mp hlink with ⟨key, counter, hkey, rfl⟩ | ⟨key, counter, hkey, rfl⟩
    · refine mem_getLinks.mpr (Or.inl ⟨key, counter, ?_, rfl⟩)
      rw [← h.alpc key (fun he => hnames (Or.inl he)) fun he => hnames (Or.inr he)]
      exact hkey
    · refine mem_getLinks.mpr (Or.inr ⟨key, counter, ?_, ?_⟩)
      · rw [← h.rpc key fun he => hnames (Or.inl he)]
        exact hkey
      · rcases h.endpoints (key.protocol, key.endpoint) with heq | ⟨hk, -⟩
        · rw [IpcTracker.rpcLink, heq]
          rfl
        · -- a local call's server would be the process
          by_cases haddress : key.networkAddress = []
          · refine absurd (Or.inr ?_) hnames
            simp [IpcTracker.rpcLink, haddress, hk]
          · simp [IpcTracker.rpcLink, haddress]
  · rcases mem_getLinks.mp hlink with ⟨key, counter, hkey, rfl⟩ | ⟨key, counter, hkey, rfl⟩
    · refine Or.inl (mem_getLinks.mpr (Or.inl ⟨key, counter, ?_, rfl⟩))
      rw [h.alpc key (fun he => hnames (Or.inl he)) fun he => hnames (Or.inr he)]
      exact hkey
    · have hold : s.rpc.lookup key = some counter := by
        rw [h.rpc key fun he => hnames (Or.inl he)]
        exact hkey
      by_cases haddress : key.networkAddress = []
      · rcases h.endpoints (key.protocol, key.endpoint) with heq | ⟨hk, hk'⟩
        · refine Or.inl (mem_getLinks.mpr (Or.inr ⟨key, counter, hold, ?_⟩))
          rw [IpcTracker.rpcLink, IpcTracker.rpcLink, heq]
        · refine Or.inr ⟨by simp [IpcTracker.rpcLink, haddress, hk'],
            mem_getLinks.mpr (Or.inr ⟨key, counter, hold, ?_⟩)⟩
          simp [IpcTracker.rpcLink, haddress, hk]
      · refine Or.inl (mem_getLinks.mpr (Or.inr ⟨key, counter, hold, ?_⟩))
        simp [IpcTracker.rpcLink, haddress]

end Apart

/-! ## nothing names the process -/

/-- Nothing the tracker has names the process, and no event finds a message it sent or received. -/
structure Clean (pid : UInt32) (clock : UInt64) (s : IpcTracker) : Prop where
  timed : s.Timed clock
  message : ∀ id tick, clock ≤ tick →
    (s.message id tick).sender ≠ pid ∧ (s.message id tick).receiver ≠ pid
  alpc : ∀ key ∈ s.alpc, (key >>> 32).toUInt32 ≠ pid ∧ key.toUInt32 ≠ pid
  rpc : ∀ key ∈ s.rpc, key.clientPid ≠ pid
  endpoints : ∀ k, s.endpoints.lookup k ≠ some pid

section Clean

variable {s : IpcTracker} {clock : UInt64} {pid : UInt32} {m : PendingMessage}

theorem effect_sides {p : UInt32 × UInt32} (h : m.effect = some p) :
    p = (m.sender, m.receiver) ∨ p = (m.receiver, m.sender) := by
  unfold PendingMessage.effect PendingMessage.pair at h
  split at h
  · split at h
    · cases h
    · split at h
      · exact Or.inr (Option.some.inj h).symm
      · exact Or.inl (Option.some.inj h).symm
  · cases h

/-- An event of another process makes no message the process's. -/
theorem note_sides (opcode : UInt8) {q : UInt32} (hq : q ≠ pid)
    (h : m.sender ≠ pid ∧ m.receiver ≠ pid) :
    (m.note opcode q).sender ≠ pid ∧ (m.note opcode q).receiver ≠ pid := by
  unfold PendingMessage.note
  split
  · exact ⟨hq, h.2⟩
  · split
    · exact ⟨h.1, hq⟩
    · exact h

theorem rest_sides (hpid : pid ≠ 0) (h : m.sender ≠ pid ∧ m.receiver ≠ pid) :
    m.rest.sender ≠ pid ∧ m.rest.receiver ≠ pid := by
  unfold PendingMessage.rest
  split
  · exact ⟨hpid.symm, hpid.symm⟩
  · exact h

theorem renew_sides {tick : UInt64} (hpid : pid ≠ 0) (h : m.sender ≠ pid ∧ m.receiver ≠ pid) :
    (m.renew tick).sender ≠ pid ∧ (m.renew tick).receiver ≠ pid := by
  unfold PendingMessage.renew
  split
  · exact ⟨hpid.symm, hpid.symm⟩
  · exact h

theorem Clean.onAlpc {record : AlpcRecord} {tick : UInt64} {now : ℤ} (h : Clean pid tick s)
    (hpid : pid ≠ 0) (hr : record.pid ≠ pid) : Clean pid tick (s.onAlpc record tick now) := by
  by_cases hi : record.isIgnored
  · rw [onAlpc_ignored hi]
    exact h
  have hnoted := note_sides record.opcode hr
    (h.message record.id tick (UInt64.le_refl tick))
  refine ⟨onAlpc_timed h.timed, fun id tick' hle => ?_, fun key hkey => ?_, ?_, ?_⟩
  · rw [onAlpc_message h.timed hi hle]
    split
    · refine renew_sides hpid ?_
      unfold IpcTracker.rest
      split
      · exact hnoted
      · exact rest_sides hpid hnoted
    · exact h.message id tick' hle
  · obtain ⟨counter, hcounter⟩ := Finmap.mem_iff.mp hkey
    rw [onAlpc_alpc hi, lookup_addPair] at hcounter
    split at hcounter
    · next hp =>
      obtain ⟨p, heffect, rfl⟩ := Option.map_eq_some_iff.mp hp
      rw [pairKey_high, pairKey_low]
      unfold IpcTracker.effect at heffect
      split at heffect
      · cases heffect
      · rcases effect_sides heffect with rfl | rfl
        · exact hnoted
        · exact hnoted.symm
    · exact h.alpc key (Finmap.mem_of_lookup_eq_some hcounter)
  · rw [onAlpc_rpc.1]
    exact h.rpc
  · rw [onAlpc_rpc.2]
    exact h.endpoints

theorem Clean.mono {tick : UInt64} (h : Clean pid clock s) (hle : clock ≤ tick) :
    Clean pid tick s where
  timed := h.timed.mono hle
  message id tick' hle' := h.message id tick' (UInt64.le_trans hle hle')
  alpc := h.alpc
  rpc := h.rpc
  endpoints := h.endpoints

theorem Clean.step {c : Call} (h : Clean pid clock s) (hpid : pid ≠ 0)
    (hc : clock ≤ c.clock clock) (he : c.isEventOf pid = false) :
    Clean pid (c.clock clock) (s.step c) := by
  cases c with
  | onAlpc record tick now => exact (h.mono hc).onAlpc hpid (by simpa [Call.isEventOf] using he)
  | onRpc record now =>
    have hr : record.pid ≠ pid := by simpa [Call.isEventOf] using he
    rcases onRpc_cases record now with heq | ⟨k, heq⟩ | ⟨key, hkey, heq⟩
    · simp only [IpcTracker.step, heq]
      exact h
    · simp only [IpcTracker.step, heq]
      refine ⟨h.timed, h.message, h.alpc, h.rpc, fun j hj => ?_⟩
      rw [Finmap.lookup_insert_eq] at hj
      split at hj
      · exact hr (Option.some.inj hj)
      · exact h.endpoints j hj
    · simp only [IpcTracker.step, heq]
      refine ⟨h.timed, h.message, h.alpc, fun j hj => ?_, h.endpoints⟩
      rcases Finmap.mem_insert.mp hj with rfl | hj
      · exact hkey ▸ hr
      · exact h.rpc j hj
  | removeProcess q =>
    refine ⟨h.timed, h.message, fun key hkey => h.alpc key (Finmap.of_mem_eraseIf hkey),
      fun key hkey => h.rpc key (Finmap.of_mem_eraseIf hkey), fun k hk => ?_⟩
    exact h.endpoints k (Finmap.of_lookup_eraseIf hk)

theorem Clean.run {calls : List Call} (h : Clean pid clock s) (hpid : pid ≠ 0)
    (ht : Ticking clock calls) (he : ∀ c ∈ calls, c.isEventOf pid = false) :
    ∃ last, Clean pid last (Infra.run IpcTracker.step s calls) := by
  induction calls generalizing s clock with
  | nil => exact ⟨clock, h⟩
  | cons c calls ih =>
    exact ih (h.step hpid ht.1 (he c List.mem_cons_self)) ht.2 fun d hd =>
      he d (List.mem_cons_of_mem c hd)

theorem Clean.unlisted (h : Clean pid clock s) (hpid : pid ≠ 0) :
    ∀ link ∈ s.getLinks, ¬ link.names pid := by
  intro link hlink hnames
  rcases mem_getLinks.mp hlink with ⟨key, counter, hkey, rfl⟩ | ⟨key, counter, hkey, rfl⟩
  · have hclean := h.alpc key (Finmap.mem_of_lookup_eq_some hkey)
    exact hnames.elim hclean.1 hclean.2
  · refine hnames.elim (h.rpc key (Finmap.mem_of_lookup_eq_some hkey)) fun hserver => ?_
    simp only [IpcTracker.rpcLink] at hserver
    split at hserver
    · cases hk : s.endpoints.lookup (key.protocol, key.endpoint) with
      | none => exact hpid (by simpa [hk] using hserver.symm)
      | some server =>
        rw [hk] at hserver
        exact h.endpoints _ (hk.trans (congrArg some hserver))
    · exact hpid hserver.symm

end Clean

/-! ## a message that may still be matched -/

/-- No record from `clock` back as far as a record lives names the process. -/
def NoFresh (t : IpcTracker) (clock : UInt64) (pid : UInt32) : Prop :=
  ∀ id m, t.pending.lookup id = some m → clock - m.tick ≤ pendingLifetime → m.names pid = false

section Fresh

variable {t : IpcTracker} {clock tick : UInt64} {pid : UInt32} {id : UInt32} {m : PendingMessage}

/-- A record that names the process starts over. -/
theorem NoFresh.renew (h : NoFresh t clock pid) (ht : t.Timed clock) (hle : clock ≤ tick)
    (hm : t.pending.lookup id = some m) (hnames : m.names pid = true) :
    m.renew tick = ({} : PendingMessage).renew tick := by
  refine renew_of_old (ht id m hm) (UInt64.not_le.mp fun hfresh => ?_) hle
  rw [h id m hm hfresh] at hnames
  cases hnames

theorem NoFresh.message (h : NoFresh t clock pid) (ht : t.Timed clock) (hpid : pid ≠ 0)
    (hle : clock ≤ tick) :
    (t.message id tick).sender ≠ pid ∧ (t.message id tick).receiver ≠ pid := by
  have hempty : (({} : PendingMessage).renew tick).sender ≠ pid
      ∧ (({} : PendingMessage).renew tick).receiver ≠ pid :=
    renew_sides hpid ⟨hpid.symm, hpid.symm⟩
  unfold IpcTracker.message
  cases hm : t.pending.lookup id with
  | none => exact hempty
  | some m =>
    cases hnames : m.names pid with
    | true =>
      rw [Option.getD_some, h.renew ht hle hm hnames]
      exact hempty
    | false =>
      simp only [PendingMessage.names, Bool.or_eq_false_iff, decide_eq_false_iff_not] at hnames
      exact renew_sides hpid hnames.1

theorem NoFresh.clean (h : NoFresh t clock pid) (ht : t.Timed clock) (hpid : pid ≠ 0) :
    Clean pid clock (t.removeProcess pid) := by
  obtain ⟨halpc, hrpc, hendpoints⟩ := lookup_removed t pid
  refine ⟨ht, fun id tick hle => h.message ht hpid hle, fun key hkey => ?_, fun key hkey => ?_,
    fun k hk => ?_⟩
  · obtain ⟨counter, hcounter⟩ := Finmap.mem_iff.mp hkey
    rw [halpc, Option.filter_eq_some_iff] at hcounter
    simpa using hcounter.2
  · obtain ⟨counter, hcounter⟩ := Finmap.mem_iff.mp hkey
    rw [hrpc, Option.filter_eq_some_iff] at hcounter
    simpa using hcounter.2
  · rw [hendpoints, Option.filter_eq_some_iff] at hk
    simp at hk

theorem NoFresh.sameMessages (h : NoFresh t clock pid) (ht : t.Timed clock) :
    SameMessages clock (t.removeProcess pid) ((t.removeProcess pid).forgetMessages pid) := by
  have hkept : ∀ id, ((t.removeProcess pid).forgetMessages pid).pending.lookup id
      = (t.pending.lookup id).filter fun m => !m.names pid :=
    fun id => Finmap.lookup_eraseIf _ _ _
  refine ⟨ht, fun id m hm => ?_, fun id tick hle => ?_⟩
  · rw [hkept, Option.mem_def, Option.filter_eq_some_iff] at hm
    exact ht id m hm.1
  · show ((t.pending.lookup id).getD {}).renew tick = _
    rw [IpcTracker.message, hkept]
    cases hm : t.pending.lookup id with
    | none => rfl
    | some m =>
      cases hnames : m.names pid with
      | true =>
        rw [Option.filter_some, hnames]
        exact h.renew ht hle hm hnames
      | false =>
        rw [Option.filter_some, hnames]
        rfl

/-- Trackers that find the same records count the same. -/
theorem SameMessages.run_alpc {s s' : IpcTracker} {calls : List Call}
    (h : SameMessages clock s s') (halpc : s.alpc = s'.alpc) (ht : Ticking clock calls) :
    (run IpcTracker.step s calls).alpc = (run IpcTracker.step s' calls).alpc := by
  induction calls generalizing s s' clock with
  | nil => exact halpc
  | cons c calls ih =>
    refine ih (h.step ht.1) ?_ ht.2
    cases c with
    | onAlpc record tick now =>
      simp only [IpcTracker.step]
      by_cases hi : record.isIgnored
      · rw [onAlpc_ignored hi, onAlpc_ignored hi, halpc]
      · have hnow : SameMessages tick s s' := h.mono ht.1
        rw [onAlpc_alpc hi, onAlpc_alpc hi, hnow.effect, halpc]
    | onRpc record now =>
      rcases onRpc_cases record now with heq | ⟨k, heq⟩ | ⟨key, -, heq⟩
      · simp only [IpcTracker.step, heq]
        exact halpc
      · simp only [IpcTracker.step, heq]
        exact halpc
      · simp only [IpcTracker.step, heq]
        exact halpc
    | removeProcess q =>
      simp only [IpcTracker.step, IpcTracker.removeProcess, halpc]

theorem NoFresh.forgotten (h : NoFresh t clock pid) (ht : t.Timed clock) (hpid : pid ≠ 0) :
    Forgotten t clock pid where
  unlisted calls hticks he := by
    obtain ⟨last, hclean⟩ := (h.clean ht hpid).run hpid hticks he
    exact hclean.unlisted hpid
  uncounted calls hticks client server _ := by
    rw [(h.sameMessages ht).run_alpc rfl hticks]
  others calls hticks := by
    obtain ⟨last, hapart⟩ := (apart_removed pid ht).run hticks
    exact hapart.othersKept

end Fresh

/-! ## a message that is matched after all -/

/-- An event of a message. -/
def eventOf (opcode : UInt8) (pid id : UInt32) : AlpcRecord := ⟨opcode, pid, leBytes 4 id.toNat⟩

/-- A call on a server of another machine. -/
def remoteCall : RpcRecord := ⟨clientCallStart, 1, List.replicate 24 0 ++ [88, 0]⟩

section Matched

variable {t : IpcTracker} {clock : UInt64} {pid q id : UInt32} {opcode : UInt8} {now : ℤ}
  {m : PendingMessage}

@[simp]
theorem eventOf_id : (eventOf opcode pid id).id = id := by
  have h := u32_append id []
  rwa [List.append_nil] at h

theorem eventOf_opcode : (eventOf opcode pid id).opcode = opcode := rfl

variable (id) in
theorem eventOf_isIgnored (ho : opcode = alpcSend ∨ opcode = alpcReceive) (h0 : pid ≠ 0)
    (hmax : pid ≠ 0xFFFFFFFF) : ¬ (eventOf opcode pid id).isIgnored := by
  have hlength : (leBytes 4 id.toNat).length = 4 := length_leBytes 4 _
  rcases ho with rfl | rfl
  · simp [AlpcRecord.isIgnored, eventOf, hlength, h0, hmax, alpcSend, alpcWaitForReply]
  · simp [AlpcRecord.isIgnored, eventOf, hlength, h0, hmax, alpcSend, alpcReceive,
      alpcWaitForReply]

theorem effect_eventOf (ho : opcode = alpcSend ∨ opcode = alpcReceive) :
    t.effect (eventOf opcode pid id) clock = ((t.message id clock).note opcode pid).effect := by
  have hwait : opcode ≠ alpcWaitForReply := by
    rcases ho with rfl | rfl <;> decide
  rw [IpcTracker.effect, eventOf_opcode, if_neg hwait, IpcTracker.noted, eventOf_id]
  rfl

/-- The record that the next event of the message finds. -/
theorem message_eventOf (ht : t.Timed clock) (ho : opcode = alpcSend ∨ opcode = alpcReceive)
    (h0 : pid ≠ 0) (hmax : pid ≠ 0xFFFFFFFF) :
    (t.onAlpc (eventOf opcode pid id) clock now).message id clock
      = ((t.message id clock).note opcode pid).rest := by
  have hwait : opcode ≠ alpcWaitForReply := by
    rcases ho with rfl | rfl <;> decide
  rw [onAlpc_message ht (eventOf_isIgnored id ho h0 hmax) (UInt64.le_refl clock), eventOf_id,
    if_pos rfl, renew_self IpcTracker.rest_tick, IpcTracker.rest, eventOf_opcode, if_neg hwait,
    IpcTracker.noted, eventOf_id]
  rfl

variable (now) in
theorem listed_of_effect {record : AlpcRecord} {p : UInt32 × UInt32} (hi : ¬ record.isIgnored)
    (he : t.effect record clock = some p) : ∃ link ∈ (t.onAlpc record clock now).getLinks,
      link.clientPid = p.1 ∧ link.serverPid = p.2 := by
  have hcounted : (t.onAlpc record clock now).alpc.lookup (pairKey p.1 p.2)
      = some (((t.alpc.lookup (pairKey p.1 p.2)).getD {}).add now) := by
    rw [onAlpc_alpc hi, lookup_addPair, he]
    exact if_pos rfl
  exact ⟨_, mem_getLinks.mpr (Or.inl ⟨_, _, hcounted, rfl⟩), pairKey_high _ _, pairKey_low _ _⟩

theorem effect_of_sides (hs : m.sender ≠ 0) (hr : m.receiver ≠ 0) (hne : m.sender ≠ m.receiver) :
    ∃ p, m.effect = some p
      ∧ (p = (m.sender, m.receiver) ∨ p = (m.receiver, m.sender)) := by
  have hmatched : m.matched = true := by simp [PendingMessage.matched, hs, hr]
  rw [PendingMessage.effect, if_pos hmatched, PendingMessage.pair, if_neg hne]
  split
  · exact ⟨_, rfl, Or.inr rfl⟩
  · exact ⟨_, rfl, Or.inl rfl⟩

/-- A record that is not too old is found as it is. -/
theorem message_of_fresh (hm : t.pending.lookup id = some m)
    (hfresh : clock - m.tick ≤ pendingLifetime) : t.message id clock = { m with tick := clock } := by
  rw [IpcTracker.message, hm, Option.getD_some, PendingMessage.renew,
    if_neg (UInt64.not_lt.mpr hfresh)]

theorem exists_other (pid : UInt32) : ∃ q : UInt32, q ≠ 0 ∧ q ≠ 0xFFFFFFFF ∧ q ≠ pid := by
  by_cases h : pid = 1
  · exact ⟨2, by decide, by decide, by rw [h]; decide⟩
  · exact ⟨1, by decide, by decide, Ne.symm h⟩

/-- The server of another machine is not known, and 0 stands for that. -/
theorem Forgotten.ne_zero (h : Forgotten t clock pid) : pid ≠ 0 := by
  rintro rfl
  let key : RpcKey := ⟨1, List.replicate 16 0, 0, [], [88]⟩
  have hcalled : ∀ s : IpcTracker, (s.onRpc remoteCall 0).rpc.lookup key
      = some (((s.rpc.lookup key).getD {}).add 0) := fun s => Finmap.lookup_insert s.rpc
  exact h.unlisted [.onRpc remoteCall 0] ⟨UInt64.le_refl clock, trivial⟩ (by decide) _
    (mem_getLinks.mpr (Or.inr ⟨key, _, hcalled (t.removeProcess 0), rfl⟩)) (Or.inr rfl)

/-- An event of another process matches a message with one side of the process. -/
theorem Forgotten.sides (h : Forgotten t clock pid) (hm : t.pending.lookup id = some m)
    (hfresh : clock - m.tick ≤ pendingLifetime) : m.sender ≠ pid ∧ m.receiver ≠ pid := by
  have hpid := h.ne_zero
  obtain ⟨q, hq0, hqmax, hq⟩ := exists_other pid
  have hmessage : (t.removeProcess pid).message id clock = { m with tick := clock } :=
    message_of_fresh hm hfresh
  -- whatever the event, no pair it is counted for has the process
  have hnone : ∀ opcode, (opcode = alpcSend ∨ opcode = alpcReceive) →
      ∀ p, (({ m with tick := clock } : PendingMessage).note opcode q).effect = some p →
        p.1 ≠ pid ∧ p.2 ≠ pid := by
    intro opcode ho p hp
    have hi := eventOf_isIgnored id ho hq0 hqmax
    have heffect : (t.removeProcess pid).effect (eventOf opcode q id) clock = some p := by
      rw [effect_eventOf ho, hmessage]
      exact hp
    obtain ⟨link, hlink, hclient, hserver⟩ := listed_of_effect 0 hi heffect
    have hnames := h.unlisted [.onAlpc (eventOf opcode q id) clock 0]
      ⟨UInt64.le_refl clock, trivial⟩ (by simp [Call.isEventOf, eventOf, hq]) link hlink
    exact ⟨fun he => hnames (Or.inl (hclient.trans he)),
      fun he => hnames (Or.inr (hserver.trans he))⟩
  constructor
  · intro hs
    obtain ⟨p, hp, hsides⟩ := effect_of_sides
      (m := ({ m with tick := clock } : PendingMessage).note alpcReceive q)
      (hs.trans_ne hpid) hq0 (hs.trans_ne hq.symm)
    have hclean := hnone alpcReceive (Or.inr rfl) p hp
    rcases hsides with rfl | rfl
    · exact hclean.1 hs
    · exact hclean.2 hs
  · intro hr
    obtain ⟨p, hp, hsides⟩ := effect_of_sides
      (m := ({ m with tick := clock } : PendingMessage).note alpcSend q)
      hq0 (hr.trans_ne hpid) (fun heq => hq (heq.trans hr))
    have hclean := hnone alpcSend (Or.inl rfl) p hp
    rcases hsides with rfl | rfl
    · exact hclean.2 hr
    · exact hclean.1 hr

theorem addPair_isSome {alpc : Finmap fun _ : UInt64 => Counter} {pair : Option (UInt32 × UInt32)}
    {key : UInt64} (h : (alpc.lookup key).isSome) : ((addPair alpc pair now).lookup key).isSome := by
  rw [lookup_addPair]
  split
  · rfl
  · exact h

theorem addPair_isSome_self (alpc : Finmap fun _ : UInt64 => Counter) (p : UInt32 × UInt32) :
    ((addPair alpc (some p) now).lookup (pairKey p.1 p.2)).isSome := by
  rw [lookup_addPair, Option.map_some, if_pos rfl]
  rfl

/-- Three events of another process and a later one with the ID: a message between the two, whatever
the record has of an earlier one's sides. -/
def threeEvents (clock : UInt64) (q pid id : UInt32) : List Call :=
  [ .onAlpc (eventOf alpcSend q id) clock 0, .onAlpc (eventOf alpcReceive pid id) clock 0,
    .onAlpc (eventOf alpcSend q id) clock 0 ]

/-- What the three events are counted for, from the record that the first one finds. -/
def threeCounts (alpc : Finmap fun _ : UInt64 => Counter) (m : PendingMessage) (q pid : UInt32) :
    Finmap fun _ : UInt64 => Counter :=
  let first := m.note alpcSend q
  let second := first.rest.note alpcReceive pid
  let third := second.rest.note alpcSend q
  addPair (addPair (addPair alpc first.effect 0) second.effect 0) third.effect 0

theorem threeEvents_alpc (ht : t.Timed clock) (hq : q ≠ 0) (hq' : q ≠ 0xFFFFFFFF) (hpid : pid ≠ 0)
    (hpid' : pid ≠ 0xFFFFFFFF) : (run IpcTracker.step t (threeEvents clock q pid id)).alpc
      = threeCounts t.alpc (t.message id clock) q pid := by
  have hsend := Or.inl (b := alpcSend = alpcReceive) (rfl : alpcSend = alpcSend)
  have hreceive := Or.inr (a := alpcReceive = alpcSend) (rfl : alpcReceive = alpcReceive)
  have ht₁ : (t.onAlpc (eventOf alpcSend q id) clock 0).Timed clock := onAlpc_timed ht
  simp only [threeEvents, run_cons, run_nil, IpcTracker.step, threeCounts]
  rw [onAlpc_alpc (eventOf_isIgnored id hsend hq hq'),
    onAlpc_alpc (eventOf_isIgnored id hreceive hpid hpid'),
    onAlpc_alpc (eventOf_isIgnored id hsend hq hq'), effect_eventOf hsend, effect_eventOf hreceive,
    effect_eventOf hsend, message_eventOf ht₁ hreceive hpid hpid', message_eventOf ht hsend hq hq']

section Counts

variable (alpc : Finmap fun _ : UInt64 => Counter) {tick : UInt64}

/-- A record that the process waits in counts the message with it as the client. -/
theorem waited_isSome (hclient : m.client = pid) (hq0 : q ≠ 0) (hpid : pid ≠ 0) (hq : q ≠ pid) :
    ((threeCounts alpc m q pid).lookup (pairKey pid q)).isSome := by
  unfold threeCounts
  dsimp only
  by_cases hr : m.receiver = 0
  · -- the second event completes it
    have hsecond : ((m.note alpcSend q).rest.note alpcReceive pid).effect = some (pid, q) := by
      simp [PendingMessage.rest, PendingMessage.effect, PendingMessage.matched,
        PendingMessage.pair, hr, hclient, hq0, hpid, hq]
    rw [hsecond]
    exact addPair_isSome (addPair_isSome_self _ (pid, q))
  · -- the first event completes an earlier one
    have hthird : (((m.note alpcSend q).rest.note alpcReceive pid).rest.note alpcSend q).effect
        = some (pid, q) := by
      simp [PendingMessage.rest, PendingMessage.effect, PendingMessage.matched,
        PendingMessage.pair, hr, hclient, hq0, hpid, hq]
    rw [hthird]
    exact addPair_isSome_self _ (pid, q)

/-- Without the wait its sender is the client. -/
theorem unwaited_lookup (hq0 : q ≠ 0) (hpid : pid ≠ 0) (hq : q ≠ pid) :
    (threeCounts alpc { tick := tick } q pid).lookup (pairKey pid q)
      = alpc.lookup (pairKey pid q) := by
  let m : PendingMessage := { tick := tick }
  have hfirst : (m.note alpcSend q).effect = none := by
    simp [m, PendingMessage.effect, PendingMessage.matched]
  have hsecond : ((m.note alpcSend q).rest.note alpcReceive pid).effect = some (q, pid) := by
    simp [m, PendingMessage.rest, PendingMessage.effect, PendingMessage.matched,
      PendingMessage.pair, hq0, hpid, hpid.symm, hq]
  have hthird : (((m.note alpcSend q).rest.note alpcReceive pid).rest.note alpcSend q).effect
      = none := by
    simp [m, PendingMessage.rest, PendingMessage.effect, PendingMessage.matched, hq0, hpid]
  have hkey : pairKey q pid ≠ pairKey pid q := fun heq =>
    hq (congrArg Prod.fst (pairKey_inj (a := (q, pid)) (b := (pid, q)) |>.mp heq))
  rw [threeCounts, hfirst, hsecond, hthird, lookup_addPair, lookup_addPair, lookup_addPair]
  simp [hkey]

end Counts

/-- A wait of the process makes it the client of a later message to its ID. -/
theorem Forgotten.waits (h : Forgotten t clock pid) (ht : t.Timed clock)
    (hm : t.pending.lookup id = some m) (hfresh : clock - m.tick ≤ pendingLifetime)
    (hmax : m.client ≠ 0xFFFFFFFF) : m.client ≠ pid := by
  intro hclient
  have hpid := h.ne_zero
  rw [hclient] at hmax
  obtain ⟨q, hq0, hqmax, hq⟩ := exists_other pid
  have hmessage : (t.removeProcess pid).message id clock = { m with tick := clock } :=
    message_of_fresh hm hfresh
  have hempty : ((t.removeProcess pid).forgetMessages pid).message id clock = { tick := clock } := by
    have hnames : m.names pid = true := by simp [PendingMessage.names, hclient]
    have hnone : ((t.removeProcess pid).forgetMessages pid).pending.lookup id = none := by
      refine (Finmap.lookup_eraseIf _ _ _).trans ?_
      rw [show (t.removeProcess pid).pending.lookup id = some m from hm, Option.filter_some, hnames]
      rfl
    rw [IpcTracker.message, hnone, Option.getD_none, PendingMessage.renew, ite_self]
  have hticks : Ticking clock (threeEvents clock q pid id) :=
    ⟨UInt64.le_refl clock, UInt64.le_refl clock, UInt64.le_refl clock, trivial⟩
  have htimed : ((t.removeProcess pid).forgetMessages pid).Timed clock := fun j n hn =>
    ht j n (Finmap.of_lookup_eraseIf hn)
  have hcounted := h.uncounted (threeEvents clock q pid id) hticks pid q (Or.inl rfl)
  rw [threeEvents_alpc (t := t.removeProcess pid) ht hq0 hqmax hpid hmax,
    threeEvents_alpc htimed hq0 hqmax hpid hmax, hmessage, hempty] at hcounted
  rw [unwaited_lookup _ hq0 hpid hq] at hcounted
  have hfound := waited_isSome (m := { m with tick := clock }) (t.removeProcess pid).alpc hclient
    hq0 hpid hq
  rw [hcounted] at hfound
  have hremoved : (t.removeProcess pid).alpc.lookup (pairKey pid q) = none := by
    rw [(lookup_removed t pid).1, pairKey_high]
    cases t.alpc.lookup (pairKey pid q) <;> simp [Option.filter_some]
  rw [show ((t.removeProcess pid).forgetMessages pid).alpc = (t.removeProcess pid).alpc from rfl,
    hremoved] at hfound
  cases hfound

end Matched

/-! ## reachable trackers -/

/-- What is true of every record of a run. -/
structure Sane (clock : UInt64) (t : IpcTracker) : Prop where
  timed : t.Timed clock
  client : ∀ id, ∀ m ∈ t.pending.lookup id, m.client ≠ 0xFFFFFFFF

section Sane

variable {t : IpcTracker} {clock : UInt64}

theorem noted_client {record : AlpcRecord} {tick : UInt64}
    (h : ∀ id, ∀ m ∈ t.pending.lookup id, m.client ≠ 0xFFFFFFFF) (hi : ¬ record.isIgnored) :
    (t.noted record tick).client ≠ 0xFFFFFFFF := by
  have hpid : record.pid ≠ 0xFFFFFFFF := fun he =>
    hi (Or.inr (Or.inr (Or.inr (Or.inr he))))
  have hold : (t.message record.id tick).client ≠ 0xFFFFFFFF := by
    unfold IpcTracker.message PendingMessage.renew
    have hnone : (0 : UInt32) ≠ 0xFFFFFFFF := by decide
    split
    · exact hnone
    · cases hm : t.pending.lookup record.id with
      | none => exact hnone
      | some m => exact h record.id m hm
  unfold IpcTracker.noted PendingMessage.note
  split
  · exact hold
  · split
    · exact hold
    · exact hpid

theorem Sane.onAlpc {record : AlpcRecord} {tick : UInt64} {now : ℤ} (h : Sane tick t) :
    Sane tick (t.onAlpc record tick now) := by
  refine ⟨onAlpc_timed h.timed, fun id m hm => ?_⟩
  by_cases hi : record.isIgnored
  · rw [onAlpc_ignored hi] at hm
    exact h.client id m hm
  · rw [Option.mem_def] at hm
    rcases onAlpc_pending t tick now id hi with heq | ⟨hnone, -⟩
    · rw [heq, Finmap.lookup_insert_eq] at hm
      split at hm
      · cases hm
        unfold IpcTracker.rest
        split
        · exact noted_client h.client hi
        · rw [rest_client]
          exact noted_client h.client hi
      · exact h.client id m hm
    · rw [hnone] at hm
      cases hm

theorem Sane.step {c : Call} (h : Sane clock t) (hc : clock ≤ c.clock clock) :
    Sane (c.clock clock) (t.step c) := by
  cases c with
  | onAlpc record tick now => exact Sane.onAlpc ⟨h.timed.mono hc, h.client⟩
  | onRpc record now =>
    rcases onRpc_cases record now with heq | ⟨k, heq⟩ | ⟨key, -, heq⟩
    · simp only [IpcTracker.step, heq]
      exact h
    · simp only [IpcTracker.step, heq]
      exact ⟨h.timed, h.client⟩
    · simp only [IpcTracker.step, heq]
      exact ⟨h.timed, h.client⟩
  | removeProcess pid => exact ⟨h.timed, h.client⟩

theorem Sane.run {calls : List Call} (h : Sane clock t) (ht : Ticking clock calls) :
    Sane (calls.foldl (fun clock c => c.clock clock) clock) (run IpcTracker.step t calls) := by
  induction calls generalizing t clock with
  | nil => exact h
  | cons c calls ih => exact ih (h.step ht.1) ht.2

theorem sane_start : Sane 0 {} where
  timed id m hm := by simp at hm
  client id m hm := by simp at hm

end Sane

/-- The tracker after the calls. -/
abbrev IpcTracker.after (calls : List Call) : IpcTracker := run IpcTracker.step {} calls

/-- The tick of the last ALPC event of the calls. -/
abbrev clockAfter (calls : List Call) : UInt64 := calls.foldl (fun clock c => c.clock clock) 0

/-- In any tracker a run leads to, at any time from then on, `RemoveProcess` forgets the process
just if its ID isn't 0 and no record that still lives names it. -/
theorem removeProcess_unlinks_iff (calls : List Call) (h : Ticking 0 calls) (now : UInt64)
    (hnow : clockAfter calls ≤ now) (pid : UInt32) :
    Forgotten (IpcTracker.after calls) now pid
      ↔ pid ≠ 0 ∧ NoFresh (IpcTracker.after calls) now pid := by
  have hsane := sane_start.run h
  have htimed : (IpcTracker.after calls).Timed now := hsane.timed.mono hnow
  constructor
  · refine fun hforgotten => ⟨hforgotten.ne_zero, fun id m hm hfresh => ?_⟩
    have hsides := hforgotten.sides hm hfresh
    have hwaits := hforgotten.waits htimed hm hfresh (hsane.client id m hm)
    simp [PendingMessage.names, hsides.1, hsides.2, hwaits]
  · rintro ⟨hpid, hfresh⟩
    exact hfresh.forgotten htimed hpid

instance (t : IpcTracker) (clock : UInt64) (pid : UInt32) : Decidable (NoFresh t clock pid) :=
  inferInstanceAs (Decidable (∀ id m, t.pending.lookup id = some m →
    clock - m.tick ≤ pendingLifetime → m.names pid = false))

/-- A message of process 4 to process 8 that is received. -/
def received : List Call :=
  [ .onAlpc (eventOf alpcSend 4 1) 100 1, .onAlpc (eventOf alpcReceive 8 1) 101 2 ]

theorem removeProcess_forgets_received : Forgotten (IpcTracker.after received) 200 4 :=
  (removeProcess_unlinks_iff received (by decide) 200 (by decide) 4).mpr (by decide)

/-- A message that process 4 sent before it exited. -/
def sent : List Call := [.onAlpc (eventOf alpcSend 4 1) 100 1]

theorem removeProcess_leaves_sent : ¬ ∀ calls, Ticking 0 calls → ∀ now, clockAfter calls ≤ now →
    ∀ pid, Forgotten (IpcTracker.after calls) now pid := by
  intro h
  have hforgotten := h sent (by decide) 200 (by decide) 4
  -- its receiver's event is counted for the pair
  obtain ⟨counter, hcounter⟩ : ∃ counter, (run IpcTracker.step
      ((IpcTracker.after sent).removeProcess 4)
      [.onAlpc (eventOf alpcReceive 8 1) 200 2]).alpc.lookup (pairKey 4 8) = some counter :=
    Option.isSome_iff_exists.mp (by decide)
  exact hforgotten.unlisted _ (by decide) (by decide) _
    (mem_getLinks.mpr (Or.inl ⟨_, _, hcounter, rfl⟩)) (Or.inl (pairKey_high 4 8))

end WinSys.Ipc
