import WinSys.Ipc.Messages

/-!
# ALPC exchanges and their clients

An exchange is a request from a client to a server, each side's event of it in either order, then
perhaps a reply, and somewhere before that perhaps the client's wait for it. Exchanges on different
message IDs interleave freely, and an ID is taken by another exchange once the one before is over.

* `Followed`: the tracker and the exchange that each message ID is at
* `CountLaw`: what an event is counted for; `NotLeftover`
* `exchanges_counted`
-/

namespace WinSys.Ipc

open Infra

/-! ## exchanges -/

/-- An event of an exchange. -/
inductive Part
  | requestSend | requestReceive | wait | replySend | replyReceive
deriving DecidableEq, Repr

def Part.opcode : Part → UInt8
  | requestSend | replySend => alpcSend
  | requestReceive | replyReceive => alpcReceive
  | wait => alpcWaitForReply

/-- The process of an event between a client and a server. -/
def Part.pid (client server : UInt32) : Part → UInt32
  | requestSend | wait | replyReceive => client
  | requestReceive | replySend => server

/-- An exchange so far. -/
structure Exchange where
  client : UInt32
  server : UInt32
  sent : Bool := false
  received : Bool := false
  waited : Bool := false
  replySent : Bool := false
  replyReceived : Bool := false
  /-- The tick of its last event. -/
  tick : UInt64
deriving DecidableEq, Repr

namespace Exchange

variable (e : Exchange)

/-- Another exchange may have the message ID. -/
def isOver : Bool := e.sent && e.received && e.replySent == e.replyReceived

/-- The event may come next. -/
def fits : Part → Bool
  | .requestSend => !e.sent
  | .requestReceive => !e.received
  | .wait => !e.waited && !(e.replySent && e.replyReceived)
  | .replySend => e.sent && e.received && !e.replySent
  | .replyReceive => e.sent && e.received && !e.replyReceived

def see (tick : UInt64) : Part → Exchange
  | .requestSend => { e with sent := true, tick := tick }
  | .requestReceive => { e with received := true, tick := tick }
  | .wait => { e with waited := true, tick := tick }
  | .replySend => { e with replySent := true, tick := tick }
  | .replyReceive => { e with replyReceived := true, tick := tick }

/-- The sender and the receiver, if the event is the second of a message's two. -/
def completes : Part → Option (UInt32 × UInt32)
  | .requestSend => if e.received then some (e.client, e.server) else none
  | .requestReceive => if e.sent then some (e.client, e.server) else none
  | .wait => none
  | .replySend => if e.replyReceived then some (e.server, e.client) else none
  | .replyReceive => if e.replySent then some (e.server, e.client) else none

/-- The client and the server a message is counted for: of a reply, the client is the process that
waited for it, if it did. -/
def counted (part : Part) : Option (UInt32 × UInt32) :=
  if e.client = e.server then none
  else match part with
    | .requestSend | .requestReceive => e.completes part
    | .wait => none
    | .replySend | .replyReceive =>
      if e.waited then (e.completes part).map Prod.swap else e.completes part

end Exchange

/-- An event, with what it is of which exchange. -/
structure Delivered where
  record : AlpcRecord
  tick : UInt64
  now : ℤ
  part : Part
  client : UInt32
  server : UInt32
  /-- The exchange begins with it. -/
  first : Bool

def Delivered.id (d : Delivered) : UInt32 := u32 d.record.userData

/-- The tracker, with the last exchange on each message ID. -/
structure Followed where
  tracker : IpcTracker := {}
  clock : UInt64 := 0
  exchanges : UInt32 → Option Exchange := fun _ => none

namespace Followed

variable (w : Followed) (d : Delivered)

/-- The exchange an event is of, before it. -/
def exchange : Exchange :=
  let begun : Exchange := { client := d.client, server := d.server, tick := d.tick }
  if d.first then begun else (w.exchanges d.id).getD begun

def step : Followed where
  tracker := w.tracker.onAlpc d.record d.tick d.now
  clock := d.tick
  exchanges := Function.update w.exchanges d.id (some ((w.exchange d).see d.tick d.part))

/-- The client that the message ID's record has, unless it is too old. -/
def leftover : UInt32 := (((w.tracker.pending.lookup d.id).getD {}).renew d.tick).client

end Followed

/-- Two processes that have events. -/
def IsProcess (pid : UInt32) : Prop := pid ≠ 0 ∧ pid ≠ 0xFFFFFFFF

instance : DecidablePred IsProcess := fun _ => inferInstanceAs (Decidable (_ ∧ _))

/-- The event is the next of its message ID's exchange, or begins one when the last is over. -/
structure Regular (w : Followed) (d : Delivered) : Prop where
  clock : w.clock ≤ d.tick
  opcode : d.record.opcode = d.part.opcode
  pid : d.record.pid = d.part.pid d.client d.server
  size : 4 ≤ d.record.userData.length
  client : IsProcess d.client
  server : IsProcess d.server
  begins : d.first = true → ∀ e ∈ w.exchanges d.id, e.isOver = true
  continues : d.first = false → ∃ e ∈ w.exchanges d.id, e.client = d.client
    ∧ e.server = d.server ∧ d.tick - e.tick ≤ pendingLifetime
  fits : (w.exchange d).fits d.part = true

/-- A message between two processes is counted once, for its client and server. -/
def CountLaw (w : Followed) (d : Delivered) : Prop :=
  ∀ client server, (w.step d).tracker.alpcCount client server
    = w.tracker.alpcCount client server
      + if (w.exchange d).counted d.part = some (client, server) then 1 else 0

/-- A message that is complete before its exchange's wait finds no wait of its receiver, left by an
earlier exchange. -/
def NotLeftover (w : Followed) (d : Delivered) : Prop :=
  (w.exchange d).client ≠ (w.exchange d).server → (w.exchange d).waited = false →
    ∀ p ∈ (w.exchange d).completes d.part, w.leftover d ≠ p.2

/-! ## what a record says of an exchange -/

/-- What is true of every exchange. -/
structure Exchange.Sane (e : Exchange) : Prop where
  client : IsProcess e.client
  server : IsProcess e.server
  reply : e.replySent = true ∨ e.replyReceived = true → e.sent = true ∧ e.received = true

/-- A record has the side of the exchange's message that was seen, and the client if it waited. -/
structure Matches (e : Exchange) (m : PendingMessage) : Prop where
  sender : m.sender = if e.sent && !e.received then e.client
    else if e.replySent && !e.replyReceived then e.server else 0
  receiver : m.receiver = if e.received && !e.sent then e.server
    else if e.replyReceived && !e.replySent then e.client else 0
  client : e.waited = true → m.client = e.client

section Events

variable {e : Exchange} {m : PendingMessage} {part : Part} {tick : UInt64}

theorem Exchange.Sane.see (h : e.Sane) (hf : e.fits part = true) : (e.see tick part).Sane := by
  refine ⟨?_, ?_, ?_⟩
  · cases part <;> exact h.client
  · cases part <;> exact h.server
  · intro hreply
    cases part with
    | requestSend => exact ⟨rfl, (h.reply hreply).2⟩
    | requestReceive => exact ⟨(h.reply hreply).1, rfl⟩
    | wait => exact h.reply hreply
    | replySend =>
      simp only [Exchange.fits, Bool.and_eq_true] at hf
      exact hf.1
    | replyReceive =>
      simp only [Exchange.fits, Bool.and_eq_true] at hf
      exact hf.1

/-- A record with the event noted. -/
def noted (e : Exchange) (m : PendingMessage) (part : Part) : PendingMessage :=
  m.note part.opcode (part.pid e.client e.server)

/-- The record is matched when the event completes a message, which it then has both sides of. -/
theorem Matches.complete (h : Matches e m) (hs : e.Sane) (hf : e.fits part = true)
    (hw : part ≠ .wait) :
    match e.completes part with
    | some p => (noted e m part).sender = p.1 ∧ (noted e m part).receiver = p.2
        ∧ (noted e m part).client = m.client ∧ (noted e m part).matched = true
    | none => (noted e m part).matched = false := by
  have hc := hs.client.1
  have hv := hs.server.1
  have hsender := h.sender
  have hreceiver := h.receiver
  have hreply := hs.reply
  cases part with
  | wait => exact absurd rfl hw
  | requestSend =>
    simp only [Exchange.fits, Bool.not_eq_true'] at hf
    cases hr : e.received <;>
      simp_all [Exchange.completes, noted, Part.opcode, Part.pid, PendingMessage.matched]
  | requestReceive =>
    simp only [Exchange.fits, Bool.not_eq_true'] at hf
    cases hr : e.sent <;>
      simp_all [Exchange.completes, noted, Part.opcode, Part.pid, PendingMessage.matched]
  | replySend =>
    simp only [Exchange.fits, Bool.and_eq_true, Bool.not_eq_true'] at hf
    cases hr : e.replyReceived <;>
      simp_all [Exchange.completes, noted, Part.opcode, Part.pid, PendingMessage.matched]
  | replyReceive =>
    simp only [Exchange.fits, Bool.and_eq_true, Bool.not_eq_true'] at hf
    cases hr : e.replySent <;>
      simp_all [Exchange.completes, noted, Part.opcode, Part.pid, PendingMessage.matched]

/-- The record an event leaves. -/
def kept (e : Exchange) (m : PendingMessage) (part : Part) : PendingMessage :=
  if part = .wait then noted e m part else (noted e m part).rest

theorem Matches.see (h : Matches e m) (hs : e.Sane) (hf : e.fits part = true) :
    Matches (e.see tick part) (kept e m part) := by
  have hcomplete := h.complete hs hf
  have hc := hs.client.1
  have hv := hs.server.1
  have hsender := h.sender
  have hreceiver := h.receiver
  have hreply := hs.reply
  have hclient : part ≠ .wait → (e.see tick part).waited = true →
      (kept e m part).client = (e.see tick part).client := by
    intro hw hwaited
    rw [kept, if_neg hw, rest_client]
    cases part <;> first | exact absurd rfl hw | exact h.client hwaited
  cases part with
  | wait => exact ⟨hsender, hreceiver, fun _ => rfl⟩
  | requestSend =>
    simp only [Exchange.fits, Bool.not_eq_true'] at hf
    refine ⟨?_, ?_, hclient (by simp)⟩
    · cases hr : e.received <;> simp_all [Exchange.completes, Exchange.see, noted, Part.opcode,
        Part.pid, kept, PendingMessage.rest]
    · cases hr : e.received <;> simp_all [Exchange.completes, Exchange.see, noted, Part.opcode,
        Part.pid, kept, PendingMessage.rest]
  | requestReceive =>
    simp only [Exchange.fits, Bool.not_eq_true'] at hf
    refine ⟨?_, ?_, hclient (by simp)⟩
    · cases hr : e.sent <;> simp_all [Exchange.completes, Exchange.see, noted, Part.opcode,
        Part.pid, kept, PendingMessage.rest]
    · cases hr : e.sent <;> simp_all [Exchange.completes, Exchange.see, noted, Part.opcode,
        Part.pid, kept, PendingMessage.rest]
  | replySend =>
    simp only [Exchange.fits, Bool.and_eq_true, Bool.not_eq_true'] at hf
    refine ⟨?_, ?_, hclient (by simp)⟩
    · cases hr : e.replyReceived <;> simp_all [Exchange.completes, Exchange.see, noted, Part.opcode,
        Part.pid, kept, PendingMessage.rest]
    · cases hr : e.replyReceived <;> simp_all [Exchange.completes, Exchange.see, noted, Part.opcode,
        Part.pid, kept, PendingMessage.rest]
  | replyReceive =>
    simp only [Exchange.fits, Bool.and_eq_true, Bool.not_eq_true'] at hf
    refine ⟨?_, ?_, hclient (by simp)⟩
    · cases hr : e.replySent <;> simp_all [Exchange.completes, Exchange.see, noted, Part.opcode,
        Part.pid, kept, PendingMessage.rest]
    · cases hr : e.replySent <;> simp_all [Exchange.completes, Exchange.see, noted, Part.opcode,
        Part.pid, kept, PendingMessage.rest]

/-- A complete message is a request or a reply. -/
theorem Exchange.of_completes {p : UInt32 × UInt32} (h : e.completes part = some p) :
    (p = (e.client, e.server) ∧ e.counted part = if e.client = e.server then none else some p)
      ∨ (p = (e.server, e.client) ∧ e.counted part = if e.client = e.server then none
        else if e.waited then some p.swap else some p) := by
  have hcounted : e.counted part = if e.client = e.server then none
      else match part with
        | .requestSend | .requestReceive => some p
        | .wait => none
        | .replySend | .replyReceive => if e.waited then some p.swap else some p := by
    cases part <;> simp [Exchange.counted, h]
  cases part with
  | wait => cases h
  | requestSend | requestReceive =>
    left
    simp only [Exchange.completes] at h
    split at h
    · exact ⟨(Option.some.inj h).symm, hcounted⟩
    · cases h
  | replySend | replyReceive =>
    right
    simp only [Exchange.completes] at h
    split at h
    · exact ⟨(Option.some.inj h).symm, hcounted⟩
    · cases h

/-- What a record is counted for is what the exchange says, unless it names a wrong client. -/
theorem Matches.effect_iff (h : Matches e m) (hs : e.Sane) (hf : e.fits part = true)
    (hw : part ≠ .wait) : (noted e m part).effect = e.counted part
      ↔ (e.client ≠ e.server → e.waited = false → ∀ p ∈ e.completes part, m.client ≠ p.2) := by
  have hcomplete := h.complete hs hf hw
  have hclient := h.client
  cases hcomp : e.completes part with
  | none =>
    rw [hcomp] at hcomplete
    have hcounted : e.counted part = none := by
      cases part <;> simp [Exchange.counted, hcomp]
    rw [PendingMessage.effect, hcomplete, hcounted]
    simp
  | some p =>
    rw [hcomp] at hcomplete
    obtain ⟨hsender, hreceiver, hnoted, hmatched⟩ := hcomplete
    rw [PendingMessage.effect, hmatched, if_pos rfl, PendingMessage.pair, hsender, hreceiver,
      hnoted]
    have hmem : (∀ q ∈ some p, m.client ≠ q.2) ↔ m.client ≠ p.2 := by simp
    rw [hmem]
    by_cases hsame : e.client = e.server
    · -- within a process nothing is counted
      rcases Exchange.of_completes hcomp with ⟨rfl, hcounted⟩ | ⟨rfl, hcounted⟩
      · simp [hcounted, hsame]
      · simp [hcounted, hsame]
    · have hsame' : ¬ e.server = e.client := fun h => hsame h.symm
      rcases Exchange.of_completes hcomp with ⟨rfl, hcounted⟩ | ⟨rfl, hcounted⟩
      · -- a request, whose client is its sender
        rw [hcounted, if_neg hsame, if_neg hsame]
        cases hwaited : e.waited with
        | true => simp [hclient hwaited, hsame]
        | false =>
          by_cases hm : m.client = e.server
          · simp [hm, hsame, hsame']
          · simp [hm, hsame]
      · -- a reply, whose receiver is the client if it waited
        rw [hcounted, if_neg hsame, if_neg hsame']
        cases hwaited : e.waited with
        | true => simp [hclient hwaited, hsame]
        | false =>
          by_cases hm : m.client = e.client
          · simp [hm, hsame, hsame']
          · simp [hm, hsame]

end Events

/-! ## one event -/

/-- What is carried between events: the records in step with the exchanges, but for those that
were too old. -/
structure Held (w : Followed) : Prop where
  sane : ∀ id, ∀ e ∈ w.exchanges id, e.Sane ∧ e.tick ≤ w.clock
  record : ∀ id, ∀ e ∈ w.exchanges id, ∀ m ∈ w.tracker.pending.lookup id,
    Matches e m ∧ m.tick = e.tick
  lost : ∀ id, ∀ e ∈ w.exchanges id, w.tracker.pending.lookup id = none →
    pendingLifetime < w.clock - e.tick
  idle : ∀ id, w.exchanges id = none → w.tracker.pending.lookup id = none

section Step

variable {w : Followed} {d : Delivered}

theorem Held.start : Held {} where
  sane _ e he := by cases he
  record _ e he := by cases he
  lost _ e he := by cases he
  idle _ _ := rfl

/-- The record an event finds. -/
def Followed.found (w : Followed) (d : Delivered) : PendingMessage :=
  ((w.tracker.pending.lookup d.id).getD {}).renew d.tick

theorem Regular.exchange_first (hf : d.first = true) : w.exchange d
    = { client := d.client, server := d.server, tick := d.tick } := by
  rw [Followed.exchange, if_pos hf]

theorem Regular.exchange_next {e : Exchange} (hf : d.first = false) (he : w.exchanges d.id = some e) :
    w.exchange d = e := by
  rw [Followed.exchange, if_neg (by simp [hf]), he]
  rfl

theorem Regular.sides (hr : Regular w d) :
    (w.exchange d).client = d.client ∧ (w.exchange d).server = d.server := by
  cases hf : d.first with
  | true =>
    rw [Regular.exchange_first hf]
    exact ⟨rfl, rfl⟩
  | false =>
    obtain ⟨e, he, hc, hs, -⟩ := hr.continues hf
    rw [Regular.exchange_next hf he]
    exact ⟨hc, hs⟩

theorem Held.exchange_sane (h : Held w) (hr : Regular w d) : (w.exchange d).Sane := by
  cases hf : d.first with
  | true =>
    rw [Regular.exchange_first hf]
    exact ⟨hr.client, hr.server, by simp⟩
  | false =>
    obtain ⟨e, he, -⟩ := hr.continues hf
    rw [Regular.exchange_next hf he]
    exact (h.sane d.id e he).1

/-- An event finds a record in step with its exchange. -/
theorem Held.found_matches (h : Held w) (hr : Regular w d) :
    Matches (w.exchange d) (w.found d) := by
  unfold Followed.found
  cases hf : d.first with
  | true =>
    -- nothing is left of an exchange that is over but its client
    rw [Regular.exchange_first hf]
    have hclear : ((w.tracker.pending.lookup d.id).getD {}).sender = 0
        ∧ ((w.tracker.pending.lookup d.id).getD {}).receiver = 0 := by
      cases hm : w.tracker.pending.lookup d.id with
      | none => exact ⟨rfl, rfl⟩
      | some m =>
        cases he : w.exchanges d.id with
        | none =>
          rw [h.idle d.id he] at hm
          cases hm
        | some e =>
          have hmatches := (h.record d.id e he m hm).1
          have hover := hr.begins hf e he
          simp only [Exchange.isOver, Bool.and_eq_true, beq_iff_eq] at hover
          have hsender := hmatches.sender
          have hreceiver := hmatches.receiver
          cases hs : e.replySent <;> simp_all
    refine ⟨?_, ?_, fun hw => absurd hw (by simp)⟩
    · unfold PendingMessage.renew
      split
      · rfl
      · exact hclear.1
    · unfold PendingMessage.renew
      split
      · rfl
      · exact hclear.2
  | false =>
    obtain ⟨e, he, -, -, hsoon⟩ := hr.continues hf
    rw [Regular.exchange_next hf he]
    cases hm : w.tracker.pending.lookup d.id with
    | none =>
      have hlost := h.lost d.id e he hm
      have hle := sub_le_sub_of_le (h.sane d.id e he).2 hr.clock
      exact absurd (UInt64.lt_of_lt_of_le hlost (UInt64.le_trans hle hsoon)) (UInt64.lt_irrefl _)
    | some m =>
      obtain ⟨hmatches, htick⟩ := h.record d.id e he m hm
      rw [Option.getD_some, PendingMessage.renew, htick, if_neg (UInt64.not_lt.mpr hsoon)]
      exact ⟨hmatches.sender, hmatches.receiver, hmatches.client⟩

theorem found_tick : (w.found d).tick = d.tick := rfl

/-- What the tracker does with an event. -/
theorem Regular.onAlpc (hr : Regular w d) : w.tracker.onAlpc d.record d.tick d.now
    = if d.part = .wait then
        { w.tracker with
          pending := w.tracker.pending.insert d.id (noted (w.exchange d) (w.found d) d.part) }
      else (w.tracker.matchAlpc d.id (noted (w.exchange d) (w.found d) d.part) d.now).prunePending
        d.tick := by
  obtain ⟨hc, hs⟩ := hr.sides
  have hpid : IsProcess (d.part.pid d.client d.server) := by
    cases d.part
    all_goals first | exact hr.client | exact hr.server
  have hopcode : ¬ (d.part.opcode < alpcSend ∨ d.part.opcode > alpcWaitForReply) := by
    cases d.part <;> decide
  have hwait : d.part.opcode = alpcWaitForReply ↔ d.part = .wait := by
    cases d.part <;> decide
  have hgood : ¬ (d.record.opcode < alpcSend ∨ d.record.opcode > alpcWaitForReply
      ∨ d.record.userData.length < 4 ∨ d.record.pid = 0 ∨ d.record.pid = 0xFFFFFFFF) := by
    rw [hr.opcode, hr.pid]
    rintro (hlow | hhigh | hsize | hzero | hmax)
    · exact hopcode (Or.inl hlow)
    · exact hopcode (Or.inr hhigh)
    · have := hr.size
      omega
    · exact hpid.1 hzero
    · exact hpid.2 hmax
  rw [IpcTracker.onAlpc, if_neg hgood, noted, hc, hs, ← hr.opcode, ← hr.pid]
  by_cases hw : d.part = .wait
  · rw [if_pos hw, if_pos (by rw [hr.opcode]; exact hwait.mpr hw)]
    rfl
  · rw [if_neg hw, if_neg (by rw [hr.opcode]; exact fun h => hw (hwait.mp h))]
    rfl

/-- What the tracker counts of an event. -/
def Followed.effect (w : Followed) (d : Delivered) : Option (UInt32 × UInt32) :=
  if d.part = .wait then none else (noted (w.exchange d) (w.found d) d.part).effect

theorem Regular.alpcCount (hr : Regular w d) (client server : UInt32) :
    (w.step d).tracker.alpcCount client server = w.tracker.alpcCount client server
      + if w.effect d = some (client, server) then 1 else 0 := by
  show (w.tracker.onAlpc d.record d.tick d.now).alpcCount client server = _
  rw [hr.onAlpc, Followed.effect]
  by_cases hw : d.part = .wait
  · rw [if_pos hw, if_pos hw, if_neg (by simp)]
    exact (add_zero _).symm
  · rw [if_neg hw, if_neg hw, ← alpcCount_matchAlpc]
    unfold IpcTracker.alpcCount
    rw [prunePending_alpc]

theorem kept_tick {e : Exchange} {m : PendingMessage} {part : Part} :
    (kept e m part).tick = m.tick := by
  have hnoted : (noted e m part).tick = m.tick := by cases part <;> rfl
  unfold kept PendingMessage.rest
  split
  · exact hnoted
  · split
    · exact hnoted
    · exact hnoted

theorem Exchange.see_tick {e : Exchange} {part : Part} {tick : UInt64} :
    (e.see tick part).tick = tick := by
  cases part <;> rfl

/-- An event leaves its own record, and what is too old is lost. -/
theorem Regular.pending (hr : Regular w d) :
    (w.step d).tracker.pending.lookup d.id
        = some (kept (w.exchange d) (w.found d) d.part)
      ∧ ∀ id, id ≠ d.id →
        ((w.step d).tracker.pending.lookup id = w.tracker.pending.lookup id
          ∨ (w.step d).tracker.pending.lookup id = none
            ∧ ∃ m ∈ w.tracker.pending.lookup id, pendingLifetime < d.tick - m.tick) := by
  have hstep : (w.step d).tracker = w.tracker.onAlpc d.record d.tick d.now := rfl
  rw [hstep, hr.onAlpc]
  by_cases hw : d.part = .wait
  · rw [if_pos hw, kept, if_pos hw]
    exact ⟨Finmap.lookup_insert _, fun id hid => Or.inl (Finmap.lookup_insert_of_ne _ hid)⟩
  · rw [if_neg hw]
    have hkept : kept (w.exchange d) (w.found d) d.part
        = (noted (w.exchange d) (w.found d) d.part).rest := by
      rw [kept, if_neg hw]
    constructor
    · have hnew : (w.tracker.matchAlpc d.id (noted (w.exchange d) (w.found d) d.part)
          d.now).pending.lookup d.id = some (kept (w.exchange d) (w.found d) d.part) := by
        rw [matchAlpc_pending, Finmap.lookup_insert, hkept]
      rcases lookup_prunePending (w.tracker.matchAlpc d.id
        (noted (w.exchange d) (w.found d) d.part) d.now) d.tick d.id with hsame | ⟨-, m, hm, hold⟩
      · rw [hsame, hnew]
      · rw [hnew] at hm
        rw [← Option.some.inj hm, kept_tick, found_tick, UInt64.sub_self] at hold
        exact absurd hold (by decide)
    · intro id hid
      have hother : (w.tracker.matchAlpc d.id (noted (w.exchange d) (w.found d) d.part)
          d.now).pending.lookup id = w.tracker.pending.lookup id := by
        rw [matchAlpc_pending, Finmap.lookup_insert_of_ne _ hid]
      rw [← hother]
      exact lookup_prunePending _ _ _

theorem Held.step (h : Held w) (hr : Regular w d) : Held (w.step d) := by
  have hsane := h.exchange_sane hr
  have hmatches := h.found_matches hr
  obtain ⟨hown, hothers⟩ := hr.pending
  have hclock : (w.step d).clock = d.tick := rfl
  have hold : ∀ id, id ≠ d.id → (w.step d).exchanges id = w.exchanges id := fun id hid =>
    Function.update_of_ne hid _ _
  have hnew : (w.step d).exchanges d.id = some ((w.exchange d).see d.tick d.part) :=
    Function.update_self ..
  refine ⟨fun id e he => ?_, fun id e he m hm => ?_, fun id e he hlost => ?_, fun id hid => ?_⟩
  · by_cases hid : id = d.id
    · rw [hid, hnew] at he
      obtain rfl := Option.some.inj he
      exact ⟨hsane.see hr.fits, by rw [Exchange.see_tick, hclock]; exact UInt64.le_refl _⟩
    · rw [hold id hid] at he
      obtain ⟨hs, hle⟩ := h.sane id e he
      exact ⟨hs, UInt64.le_trans hle hr.clock⟩
  · by_cases hid : id = d.id
    · rw [hid, hnew] at he
      rw [hid, hown] at hm
      obtain rfl := Option.some.inj he
      obtain rfl := Option.some.inj hm
      exact ⟨hmatches.see hsane hr.fits, by rw [kept_tick, Exchange.see_tick, found_tick]⟩
    · rw [hold id hid] at he
      rcases hothers id hid with hsame | ⟨hnone, -⟩
      · rw [hsame] at hm
        exact h.record id e he m hm
      · rw [hnone] at hm
        cases hm
  · by_cases hid : id = d.id
    · rw [hid, hown] at hlost
      cases hlost
    · rw [hold id hid] at he
      rw [hclock]
      rcases hothers id hid with hsame | ⟨-, m, hm, hlate⟩
      · rw [hsame] at hlost
        exact UInt64.lt_of_lt_of_le (h.lost id e he hlost)
          (sub_le_sub_of_le (h.sane id e he).2 hr.clock)
      · rw [← (h.record id e he m hm).2]
        exact hlate
  · by_cases hne : id = d.id
    · rw [hne, hnew] at hid
      cases hid
    · rw [hold id hne] at hid
      rcases hothers id hne with hsame | ⟨hnone, -⟩
      · rw [hsame, h.idle id hid]
      · exact hnone

/-- The law of one event. -/
theorem Held.countLaw_iff (h : Held w) (hr : Regular w d) : CountLaw w d ↔ NotLeftover w d := by
  have heffect : CountLaw w d ↔ w.effect d = (w.exchange d).counted d.part := by
    constructor
    · intro hlaw
      have hiff : ∀ p, w.effect d = some p ↔ (w.exchange d).counted d.part = some p := by
        rintro ⟨client, server⟩
        have hcount := hlaw client server
        rw [hr.alpcCount] at hcount
        have hone := (UInt64.add_right_inj _).mp hcount
        by_cases h₁ : w.effect d = some (client, server)
        · by_cases h₂ : (w.exchange d).counted d.part = some (client, server)
          · exact iff_of_true h₁ h₂
          · rw [if_pos h₁, if_neg h₂] at hone
            exact absurd hone (by decide)
        · by_cases h₂ : (w.exchange d).counted d.part = some (client, server)
          · rw [if_neg h₁, if_pos h₂] at hone
            exact absurd hone (by decide)
          · exact iff_of_false h₁ h₂
      exact Option.ext fun p => hiff p
    · intro heq client server
      rw [hr.alpcCount, heq]
  rw [heffect, Followed.effect]
  by_cases hw : d.part = .wait
  · -- a wait completes nothing
    have hcomp : (w.exchange d).completes d.part = none := by rw [hw]; rfl
    have hcounted : (w.exchange d).counted d.part = none := by
      simp [Exchange.counted, hw]
    rw [if_pos hw, hcounted, NotLeftover, hcomp]
    simp
  · rw [if_neg hw]
    exact (h.found_matches hr).effect_iff (h.exchange_sane hr) hr.fits hw

end Step

/-! ## every run -/

/--
**Every message between two processes is counted once, for the client and the server of its
exchange**, in exactly the runs in which no message that is complete before its exchange's wait has
the client of an earlier exchange's wait as its receiver.
-/
theorem exchanges_counted (events : List Delivered) (hr : Along Followed.step Regular {} events) :
    Along Followed.step CountLaw {} events ↔ Along Followed.step NotLeftover {} events := by
  constructor
  · intro hl
    exact Along.mono_of_invariant Held (fun w d hw hok => hw.step hok.1)
      (fun w d hw hok => (hw.countLaw_iff hok.1).mp hok.2) Held.start (hr.and hl)
  · intro hn
    exact Along.mono_of_invariant Held (fun w d hw hok => hw.step hok.1)
      (fun w d hw hok => (hw.countLaw_iff hok.1).mpr hok.2) Held.start (hr.and hn)

section Runs

instance (w : Followed) (d : Delivered) : Decidable (Regular w d) :=
  decidable_of_iff (w.clock ≤ d.tick
      ∧ (d.record.opcode = d.part.opcode ∧ d.record.pid = d.part.pid d.client d.server
        ∧ 4 ≤ d.record.userData.length)
      ∧ (IsProcess d.client ∧ IsProcess d.server)
      ∧ (d.first = true → ∀ e ∈ w.exchanges d.id, e.isOver = true)
      ∧ (d.first = false → ∃ e ∈ w.exchanges d.id, e.client = d.client
        ∧ e.server = d.server ∧ d.tick - e.tick ≤ pendingLifetime)
      ∧ (w.exchange d).fits d.part = true)
    ⟨fun ⟨h₁, ⟨h₂, h₃, h₄⟩, ⟨h₅, h₆⟩, h₇, h₈, h₉⟩ => ⟨h₁, h₂, h₃, h₄, h₅, h₆, h₇, h₈, h₉⟩,
      fun h => ⟨h.clock, ⟨h.opcode, h.pid, h.size⟩, ⟨h.client, h.server⟩, h.begins, h.continues,
        h.fits⟩⟩

/-- An event on message ID 5. -/
def onFive (tick : UInt64) (part : Part) (client server : UInt32) (first : Bool) : Delivered where
  record := ⟨part.opcode, part.pid client server, [5, 0, 0, 0]⟩
  tick := tick
  now := 0
  part := part
  client := client
  server := server
  first := first

/-- Process 1 asks process 2 and waits for the reply. -/
def askAndWait : List Delivered :=
  [onFive 1 .requestSend 1 2 true, onFive 2 .requestReceive 1 2 false, onFive 3 .wait 1 2 false,
    onFive 4 .replyReceive 1 2 false, onFive 5 .replySend 1 2 false]

theorem exchanges_counted_askAndWait :
    Along Followed.step CountLaw {} askAndWait ↔ Along Followed.step NotLeftover {} askAndWait :=
  exchanges_counted askAndWait (by decide)

/-- Process 2 asks process 1 on the same ID a second later. -/
def askBack : List Delivered :=
  [onFive 1005 .requestSend 2 1 true, onFive 1006 .requestReceive 2 1 false]

/-- The record still has process 1 as the client, which the second request is then counted for. -/
theorem leftover_client_counted :
    ¬ ∀ events : List Delivered, Along Followed.step Regular {} events →
      Along Followed.step CountLaw {} events := by
  intro hall
  have hlaw := hall (askAndWait ++ askBack) (by decide)
  -- the second receive should be counted for process 2 and process 1
  obtain ⟨-, -, -, -, -, -, hreceive, -⟩ := hlaw
  exact absurd (hreceive 2 1) (by decide +kernel)

end Runs

end WinSys.Ipc
