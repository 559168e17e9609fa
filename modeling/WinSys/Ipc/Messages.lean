import WinSys.Infra.Ticks
import WinSys.Ipc.Tracker

/-!
# What an ALPC event does

The pair a message's record is counted for, and what is left of the record: `effect` and `rest`.
`Message` is a record as an event finds it, which is all an event sees of those that wait.
-/

namespace WinSys.Ipc

open Infra

/-! ## counting -/

section Counting

variable {t : IpcTracker} {client server : UInt32} {now : ℤ} {tick : UInt64} {id : UInt32}
  {m : PendingMessage} {record : AlpcRecord}

theorem pairKey_low (client server : UInt32) : (pairKey client server).toUInt32 = server := by
  apply UInt32.eq_of_toBitVec_eq
  ext i hi
  simp [pairKey]

theorem pairKey_high (client server : UInt32) :
    (pairKey client server >>> 32).toUInt32 = client := by
  apply UInt32.eq_of_toBitVec_eq
  ext i hi
  have h₁ : i < 64 := by omega
  have h₂ : 32 + i < 64 := by omega
  have h₃ : ¬ 32 + i < 32 := by omega
  simp [pairKey, h₁, h₂, h₃, BitVec.getLsbD_eq_getElem hi]

theorem pairKey_inj {a b : UInt32 × UInt32} : pairKey a.1 a.2 = pairKey b.1 b.2 ↔ a = b := by
  constructor
  · intro h
    have hhigh := pairKey_high a.1 a.2
    have hlow := pairKey_low a.1 a.2
    rw [h, pairKey_high] at hhigh
    rw [h, pairKey_low] at hlow
    exact Prod.ext hhigh.symm hlow.symm
  · rintro rfl
    rfl

theorem alpcCount_countAlpc (t : IpcTracker) (pair : UInt32 × UInt32) (now : ℤ) :
    (t.countAlpc pair now).alpcCount client server
      = t.alpcCount client server + if some pair = some (client, server) then 1 else 0 := by
  show (((t.alpc.insert (pairKey pair.1 pair.2) _).lookup (pairKey client server)).getD {}).count
    = _
  rw [Finmap.lookup_insert_eq]
  by_cases h : pair = (client, server)
  · rw [if_pos (by rw [h]), if_pos (by rw [h]), h]
    rfl
  · have hkey : pairKey client server ≠ pairKey pair.1 pair.2 := fun heq =>
      h (@pairKey_inj (client, server) pair |>.mp heq).symm
    rw [if_neg hkey, if_neg fun heq => h (Option.some.inj heq)]
    exact (add_zero _).symm

/-- What a record is counted for, if both sides of it are known. -/
def PendingMessage.effect (m : PendingMessage) : Option (UInt32 × UInt32) :=
  if m.matched then m.pair else none

/-- A record after the count. -/
def PendingMessage.rest (m : PendingMessage) : PendingMessage :=
  if m.matched then { m with sender := 0, receiver := 0 } else m

theorem alpcCount_matchAlpc (t : IpcTracker) (id : UInt32) (m : PendingMessage) (now : ℤ) :
    (t.matchAlpc id m now).alpcCount client server
      = t.alpcCount client server + if m.effect = some (client, server) then 1 else 0 := by
  unfold IpcTracker.matchAlpc PendingMessage.effect
  by_cases hm : m.matched = true
  · simp only [hm, if_true]
    cases hp : m.pair with
    | none => exact (add_zero _).symm
    | some pair => exact alpcCount_countAlpc _ pair now
  · simp only [hm]
    exact (add_zero _).symm

theorem matchAlpc_pending (t : IpcTracker) (id : UInt32) (m : PendingMessage) (now : ℤ) :
    (t.matchAlpc id m now).pending = t.pending.insert id m.rest := by
  unfold IpcTracker.matchAlpc PendingMessage.rest
  by_cases hm : m.matched = true
  · simp only [hm, if_true]
    cases hp : m.pair <;> rfl
  · simp only [hm]
    rfl

theorem prunePending_alpc (t : IpcTracker) (tick : UInt64) :
    (t.prunePending tick).alpc = t.alpc := by
  unfold IpcTracker.prunePending
  split <;> rfl

theorem lookup_prunePending (t : IpcTracker) (tick : UInt64) (id : UInt32) :
    (t.prunePending tick).pending.lookup id = t.pending.lookup id
      ∨ (t.prunePending tick).pending.lookup id = none
        ∧ ∃ m ∈ t.pending.lookup id, pendingLifetime < tick - m.tick := by
  unfold IpcTracker.prunePending
  split
  · show (Finmap.eraseIf _ _).lookup id = _ ∨ (Finmap.eraseIf _ _).lookup id = none ∧ _
    rw [Finmap.lookup_eraseIf]
    cases hm : t.pending.lookup id with
    | none => exact Or.inl rfl
    | some m =>
      by_cases hold : pendingLifetime < tick - m.tick
      · right
        exact ⟨by simp [Option.filter_some, hold], m, rfl, hold⟩
      · left
        simp [Option.filter_some, hold]
  · exact Or.inl rfl

@[simp]
theorem note_send (m : PendingMessage) (pid : UInt32) :
    m.note alpcSend pid = { m with sender := pid } := rfl

@[simp]
theorem note_receive (m : PendingMessage) (pid : UInt32) :
    m.note alpcReceive pid = { m with receiver := pid } := rfl

@[simp]
theorem note_wait (m : PendingMessage) (pid : UInt32) :
    m.note alpcWaitForReply pid = { m with client := pid } := rfl

@[simp]
theorem rest_client (m : PendingMessage) : m.rest.client = m.client := by
  unfold PendingMessage.rest
  split <;> rfl

end Counting

/-! ## an event, by the record it finds -/

def AlpcRecord.isIgnored (record : AlpcRecord) : Prop :=
  record.opcode < alpcSend ∨ record.opcode > alpcWaitForReply ∨ record.userData.length < 4
    ∨ record.pid = 0 ∨ record.pid = 0xFFFFFFFF

instance : DecidablePred AlpcRecord.isIgnored := fun _ =>
  inferInstanceAs (Decidable (_ ∨ _))

def AlpcRecord.id (record : AlpcRecord) : UInt32 := u32 record.userData

/-- One more message for a pair, if there is one. -/
def addPair (alpc : Finmap fun _ : UInt64 => Counter) (pair : Option (UInt32 × UInt32)) (now : ℤ) :
    Finmap fun _ : UInt64 => Counter :=
  match pair with
  | none => alpc
  | some p =>
    alpc.insert (pairKey p.1 p.2) (((alpc.lookup (pairKey p.1 p.2)).getD {}).add now)

namespace IpcTracker

/-- A message's record as an event finds it. -/
def message (t : IpcTracker) (id : UInt32) (tick : UInt64) : PendingMessage :=
  ((t.pending.lookup id).getD {}).renew tick

/-- The record of an event's message, with the event. -/
def noted (t : IpcTracker) (record : AlpcRecord) (tick : UInt64) : PendingMessage :=
  (t.message record.id tick).note record.opcode record.pid

/-- The pair an event is counted for. -/
def effect (t : IpcTracker) (record : AlpcRecord) (tick : UInt64) : Option (UInt32 × UInt32) :=
  if record.opcode = alpcWaitForReply then none else (t.noted record tick).effect

/-- The record an event leaves. -/
def rest (t : IpcTracker) (record : AlpcRecord) (tick : UInt64) : PendingMessage :=
  if record.opcode = alpcWaitForReply then t.noted record tick else (t.noted record tick).rest

/-- No record is from later than `tick`. -/
def Timed (t : IpcTracker) (tick : UInt64) : Prop :=
  ∀ id, ∀ m ∈ t.pending.lookup id, m.tick ≤ tick

end IpcTracker

section Event

variable {t : IpcTracker} {record : AlpcRecord} {tick tick' : UInt64} {now : ℤ} {id : UInt32}

theorem lookup_addPair (alpc : Finmap fun _ : UInt64 => Counter) (pair : Option (UInt32 × UInt32))
    (key : UInt64) : (addPair alpc pair now).lookup key
      = if pair.map (fun p => pairKey p.1 p.2) = some key then
          some (((alpc.lookup key).getD {}).add now)
        else alpc.lookup key := by
  cases pair with
  | none => rfl
  | some p =>
    rw [addPair, Finmap.lookup_insert_eq, Option.map_some]
    by_cases h : key = pairKey p.1 p.2
    · rw [if_pos h, if_pos (congrArg some h.symm), h]
    · rw [if_neg h, if_neg fun heq => h (Option.some.inj heq).symm]

theorem matchAlpc_alpc (t : IpcTracker) (id : UInt32) (m : PendingMessage) (now : ℤ) :
    (t.matchAlpc id m now).alpc = addPair t.alpc m.effect now := by
  unfold IpcTracker.matchAlpc PendingMessage.effect
  by_cases hm : m.matched = true
  · simp only [hm, if_true]
    cases hp : m.pair <;> rfl
  · simp only [hm]
    rfl

theorem onAlpc_ignored (h : record.isIgnored) : t.onAlpc record tick now = t :=
  if_pos h

theorem onAlpc_noted (h : ¬ record.isIgnored) : t.onAlpc record tick now
    = if record.opcode = alpcWaitForReply then
        { t with pending := t.pending.insert record.id (t.noted record tick) }
      else (t.matchAlpc record.id (t.noted record tick) now).prunePending tick :=
  if_neg h

theorem onAlpc_alpc (h : ¬ record.isIgnored) :
    (t.onAlpc record tick now).alpc = addPair t.alpc (t.effect record tick) now := by
  rw [onAlpc_noted h, IpcTracker.effect]
  by_cases hw : record.opcode = alpcWaitForReply
  · rw [if_pos hw, if_pos hw]
    rfl
  · rw [if_neg hw, if_neg hw, prunePending_alpc, matchAlpc_alpc]

@[simp]
theorem message_tick : (t.message id tick).tick = tick := rfl

@[simp]
theorem rest_tick (m : PendingMessage) : m.rest.tick = m.tick := by
  unfold PendingMessage.rest
  split <;> rfl

@[simp]
theorem note_tick (m : PendingMessage) (opcode : UInt8) (pid : UInt32) :
    (m.note opcode pid).tick = m.tick := by
  unfold PendingMessage.note
  split
  · rfl
  · split <;> rfl

theorem IpcTracker.rest_tick : (t.rest record tick).tick = tick := by
  unfold IpcTracker.rest IpcTracker.noted
  split <;> simp

/-- A record of this tick is as it was. -/
theorem renew_self {m : PendingMessage} (h : m.tick = tick) : m.renew tick = m := by
  subst h
  rw [PendingMessage.renew, UInt64.sub_self, if_neg (by decide)]

/-- Too old a record starts over. -/
theorem renew_of_old {m : PendingMessage} (hm : m.tick ≤ tick)
    (hold : pendingLifetime < tick - m.tick) (hle : tick ≤ tick') :
    m.renew tick' = ({} : PendingMessage).renew tick' := by
  have hlater := sub_le_sub_of_le hm hle
  rw [PendingMessage.renew, if_pos (UInt64.lt_of_lt_of_le hold hlater), PendingMessage.renew,
    ite_self]

variable (t tick now id) in
theorem onAlpc_pending (h : ¬ record.isIgnored) :
    (t.onAlpc record tick now).pending.lookup id
        = (t.pending.insert record.id (t.rest record tick)).lookup id
      ∨ (t.onAlpc record tick now).pending.lookup id = none
        ∧ ∃ m ∈ (t.pending.insert record.id (t.rest record tick)).lookup id,
          pendingLifetime < tick - m.tick := by
  rw [onAlpc_noted h, IpcTracker.rest]
  by_cases hw : record.opcode = alpcWaitForReply
  · rw [if_pos hw, if_pos hw]
    exact Or.inl rfl
  · rw [if_neg hw, if_neg hw]
    have hpruned := lookup_prunePending
      (t.matchAlpc record.id (t.noted record tick) now) tick id
    rw [matchAlpc_pending] at hpruned
    exact hpruned

theorem onAlpc_timed (h : t.Timed tick) : (t.onAlpc record tick now).Timed tick := by
  by_cases hi : record.isIgnored
  · rw [onAlpc_ignored hi]
    exact h
  · intro id m hm
    rw [Option.mem_def] at hm
    rcases onAlpc_pending t tick now id hi with heq | ⟨hnone, -⟩
    · rw [heq, Finmap.lookup_insert_eq] at hm
      split at hm
      · cases hm
        exact UInt64.le_of_eq IpcTracker.rest_tick
      · exact h id m hm
    · rw [hnone] at hm
      cases hm

/-- The records that later events find. -/
theorem onAlpc_message (ht : t.Timed tick) (h : ¬ record.isIgnored) (hle : tick ≤ tick') :
    (t.onAlpc record tick now).message id tick' = if id = record.id
      then (t.rest record tick).renew tick' else t.message id tick' := by
  have hinserted : (((t.pending.insert record.id (t.rest record tick)).lookup id).getD {}).renew tick'
      = if id = record.id then (t.rest record tick).renew tick' else t.message id tick' := by
    rw [Finmap.lookup_insert_eq]
    split <;> rfl
  rw [← hinserted, IpcTracker.message]
  rcases onAlpc_pending t tick now id h with
    heq | ⟨hnone, m, hm, hold⟩
  · rw [heq]
  · rw [hnone, hm]
    refine (renew_of_old ?_ hold hle).symm
    rw [Option.mem_def, Finmap.lookup_insert_eq] at hm
    split at hm
    · cases hm
      exact UInt64.le_of_eq IpcTracker.rest_tick
    · exact ht id m hm

theorem matchAlpc_rpc (t : IpcTracker) (id : UInt32) (m : PendingMessage) (now : ℤ) :
    (t.matchAlpc id m now).rpc = t.rpc ∧ (t.matchAlpc id m now).endpoints = t.endpoints := by
  unfold IpcTracker.matchAlpc
  by_cases hm : m.matched = true
  · simp only [hm, if_true]
    cases m.pair <;> exact ⟨rfl, rfl⟩
  · simp only [hm]
    exact ⟨rfl, rfl⟩

theorem prunePending_rpc (t : IpcTracker) (tick : UInt64) : (t.prunePending tick).rpc = t.rpc
    ∧ (t.prunePending tick).endpoints = t.endpoints := by
  unfold IpcTracker.prunePending
  split <;> exact ⟨rfl, rfl⟩

/-- An ALPC event changes nothing of RPC. -/
theorem onAlpc_rpc : (t.onAlpc record tick now).rpc = t.rpc
    ∧ (t.onAlpc record tick now).endpoints = t.endpoints := by
  by_cases h : record.isIgnored
  · rw [onAlpc_ignored h]
    exact ⟨rfl, rfl⟩
  · rw [onAlpc_noted h]
    split
    · exact ⟨rfl, rfl⟩
    · rw [(prunePending_rpc _ tick).1, (prunePending_rpc _ tick).2]
      exact matchAlpc_rpc _ _ _ _

end Event

end WinSys.Ipc
