import WinSys.Infra.Run
import WinSys.Network.Tracker

/-!
# The counts of a connection

The events' bytes and the tables' rows meet in one ID, and a connection keeps the sums of its
events while it stays in its table.

* `Endpoint`: an endpoint, its events and its table rows
* `SumLaw`, `OwnRead`: what a call should leave; no prune with the own table's read alone failed
* `connections_counted`
-/

namespace WinSys.Network

open Infra

/-! ## endpoints -/

/-- What the system knows of a connection, or of a UDP endpoint and its peer. -/
structure Endpoint where
  pid : UInt32
  udp : Bool
  v6 : Bool
  localAddress : Bytes
  remoteAddress : Bytes
  localPort : UInt16
  remotePort : UInt16
  localLength : localAddress.length = addressLength v6
  remoteLength : remoteAddress.length = addressLength v6

/-- A port as it is on the wire. -/
def networkOrder (port : UInt16) : Bytes := (leBytes 2 port.toNat).reverse

/-- A port in a table: its bytes come first, what is behind them is anything. -/
def PortIn (field : UInt32) (port : UInt16) : Prop :=
  (leBytes 4 field.toNat).take 2 = networkOrder port

namespace Endpoint

variable (e : Endpoint)

def eventId : Direction → UInt16
  | .send => if e.udp then (if e.v6 then 58 else 42) else if e.v6 then 26 else 10
  | .receive => if e.udp then (if e.v6 then 59 else 43) else if e.v6 then 27 else 11

/-- A send or receive event; what follows the ends is anything. -/
def event (d : Direction) (size : UInt32) (rest : Bytes) : NetworkRecord where
  id := e.eventId d
  userData := leBytes 4 e.pid.toNat ++ (leBytes 4 size.toNat ++ (e.remoteAddress
    ++ (e.localAddress ++ (networkOrder e.remotePort ++ (networkOrder e.localPort ++ rest)))))

end Endpoint

/-- A row of one of the tables. -/
inductive Row
  | tcp (row : TcpRow)
  | tcp6 (row : Tcp6Row)
  | udp (row : UdpRow)
  | udp6 (row : Udp6Row)

def Row.connection : Row → Connection
  | .tcp row => row.connection
  | .tcp6 row => row.connection
  | .udp row => row.connection
  | .udp6 row => row.connection

/-- The row is the endpoint's; a UDP row is every peer's, and may be bound to any address. -/
def Row.IsOf (e : Endpoint) : Row → Prop
  | .tcp row => e.udp = false ∧ e.v6 = false ∧ row.state ≠ tcpStateListen ∧ row.owningPid = e.pid
      ∧ addressBytes row.localAddr = e.localAddress ∧ addressBytes row.remoteAddr = e.remoteAddress
      ∧ PortIn row.localPort e.localPort ∧ PortIn row.remotePort e.remotePort
  | .tcp6 row => e.udp = false ∧ e.v6 = true ∧ row.state ≠ tcpStateListen ∧ row.owningPid = e.pid
      ∧ row.localAddr.val = e.localAddress ∧ row.remoteAddr.val = e.remoteAddress
      ∧ PortIn row.localPort e.localPort ∧ PortIn row.remotePort e.remotePort
  | .udp row => e.udp = true ∧ e.v6 = false ∧ row.owningPid = e.pid
      ∧ PortIn row.localPort e.localPort
  | .udp6 row => e.udp = true ∧ e.v6 = true ∧ row.owningPid = e.pid
      ∧ PortIn row.localPort e.localPort

/-! ## one ID -/

@[simp]
theorem length_networkOrder (port : UInt16) : (networkOrder port).length = 2 := by
  simp [networkOrder]

/-- A port on the wire, read as the machine reads it, is swapped. -/
theorem byteswap_networkOrder (port : UInt16) (rest : Bytes) :
    byteswap (u16 (networkOrder port ++ rest)) = port := by
  have hswap : u16 (networkOrder port ++ rest) = byteswap port := by
    rw [u16, List.take_left' (length_networkOrder port), byteswap, u16,
      List.take_of_length_le (by simp)]
    rfl
  rw [hswap, byteswap_byteswap]

theorem PortIn.portFromTable {field : UInt32} {port : UInt16} (h : PortIn field port) :
    portFromTable field = port := by
  have hlow : field.toUInt16 = u16 (leBytes 4 field.toNat) := by
    refine UInt16.toNat_inj.mp ?_
    have hlt := field.toNat_lt
    have htake : (leBytes 4 field.toNat).take 2 = leBytes 2 field.toNat := rfl
    have hfield : leBytes 2 field.toNat = leBytes 2 (field.toNat % 2 ^ 16) := by
      simp only [leBytes, Nat.toUInt8_eq]
      congr 1
      · refine UInt8.toNat_inj.mp ?_
        simp only [UInt8.toNat_ofNat']
        omega
      · congr 1
        refine UInt8.toNat_inj.mp ?_
        simp only [UInt8.toNat_ofNat']
        omega
    rw [u16, htake, hfield, leNat_leBytes (by omega), UInt32.toNat_toUInt16, Nat.toUInt16_eq,
      UInt16.toNat_ofNat', Nat.mod_mod]
  have hswap := byteswap_networkOrder port []
  rw [List.append_nil] at hswap
  rw [Network.portFromTable, hlow, u16, h, ← List.take_of_length_le (length_networkOrder port).le]
  exact hswap

section Events

variable {e : Endpoint} {d : Direction} {size : UInt32} {rest : Bytes}

theorem event_direction : (e.event d size rest).direction = some d := by
  have hlong : ¬ (e.event d size rest).userData.length < 8 := by
    simp only [Endpoint.event, List.length_append, length_leBytes]
    omega
  rw [NetworkRecord.direction, if_neg hlong]
  show getDirection (e.eventId d) = some d
  unfold Endpoint.eventId
  cases d <;> cases e.udp <;> cases e.v6 <;> rfl

@[simp]
theorem event_v6 : (e.event d size rest).v6 = e.v6 := by
  show (e.eventId d = 26 || e.eventId d = 27 || e.eventId d = 58 || e.eventId d = 59 : Bool) = e.v6
  unfold Endpoint.eventId
  cases d <;> cases e.udp <;> cases e.v6 <;> rfl

@[simp]
theorem event_udp : (e.event d size rest).udp = e.udp := by
  show decide (42 ≤ e.eventId d) = e.udp
  unfold Endpoint.eventId
  cases d <;> cases e.udp <;> cases e.v6 <;> rfl

@[simp]
theorem event_pid : (e.event d size rest).pid = e.pid := u32_append _ _

@[simp]
theorem event_size : (e.event d size rest).size = size := by
  show u32 ((e.event d size rest).userData.drop 4) = size
  rw [Endpoint.event, List.drop_left' (length_leBytes 4 _)]
  exact u32_append _ _

theorem event_hasEnds : (e.event d size rest).hasEnds = true := by
  have hlocal := e.localLength
  have hremote := e.remoteLength
  rw [NetworkRecord.hasEnds, event_v6, decide_eq_true_eq]
  simp only [Endpoint.event, List.length_append, length_leBytes, length_networkOrder]
  omega

/-- The ID of an event, by its endpoint. -/
theorem event_connection : (e.event d size rest).connection
    = { pid := e.pid, v6 := e.v6, udp := e.udp, localPort := e.localPort
        localAddress := if e.udp then .zero else .copy (addressLength e.v6) e.localAddress
        remoteAddress := if e.udp then .zero else .copy (addressLength e.v6) e.remoteAddress
        remotePort := if e.udp then 0 else e.remotePort } := by
  have hlocal := e.localLength
  have hremote := e.remoteLength
  have hends : (e.event d size rest).userData.drop 8 = e.remoteAddress
      ++ (e.localAddress ++ (networkOrder e.remotePort ++ (networkOrder e.localPort ++ rest))) := by
    rw [Endpoint.event, ← List.append_assoc, List.drop_left' (by simp)]
  have hlocals : (e.remoteAddress ++ (e.localAddress ++ (networkOrder e.remotePort
      ++ (networkOrder e.localPort ++ rest)))).drop (addressLength e.v6)
      = e.localAddress ++ (networkOrder e.remotePort ++ (networkOrder e.localPort ++ rest)) :=
    List.drop_left' hremote
  have hports : (e.remoteAddress ++ (e.localAddress ++ (networkOrder e.remotePort
      ++ (networkOrder e.localPort ++ rest)))).drop (2 * addressLength e.v6)
      = networkOrder e.remotePort ++ (networkOrder e.localPort ++ rest) := by
    rw [← List.append_assoc, List.drop_left']
    rw [List.length_append, hlocal, hremote]
    omega
  have hport : (e.remoteAddress ++ (e.localAddress ++ (networkOrder e.remotePort
      ++ (networkOrder e.localPort ++ rest)))).drop (2 * addressLength e.v6 + 2)
      = networkOrder e.localPort ++ rest := by
    rw [← List.drop_drop, hports, List.drop_left' (length_networkOrder _)]
  have hcopy : ∀ bs more : Bytes, bs.length = addressLength e.v6 →
      Address.copy (addressLength e.v6) (bs ++ more) = Address.copy (addressLength e.v6) bs := by
    intro bs more hbs
    refine Subtype.ext ?_
    simp only [Address.copy, List.take_left' hbs, List.take_of_length_le hbs.le]
  unfold NetworkRecord.connection
  simp only [event_v6, event_udp, event_pid, hends, hport, hports, hlocals,
    byteswap_networkOrder, hcopy _ _ hremote, hcopy _ _ hlocal]
  split <;> rfl

theorem event_counted :
    (e.event d size rest).counted = some ((e.event d size rest).connection, d) := by
  rw [NetworkRecord.counted, if_pos event_hasEnds, event_direction]
  rfl

end Events

/-- The ID of a listed connection, by the endpoint its row is of. -/
theorem Row.IsOf.idOf_eq {e : Endpoint} {row : Row} (h : row.IsOf e) (d : Direction)
    (size : UInt32) (rest : Bytes) :
    idOf row.connection = (e.event d size rest).connection := by
  rw [event_connection]
  cases row with
  | tcp row =>
    obtain ⟨hudp, hv6, hstate, hpid, hlocal, hremote, hlocalPort, hremotePort⟩ := h
    have hcopy : ∀ addr, Address.copy 4 (Address.copy 4 (addressBytes addr)).val
        = Address.copy 4 (addressBytes addr) := fun addr =>
      Address.copy_copy (by omega) (by simp [addressBytes])
    simp [idOf, connection, TcpRow.connection, isUdp, isV6, addressLength, hudp, hv6, hstate, hpid,
      hcopy, ← hlocal, ← hremote, hlocalPort.portFromTable, hremotePort.portFromTable]
  | tcp6 row =>
    obtain ⟨hudp, hv6, hstate, hpid, hlocal, hremote, hlocalPort, hremotePort⟩ := h
    have hcopy : ∀ addr : Address, Address.copy 16 (Address.copy 16 addr.val).val
        = Address.copy 16 addr.val := fun addr =>
      Address.copy_copy (by omega) addr.property.ge
    simp [idOf, connection, Tcp6Row.connection, isUdp, isV6, addressLength, hudp, hv6, hstate, hpid,
      hcopy, ← hlocal, ← hremote, hlocalPort.portFromTable, hremotePort.portFromTable]
  | udp row =>
    obtain ⟨hudp, hv6, hpid, hport⟩ := h
    simp [idOf, connection, UdpRow.connection, isUdp, isV6, hudp, hv6, hpid, hport.portFromTable]
  | udp6 row =>
    obtain ⟨hudp, hv6, hpid, hport⟩ := h
    simp [idOf, connection, Udp6Row.connection, isUdp, isV6, hudp, hv6, hpid, hport.portFromTable]

/-- An ID of TCP says the endpoint. -/
theorem event_connection_inj {e₁ e₂ : Endpoint} (h₁ : e₁.udp = false) (h₂ : e₂.udp = false)
    {d₁ d₂ : Direction} {size₁ size₂ : UInt32} {rest₁ rest₂ : Bytes}
    (h : (e₁.event d₁ size₁ rest₁).connection = (e₂.event d₂ size₂ rest₂).connection) :
    e₁ = e₂ := by
  rw [event_connection, event_connection] at h
  obtain ⟨pid₁, udp₁, v6₁, local₁, remote₁, localPort₁, remotePort₁, hlocal₁, hremote₁⟩ := e₁
  obtain ⟨pid₂, udp₂, v6₂, local₂, remote₂, localPort₂, remotePort₂, hlocal₂, hremote₂⟩ := e₂
  obtain rfl : udp₁ = false := h₁
  obtain rfl : udp₂ = false := h₂
  simp only [Bool.false_eq_true, if_false, ConnectionId.mk.injEq] at h
  obtain ⟨rfl, -, rfl, hlocal, hremote, rfl, rfl⟩ := h
  have hle : addressLength v6₁ ≤ 16 := by
    unfold addressLength
    split <;> omega
  obtain rfl := Address.copy_inj hle hlocal₁ hlocal₂ hlocal
  obtain rfl := Address.copy_inj hle hremote₁ hremote₂ hremote
  rfl

/-! ## a run -/

inductive Call
  | event (r : NetworkRecord) (now : UInt64) (tables : Tables)
  | removeProcess (pid : UInt32)
deriving DecidableEq, Repr

/-- The tracker and the sums of the events of one connection. -/
structure Followed where
  tracker : ProcessNetworkTracker
  sums : Counters := {}
  /-- An event of it was counted. -/
  seen : Bool := false

/-- The direction of an event, if it is the connection's. -/
def NetworkRecord.directionFor (r : NetworkRecord) (id : ConnectionId) : Option Direction :=
  match r.counted with
  | none => none
  | some (connection, d) => if connection = id then some d else none

def Followed.step (id : ConnectionId) (w : Followed) : Call → Followed
  | .event r now tables =>
    let tracker := w.tracker.onEvent r now tables
    match r.directionFor id with
    | none => { w with tracker := tracker }
    | some d => { tracker := tracker, sums := w.sums.add r.size d, seen := true }
  | .removeProcess pid => { w with tracker := w.tracker.removeProcess pid }

/-- The protocol of an ID. -/
def ConnectionId.proto (id : ConnectionId) : ConnectionProtocol :=
  if id.udp then (if id.v6 then .udp6 else .udp) else if id.v6 then .tcp6 else .tcp

/-- The connection is in its table, whenever that is read, from its first counted event on; its
process is not removed. -/
def Regular (id : ConnectionId) (w : Followed) : Call → Prop
  | .event _ _ tables => w.seen = true →
      ∀ rows ∈ tables.connections id.proto, ∃ c ∈ rows, idOf c = id
  | .removeProcess pid => pid ≠ id.pid

/-- The call leaves the sums. -/
def SumLaw (id : ConnectionId) (w : Followed) (c : Call) : Prop :=
  (w.step id c).tracker.getConnectionCounters id = (w.step id c).sums

/-- A prune whose read of the connection's own table failed, and not all reads, finds nothing
summed yet. -/
def OwnRead (id : ConnectionId) (w : Followed) : Call → Prop
  | .event r now tables => r.direction.isSome = true → w.tracker.prunes now = true →
      tables.connections id.proto = none → (tables.read none).isSome = true → w.sums = {}
  | .removeProcess _ => True

/-! ## one call -/

theorem idOf_proto (c : Connection) : (idOf c).proto = c.id.proto := by
  cases h : c.id.proto <;> simp [idOf, ConnectionId.proto, isUdp, isV6, h]

theorem Counters.add_right_inj {a b : Counters} {size : UInt32} {d : Direction} :
    a.add size d = b.add size d ↔ a = b := by
  cases a
  cases b
  cases d <;> simp [Counters.add]

section Step

variable {id : ConnectionId} {w : Followed} {t : ProcessNetworkTracker} {tables : Tables}
  {now : UInt64} {r : NetworkRecord}

/-- An ID is listed when its own table is read and has it. -/
theorem mem_map_idOf {current : List Connection} (h : tables.read none = some current) :
    id ∈ current.map idOf ↔ ∃ rows ∈ tables.connections id.proto, ∃ c ∈ rows, idOf c = id := by
  rw [List.mem_map]
  constructor
  · rintro ⟨c, hc, rfl⟩
    obtain ⟨proto, rows, hrows, hmem⟩ := (Tables.mem_read h c).mp hc
    have hproto : (idOf c).proto = proto := by
      rw [idOf_proto, Tables.proto_of_mem hrows hmem]
    exact ⟨rows, hproto ▸ hrows, c, hmem, rfl⟩
  · rintro ⟨rows, hrows, c, hmem, hid⟩
    exact ⟨c, (Tables.mem_read h c).mpr ⟨id.proto, rows, hrows, hmem⟩, hid⟩

/-- The prune erases a connection. -/
def Erases (id : ConnectionId) (t : ProcessNetworkTracker) (now : UInt64) (tables : Tables) : Prop :=
  t.prunes now = true ∧ (tables.read none).isSome = true
    ∧ ¬ ∃ rows ∈ tables.connections id.proto, ∃ c ∈ rows, idOf c = id

theorem prune_of_erases (h : Erases id t now tables) :
    (t.prune now tables).getConnectionCounters id = {} := by
  obtain ⟨hprunes, hread, hnot⟩ := h
  obtain ⟨current, hcurrent⟩ := Option.isSome_iff_exists.mp hread
  have hmem : (current.map idOf).contains id = false := by
    rw [List.contains_eq_mem, decide_eq_false_iff_not, mem_map_idOf hcurrent]
    exact hnot
  rw [ProcessNetworkTracker.prune, if_pos hprunes, ProcessNetworkTracker.pruneConnections, hcurrent]
  show ((t.connections.eraseIf _).lookup id).getD {} = {}
  rw [Finmap.lookup_eraseIf, hmem]
  cases t.connections.lookup id <;> rfl

theorem prune_of_not_erases (h : ¬ Erases id t now tables) :
    (t.prune now tables).getConnectionCounters id = t.getConnectionCounters id := by
  unfold ProcessNetworkTracker.prune
  split
  · next hprunes =>
    unfold ProcessNetworkTracker.pruneConnections
    cases hcurrent : tables.read none with
    | none => rfl
    | some current =>
      have hmem : (current.map idOf).contains id = true := by
        rw [List.contains_eq_mem, decide_eq_true_eq, mem_map_idOf hcurrent]
        by_contra hnot
        exact h ⟨hprunes, by rw [hcurrent]; rfl, hnot⟩
      show ((t.connections.eraseIf _).lookup id).getD {} = _
      rw [Finmap.lookup_eraseIf, hmem, ProcessNetworkTracker.getConnectionCounters]
      cases t.connections.lookup id <;> rfl
  · rfl

theorem getConnectionCounters_countConnection (id₁ : ConnectionId) (size : UInt32) (d : Direction) :
    (t.countConnection id₁ size d).getConnectionCounters id
      = if id = id₁ then (t.getConnectionCounters id).add size d
        else t.getConnectionCounters id := by
  unfold ProcessNetworkTracker.countConnection ProcessNetworkTracker.getConnectionCounters
  rw [Finmap.lookup_insert_eq]
  split
  · next h =>
    rw [h]
    rfl
  · rfl

/-- An event of the connection adds its size to what the prune left. -/
theorem getConnectionCounters_onEvent {d : Direction} (h : r.direction = some d) :
    (t.onEvent r now tables).getConnectionCounters id
      = match r.directionFor id with
        | none => (t.prune now tables).getConnectionCounters id
        | some d => ((t.prune now tables).getConnectionCounters id).add r.size d := by
  unfold ProcessNetworkTracker.onEvent NetworkRecord.directionFor NetworkRecord.counted
  rw [h]
  cases r.hasEnds with
  | false => rfl
  | true =>
    simp only [if_true, Option.map_some]
    rw [getConnectionCounters_countConnection]
    by_cases hid : r.connection = id
    · rw [if_pos hid.symm, if_pos hid]
      rfl
    · rw [if_neg fun h => hid h.symm, if_neg hid]
      rfl

theorem directionFor_of_none (h : r.direction = none) : r.directionFor id = none := by
  unfold NetworkRecord.directionFor NetworkRecord.counted
  rw [h]
  cases r.hasEnds <;> rfl

/-- What is carried between calls. -/
structure Held (id : ConnectionId) (w : Followed) : Prop where
  counters : w.tracker.getConnectionCounters id = w.sums
  unseen : w.seen = false → w.sums = {}

theorem Held.start (lastPrune : UInt64) :
    Held id { tracker := { lastPrune := lastPrune } } :=
  ⟨rfl, fun _ => rfl⟩

theorem Held.step (h : Held id w) {c : Call} (hl : SumLaw id w c) : Held id (w.step id c) := by
  refine ⟨hl, ?_⟩
  cases c with
  | removeProcess pid => exact h.unseen
  | event r now tables =>
    simp only [Followed.step]
    split
    · exact h.unseen
    · intro hseen
      cases hseen

/-- The law of one event: what the prune left are the sums. -/
theorem Held.event_iff (h : Held id w) {d : Direction} (hd : r.direction = some d) :
    SumLaw id w (.event r now tables) ↔ (Erases id w.tracker now tables → w.sums = {}) := by
  have hlaw : SumLaw id w (.event r now tables)
      ↔ (w.tracker.prune now tables).getConnectionCounters id = w.sums := by
    unfold SumLaw
    simp only [Followed.step]
    split
    · next hnone => rw [getConnectionCounters_onEvent hd, hnone]
    · next d₁ hsome => rw [getConnectionCounters_onEvent hd, hsome, Counters.add_right_inj]
  rw [hlaw]
  by_cases herases : Erases id w.tracker now tables
  · rw [prune_of_erases herases]
    constructor
    · intro hsums _
      exact hsums.symm
    · intro hsums
      exact (hsums herases).symm
  · rw [prune_of_not_erases herases, h.counters]
    exact iff_of_true rfl fun h => absurd h herases

/-- The law of one call. -/
theorem Held.sumLaw_iff (h : Held id w) {c : Call} (hr : Regular id w c) :
    SumLaw id w c ↔ OwnRead id w c := by
  cases c with
  | removeProcess pid =>
    refine iff_of_true ?_ trivial
    have hkeep : (id.pid == pid) = false := by
      rw [beq_eq_false_iff_ne]
      exact hr.symm
    show ((w.tracker.connections.eraseIf _).lookup id).getD {} = w.sums
    rw [← h.counters, Finmap.lookup_eraseIf, hkeep, ProcessNetworkTracker.getConnectionCounters]
    cases w.tracker.connections.lookup id <;> rfl
  | event r now tables =>
    cases hd : r.direction with
    | none =>
      refine iff_of_true ?_ ?_
      · show (w.step id (.event r now tables)).tracker.getConnectionCounters id = _
        simp only [Followed.step, directionFor_of_none hd, ProcessNetworkTracker.onEvent, hd]
        exact h.counters
      · intro hsome
        rw [hd] at hsome
        cases hsome
    | some d =>
      rw [h.event_iff hd]
      constructor
      · intro hlaw _ hprunes hown hread
        refine hlaw ⟨hprunes, hread, ?_⟩
        rintro ⟨rows, hrows, -⟩
        rw [hown] at hrows
        cases hrows
      · rintro hown ⟨hprunes, hread, hnot⟩
        cases hseen : w.seen with
        | false => exact h.unseen hseen
        | true =>
          -- the connection is in its table, so that was not read
          refine hown (by rw [hd]; rfl) hprunes ?_ hread
          cases hrows : tables.connections id.proto with
          | none => rfl
          | some rows => exact absurd ⟨rows, hrows, hr hseen rows hrows⟩ hnot

end Step

/-! ## every run -/

/--
**An endpoint's events and its table row have one ID, which for TCP is no other endpoint's; and a
connection that stays in its table keeps the sums of its events**, in exactly the runs in which no
prune takes a failed read of its table for a closed connection.
-/
theorem connections_counted (id : ConnectionId) (lastPrune : UInt64) (calls : List Call) :
    (∀ (row : Row) (e : Endpoint), row.IsOf e → ∀ d size rest,
      (e.event d size rest).counted = some (idOf row.connection, d)
        ∧ (e.event d size rest).size = size)
    ∧ (∀ e₁ e₂ : Endpoint, e₁.udp = false → e₂.udp = false → ∀ d₁ d₂ size₁ size₂ rest₁ rest₂,
      (e₁.event d₁ size₁ rest₁).connection = (e₂.event d₂ size₂ rest₂).connection → e₁ = e₂)
    ∧ (Along (Followed.step id) (Regular id) { tracker := { lastPrune := lastPrune } } calls →
        (Along (Followed.step id) (SumLaw id) { tracker := { lastPrune := lastPrune } } calls
          ↔ Along (Followed.step id) (OwnRead id)
            { tracker := { lastPrune := lastPrune } } calls)) := by
  refine ⟨?_, ?_, ?_⟩
  · intro row e hrow d size rest
    rw [event_counted, hrow.idOf_eq d size rest]
    exact ⟨rfl, event_size⟩
  · intro e₁ e₂ h₁ h₂ d₁ d₂ size₁ size₂ rest₁ rest₂ h
    exact event_connection_inj h₁ h₂ h
  · intro hr
    constructor
    · intro hl
      exact Along.mono_of_invariant (Held id) (fun w c hw hok => hw.step hok.2)
        (fun w c hw hok => (hw.sumLaw_iff hok.1).mp hok.2) (Held.start lastPrune) (hr.and hl)
    · intro ho
      exact Along.mono_of_invariant (Held id)
        (fun w c hw hok => hw.step ((hw.sumLaw_iff hok.1).mpr hok.2))
        (fun w c hw hok => (hw.sumLaw_iff hok.1).mpr hok.2) (Held.start lastPrune) (hr.and ho)

section Runs

instance (id : ConnectionId) (w : Followed) : (c : Call) → Decidable (Regular id w c)
  | .event _ _ tables => inferInstanceAs (Decidable (w.seen = true →
      ∀ rows ∈ tables.connections id.proto, ∃ c ∈ rows, idOf c = id))
  | .removeProcess pid => inferInstanceAs (Decidable (pid ≠ id.pid))

/-- A connection of process 4 from 10.0.0.1:80 to 10.0.0.2:8080. -/
def served : Endpoint where
  pid := 4
  udp := false
  v6 := false
  localAddress := [10, 0, 0, 1]
  remoteAddress := [10, 0, 0, 2]
  localPort := 80
  remotePort := 8080
  localLength := rfl
  remoteLength := rfl

/-- Its row, with what was in the rest of the remote port's field. -/
def servedRow : TcpRow where
  state := 5
  localAddr := 0x0100000A
  localPort := 0x5000
  remoteAddr := 0x0200000A
  remotePort := 0xABCD901F
  owningPid := 4

def servedId : ConnectionId := idOf servedRow.connection

/-- It sends 5 bytes, and after a while 7. -/
def sends (tables : Tables) : List Call :=
  [.event (served.event .send 5 []) 40000 { tcp4 := some [servedRow] },
    .event (served.event .send 7 []) 80000 tables]

theorem connections_counted_sends :
    (served.event .receive 9 []).counted = some (servedId, .receive)
      ∧ (Along (Followed.step servedId) (SumLaw servedId) { tracker := { lastPrune := 0 } }
          (sends { tcp4 := some [servedRow], udp4 := some [] })
        ↔ Along (Followed.step servedId) (OwnRead servedId) { tracker := { lastPrune := 0 } }
          (sends { tcp4 := some [servedRow], udp4 := some [] })) :=
  ⟨((connections_counted servedId 0 []).1 (.tcp servedRow) served
      ⟨rfl, rfl, by decide, rfl, by decide, by decide, by unfold PortIn; decide,
        by unfold PortIn; decide⟩ .receive 9 []).1,
    (connections_counted servedId 0 _).2.2 (by decide)⟩

/-- The second send finds the other tables only, and the first one's bytes are lost. -/
theorem failed_read_forgets :
    ¬ ∀ (id : ConnectionId) (calls : List Call),
      Along (Followed.step id) (Regular id) { tracker := { lastPrune := 0 } } calls →
        Along (Followed.step id) (SumLaw id) { tracker := { lastPrune := 0 } } calls := by
  intro hall
  have hlaw := hall servedId (sends { tcp6 := some [], udp4 := some [], udp6 := some [] }) (by decide)
  -- 12 bytes were sent, of which 7 are counted
  obtain ⟨-, hsecond, -⟩ := hlaw
  exact absurd hsecond (by unfold SumLaw; decide +kernel)

end Runs

end WinSys.Network
