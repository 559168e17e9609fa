import WinSys.Infra.Bytes
import WinSys.Infra.Dict
import WinSys.Infra.Run
import WinSys.Infra.Wide

/-!
# Which processes talk to which

`IpcTracker` counts ALPC messages and RPC calls by client and server. An ALPC message's send and
receive events are matched by its ID, in a record that waits for the other event; a reply has its
request's ID. The client is the process that waits for the reply, if one does.
-/

namespace WinSys.Ipc

open Infra

/-! ## the state -/

structure Counter where
  count : UInt64 := 0
  firstSeen : ℤ := 0
  lastSeen : ℤ := 0
deriving DecidableEq, Repr

def Counter.add (c : Counter) (now : ℤ) : Counter where
  count := c.count + 1
  firstSeen := if c.count = 0 then now else c.firstSeen
  lastSeen := now

structure RpcKey where
  clientPid : UInt32
  iface : Bytes
  protocol : UInt32
  endpoint : WString
  networkAddress : WString
deriving DecidableEq, Repr

/-- An ALPC message between its events. -/
structure PendingMessage where
  sender : UInt32 := 0
  receiver : UInt32 := 0
  client : UInt32 := 0
  tick : UInt64 := 0
deriving DecidableEq, Repr

structure IpcTracker where
  /-- By the client's ID, shifted by 32, and the server's. -/
  alpc : Finmap fun _ : UInt64 => Counter := ∅
  rpc : Finmap fun _ : RpcKey => Counter := ∅
  /-- The process that serves a protocol and an endpoint (`EndpointKey` writes both in one text). -/
  endpoints : Finmap fun _ : UInt32 × WString => UInt32 := ∅
  /-- By message ID. -/
  pending : Finmap fun _ : UInt32 => PendingMessage := ∅
  lastPrune : UInt64 := 0

/-! ## ALPC -/

def alpcSend : UInt8 := 33

def alpcReceive : UInt8 := 34

def alpcWaitForReply : UInt8 := 35

/-- A message ID is reused once the message is done with: a record this old starts over. -/
def pendingLifetime : UInt64 := 10000

structure AlpcRecord where
  opcode : UInt8
  pid : UInt32
  userData : Bytes
deriving DecidableEq, Repr

def pairKey (client server : UInt32) : UInt64 := client.toUInt64 <<< 32 ||| server.toUInt64

/-- A record as an event finds it. -/
def PendingMessage.renew (m : PendingMessage) (tick : UInt64) : PendingMessage :=
  { (if tick - m.tick > pendingLifetime then {} else m) with tick := tick }

def PendingMessage.note (m : PendingMessage) (opcode : UInt8) (pid : UInt32) : PendingMessage :=
  if opcode = alpcSend then { m with sender := pid }
  else if opcode = alpcReceive then { m with receiver := pid }
  else { m with client := pid }

/-- Both sides of a message are known. -/
def PendingMessage.matched (m : PendingMessage) : Bool := m.sender ≠ 0 && m.receiver ≠ 0

/-- What a matched message is counted for; nothing within a process. -/
def PendingMessage.pair (m : PendingMessage) : Option (UInt32 × UInt32) :=
  if m.sender = m.receiver then none
  else if m.client = m.receiver then some (m.receiver, m.sender)
  else some (m.sender, m.receiver)

namespace IpcTracker

variable (t : IpcTracker)

def countAlpc (pair : UInt32 × UInt32) (now : ℤ) : IpcTracker :=
  let key := pairKey pair.1 pair.2
  { t with alpc := t.alpc.insert key (((t.alpc.lookup key).getD {}).add now) }

/-- A request, or its reply, is counted once both sides are known. -/
def matchAlpc (id : UInt32) (m : PendingMessage) (now : ℤ) : IpcTracker :=
  if m.matched then
    let t := { t with pending := t.pending.insert id { m with sender := 0, receiver := 0 } }
    match m.pair with
    | none => t
    | some pair => t.countAlpc pair now
  else { t with pending := t.pending.insert id m }

/-- Messages whose other events never came. -/
def prunePending (tick : UInt64) : IpcTracker :=
  if tick - t.lastPrune > 30000 then
    { t with
      lastPrune := tick
      pending := t.pending.eraseIf fun _ m => tick - m.tick > pendingLifetime }
  else t

def onAlpc (record : AlpcRecord) (tick : UInt64) (now : ℤ) : IpcTracker :=
  if record.opcode < alpcSend ∨ record.opcode > alpcWaitForReply ∨ record.userData.length < 4
      ∨ record.pid = 0 ∨ record.pid = 0xFFFFFFFF then t
  else
    let id := u32 record.userData
    let m := (((t.pending.lookup id).getD {}).renew tick).note record.opcode record.pid
    if record.opcode = alpcWaitForReply then { t with pending := t.pending.insert id m }
    else (t.matchAlpc id m now).prunePending tick

/-- How often a pair was counted. -/
def alpcCount (client server : UInt32) : UInt64 :=
  ((t.alpc.lookup (pairKey client server)).getD {}).count

end IpcTracker

/-! ## RPC -/

structure RpcRecord where
  id : UInt16
  pid : UInt32
  userData : Bytes
deriving DecidableEq, Repr

def clientCallStart : UInt16 := 5

def serverCallStart : UInt16 := 6

/-- A string of the payload at an offset, and the offset after it. -/
def readString (data : Bytes) (offset : ℕ) : WString × ℕ :=
  if offset ≥ data.length then ([], offset)
  else
    let text := (units (data.drop offset)).takeWhile (· ≠ 0)
    (text, offset + (text.length + 1) * 2)

namespace IpcTracker

variable (t : IpcTracker)

def onRpc (record : RpcRecord) (now : ℤ) : IpcTracker :=
  if (record.id ≠ clientCallStart ∧ record.id ≠ serverCallStart)
      ∨ record.userData.length < 16 + 2 * 4 then t
  else
    let protocol := u32 (record.userData.drop 20)
    let (address, offset) := readString record.userData 24
    let (endpoint, _) := readString record.userData offset
    -- no address: a local call
    let address := if address = wide "NULL" then [] else address
    if record.id = serverCallStart then
      { t with endpoints := t.endpoints.insert (protocol, endpoint) record.pid }
    else
      let key : RpcKey := ⟨record.pid, record.userData.take 16, protocol, endpoint, address⟩
      { t with rpc := t.rpc.insert key (((t.rpc.lookup key).getD {}).add now) }

def removeProcess (pid : UInt32) : IpcTracker :=
  { t with
    alpc := t.alpc.eraseIf fun pair _ => (pair >>> 32).toUInt32 = pid || pair.toUInt32 = pid
    rpc := t.rpc.eraseIf fun key _ => key.clientPid = pid
    endpoints := t.endpoints.eraseIf fun _ server => server = pid }

end IpcTracker

/-! ## links -/

inductive IpcKind
  | alpc | rpc
deriving DecidableEq, Repr

structure IpcLink where
  kind : IpcKind := .alpc
  clientPid : UInt32 := 0
  /-- 0: not known. -/
  serverPid : UInt32 := 0
  iface : Bytes := []
  protocol : UInt32 := 0
  endpoint : WString := []
  networkAddress : WString := []
  count : UInt64 := 0
  firstSeen : ℤ := 0
  lastSeen : ℤ := 0
deriving DecidableEq, Repr

namespace IpcTracker

variable (t : IpcTracker)

def alpcLink (pair : UInt64) (counter : Counter) : IpcLink where
  kind := .alpc
  clientPid := (pair >>> 32).toUInt32
  serverPid := pair.toUInt32
  count := counter.count
  firstSeen := counter.firstSeen
  lastSeen := counter.lastSeen

def rpcLink (key : RpcKey) (counter : Counter) : IpcLink where
  kind := .rpc
  clientPid := key.clientPid
  iface := key.iface
  protocol := key.protocol
  endpoint := key.endpoint
  networkAddress := key.networkAddress
  -- a local endpoint's server, once a call on it was seen there
  serverPid :=
    if key.networkAddress = [] then (t.endpoints.lookup (key.protocol, key.endpoint)).getD 0 else 0
  count := counter.count
  firstSeen := counter.firstSeen
  lastSeen := counter.lastSeen

/-- In no particular order. -/
def getLinks : Multiset IpcLink :=
  t.alpc.entries.map (fun e => alpcLink e.1 e.2) + t.rpc.entries.map fun e => t.rpcLink e.1 e.2

end IpcTracker

/-! ## runs -/

inductive Call
  | onAlpc (record : AlpcRecord) (tick : UInt64) (now : ℤ)
  | onRpc (record : RpcRecord) (now : ℤ)
  | removeProcess (pid : UInt32)
deriving DecidableEq, Repr

def IpcTracker.step (t : IpcTracker) : Call → IpcTracker
  | .onAlpc record tick now => t.onAlpc record tick now
  | .onRpc record now => t.onRpc record now
  | .removeProcess pid => t.removeProcess pid

/-- The tick of the last ALPC event. -/
def Call.clock (clock : UInt64) : Call → UInt64
  | .onAlpc _ tick _ => tick
  | _ => clock

/-- The ticks do not go back. -/
def Ticking : UInt64 → List Call → Prop
  | _, [] => True
  | clock, c :: calls => clock ≤ c.clock clock ∧ Ticking (c.clock clock) calls

instance instDecidableTicking : ∀ clock calls, Decidable (Ticking clock calls)
  | _, [] => .isTrue trivial
  | clock, c :: calls =>
    let _rest : Decidable (Ticking (c.clock clock) calls) := instDecidableTicking _ calls
    inferInstanceAs (Decidable (_ ∧ _))

end WinSys.Ipc
