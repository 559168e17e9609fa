import WinSys.Infra.Dict
import WinSys.Network.Connections

/-!
# Bytes by process and by connection

`ProcessNetworkTracker` counts the send and receive events of the kernel's network provider. The
connections that are gone are forgotten every 30 seconds, against the connection tables.
-/

namespace WinSys.Network

open Infra

inductive Direction
  | send | receive
deriving DecidableEq, Repr

structure Counters where
  sent : UInt64 := 0
  received : UInt64 := 0
deriving DecidableEq, Repr

def Counters.add (c : Counters) (size : UInt32) : Direction → Counters
  | .send => { c with sent := c.sent + size.toUInt64 }
  | .receive => { c with received := c.received + size.toUInt64 }

/-- A connection as the events tell it: TCP by both ends, UDP by its local port only. -/
structure ConnectionId where
  pid : UInt32 := 0
  udp : Bool := false
  v6 : Bool := false
  localAddress : Address := .zero
  remoteAddress : Address := .zero
  localPort : UInt16 := 0
  remotePort : UInt16 := 0
deriving DecidableEq, Repr

/-- The bytes of an address. -/
def addressLength (v6 : Bool) : ℕ := if v6 then 16 else 4

def isV6 (proto : ConnectionProtocol) : Bool := proto = .tcp6 || proto = .udp6

def isUdp (proto : ConnectionProtocol) : Bool := proto = .udp || proto = .udp6

/-- The ID a listed connection is counted under. -/
def idOf (c : Connection) : ConnectionId :=
  let id : ConnectionId :=
    { pid := c.id.pid, v6 := isV6 c.id.proto, udp := isUdp c.id.proto, localPort := c.id.localPort }
  -- a UDP endpoint by its port only
  if id.udp then id
  else
    { id with
      localAddress := .copy (addressLength id.v6) c.id.localAddress.val
      remoteAddress := .copy (addressLength id.v6) c.id.remoteAddress.val
      remotePort := c.id.remotePort }

/-! ## events -/

structure NetworkRecord where
  id : UInt16
  userData : Bytes
deriving DecidableEq, Repr

/-- TCP IPv4, TCP IPv6, UDP IPv4, UDP IPv6. -/
def getDirection (id : UInt16) : Option Direction :=
  if id = 10 ∨ id = 26 ∨ id = 42 ∨ id = 58 then some .send
  else if id = 11 ∨ id = 27 ∨ id = 43 ∨ id = 59 then some .receive
  else none

namespace NetworkRecord

variable (r : NetworkRecord)

def pid : UInt32 := u32 r.userData

def size : UInt32 := u32 (r.userData.drop 4)

def v6 : Bool := r.id = 26 || r.id = 27 || r.id = 58 || r.id = 59

def udp : Bool := 42 ≤ r.id

/-- The payload goes on with both ends' addresses and ports. -/
def hasEnds : Bool := 8 + 2 * addressLength r.v6 + 4 ≤ r.userData.length

/-- The remote and the local address, then the remote and the local port, in network order. -/
def connection : ConnectionId :=
  let length := addressLength r.v6
  let ends := r.userData.drop 8
  let id : ConnectionId :=
    { pid := r.pid, v6 := r.v6, udp := r.udp
      localPort := byteswap (u16 (ends.drop (2 * length + 2))) }
  if r.udp then id
  else
    { id with
      remoteAddress := .copy length ends
      localAddress := .copy length (ends.drop length)
      remotePort := byteswap (u16 (ends.drop (2 * length))) }

/-- The direction of an event that is counted. -/
def direction : Option Direction := if r.userData.length < 8 then none else getDirection r.id

/-- What an event is counted for. -/
def counted : Option (ConnectionId × Direction) :=
  if r.hasEnds then r.direction.map fun d => (r.connection, d) else none

end NetworkRecord

/-! ## the tracker -/

structure ProcessNetworkTracker where
  counters : Finmap fun _ : UInt32 => Counters := ∅
  connections : Finmap fun _ : ConnectionId => Counters := ∅
  lastPrune : UInt64 := 0

namespace ProcessNetworkTracker

variable (t : ProcessNetworkTracker)

def getCounters (pid : UInt32) : Counters := (t.counters.lookup pid).getD {}

def getConnectionCounters (id : ConnectionId) : Counters := (t.connections.lookup id).getD {}

def removeProcess (pid : UInt32) : ProcessNetworkTracker :=
  { t with
    counters := t.counters.erase pid
    connections := t.connections.eraseIf fun id _ => id.pid == pid }

/-- Forgets the connections that are not listed. -/
def pruneConnections (tables : Tables) : ProcessNetworkTracker :=
  match tables.read none with
  | none => t
  | some current =>
    { t with connections := t.connections.eraseIf fun id _ => !(current.map idOf).contains id }

/-- The closed connections' counts go now and then. -/
def prunes (now : UInt64) : Bool := now - t.lastPrune ≥ 30000

def prune (now : UInt64) (tables : Tables) : ProcessNetworkTracker :=
  if t.prunes now then { t with lastPrune := now }.pruneConnections tables else t

def countProcess (pid : UInt32) (size : UInt32) (d : Direction) : ProcessNetworkTracker :=
  { t with counters := t.counters.insert pid ((t.getCounters pid).add size d) }

def countConnection (id : ConnectionId) (size : UInt32) (d : Direction) : ProcessNetworkTracker :=
  { t with connections := t.connections.insert id ((t.getConnectionCounters id).add size d) }

/-- `now` and the tables are as the event finds them. -/
def onEvent (r : NetworkRecord) (now : UInt64) (tables : Tables) : ProcessNetworkTracker :=
  match r.direction with
  | none => t
  | some d =>
    let t := (t.prune now tables).countProcess r.pid r.size d
    if r.hasEnds then t.countConnection r.connection r.size d else t

end ProcessNetworkTracker

end WinSys.Network
