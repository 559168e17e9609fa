import WinSys.Infra.Bytes

/-!
# The system's connections

`ConnectionInfo::Read` lists the TCP connections and UDP endpoints from the four owner tables of
the IP helper. A table whose read fails is passed over; the list is missing only when all four are.
-/

namespace WinSys.Network

open Infra

/-! ## addresses and ports -/

/-- `std::array<BYTE, 16>`; an IPv4 address is in the first 4 bytes. -/
abbrev Address := { bs : Bytes // bs.length = 16 }

namespace Address

/-- The first bytes of a buffer, copied over zeros. -/
def copy (n : ℕ) (bs : Bytes) : Address :=
  ⟨(bs.take n ++ List.replicate 16 0).take 16, by simp⟩

def zero : Address := copy 0 []

theorem copy_val {n : ℕ} {bs : Bytes} (hn : n ≤ 16) (h : n ≤ bs.length) :
    (copy n bs).val = bs.take n ++ List.replicate (16 - n) 0 := by
  have hlength : (bs.take n).length = n := by simp [h]
  show (bs.take n ++ List.replicate 16 0).take 16 = _
  rw [List.take_append, hlength, List.take_of_length_le (by omega), List.take_replicate,
    Nat.min_eq_left (by omega)]

/-- Copying what was copied. -/
theorem copy_copy {n : ℕ} {bs : Bytes} (hn : n ≤ 16) (h : n ≤ bs.length) :
    copy n (copy n bs).val = copy n bs := by
  have hlength : (bs.take n).length = n := by simp [h]
  refine Subtype.ext ?_
  rw [copy_val hn (by rw [(copy n bs).property]; exact hn), copy_val hn h,
    List.take_left' hlength]

/-- Two addresses of a family that are copied to the same bytes are the same. -/
theorem copy_inj {n : ℕ} {as bs : Bytes} (hn : n ≤ 16) (ha : as.length = n) (hb : bs.length = n)
    (h : copy n as = copy n bs) : as = bs := by
  have hval := congrArg Subtype.val h
  rw [copy_val hn (by omega), copy_val hn (by omega), List.take_of_length_le (by omega),
    List.take_of_length_le (by omega)] at hval
  exact List.append_cancel_right hval

end Address

/-- A port in a table: in network order, in the low 16 bits. -/
def portFromTable (port : UInt32) : UInt16 := byteswap port.toUInt16

/-! ## connections -/

inductive ConnectionProtocol
  | tcp | tcp6 | udp | udp6
deriving DecidableEq, Repr

/-- What tells connections apart from one read to the next. -/
structure ConnectionKey where
  proto : ConnectionProtocol
  localAddress : Address := .zero
  remoteAddress : Address := .zero
  localScope : UInt32 := 0
  remoteScope : UInt32 := 0
  localPort : UInt16 := 0
  remotePort : UInt16 := 0
  pid : UInt32 := 0
deriving DecidableEq, Repr

structure Connection where
  id : ConnectionKey
  state : UInt32
  created : ℤ
deriving DecidableEq, Repr

/-! ## the tables -/

/-- `MIB_TCP_STATE_LISTEN` -/
def tcpStateListen : UInt32 := 2

/-- A row of the IPv4 TCP table. -/
structure TcpRow where
  state : UInt32
  localAddr : UInt32
  localPort : UInt32
  remoteAddr : UInt32
  remotePort : UInt32
  owningPid : UInt32
  createTimestamp : ℤ := 0
deriving DecidableEq, Repr

structure Tcp6Row where
  localAddr : Address
  localScopeId : UInt32
  localPort : UInt32
  remoteAddr : Address
  remoteScopeId : UInt32
  remotePort : UInt32
  state : UInt32
  owningPid : UInt32
  createTimestamp : ℤ := 0
deriving DecidableEq, Repr

structure UdpRow where
  localAddr : UInt32
  localPort : UInt32
  owningPid : UInt32
  createTimestamp : ℤ := 0
deriving DecidableEq, Repr

structure Udp6Row where
  localAddr : Address
  localScopeId : UInt32
  localPort : UInt32
  owningPid : UInt32
  createTimestamp : ℤ := 0
deriving DecidableEq, Repr

/-- An IPv4 address in a table, as it is in memory. -/
def addressBytes (addr : UInt32) : Bytes := leBytes 4 addr.toNat

def TcpRow.connection (row : TcpRow) : Connection where
  id := {
    proto := .tcp
    pid := row.owningPid
    localAddress := .copy 4 (addressBytes row.localAddr)
    remoteAddress := .copy 4 (addressBytes row.remoteAddr)
    localPort := portFromTable row.localPort
    -- a listening socket has no remote end
    remotePort := if row.state = tcpStateListen then 0 else portFromTable row.remotePort }
  state := row.state
  created := row.createTimestamp

def Tcp6Row.connection (row : Tcp6Row) : Connection where
  id := {
    proto := .tcp6
    pid := row.owningPid
    localAddress := .copy 16 row.localAddr.val
    remoteAddress := .copy 16 row.remoteAddr.val
    localScope := row.localScopeId
    remoteScope := row.remoteScopeId
    localPort := portFromTable row.localPort
    remotePort := if row.state = tcpStateListen then 0 else portFromTable row.remotePort }
  state := row.state
  created := row.createTimestamp

def UdpRow.connection (row : UdpRow) : Connection where
  id := {
    proto := .udp
    pid := row.owningPid
    localAddress := .copy 4 (addressBytes row.localAddr)
    localPort := portFromTable row.localPort }
  state := 0
  created := row.createTimestamp

def Udp6Row.connection (row : Udp6Row) : Connection where
  id := {
    proto := .udp6
    pid := row.owningPid
    localAddress := .copy 16 row.localAddr.val
    localScope := row.localScopeId
    localPort := portFromTable row.localPort }
  state := 0
  created := row.createTimestamp

/-- What the four reads give; a read may fail. -/
structure Tables where
  tcp4 : Option (List TcpRow) := none
  tcp6 : Option (List Tcp6Row) := none
  udp4 : Option (List UdpRow) := none
  udp6 : Option (List Udp6Row) := none
deriving DecidableEq, Repr

namespace Tables

/-- The connections of one table. -/
def connections (t : Tables) : ConnectionProtocol → Option (List Connection)
  | .tcp => t.tcp4.map (·.map TcpRow.connection)
  | .tcp6 => t.tcp6.map (·.map Tcp6Row.connection)
  | .udp => t.udp4.map (·.map UdpRow.connection)
  | .udp6 => t.udp6.map (·.map Udp6Row.connection)

/-- `ConnectionInfo::Read` -/
def read (t : Tables) (pid : Option UInt32) : Option (List Connection) :=
  if t.tcp4.isNone && t.tcp6.isNone && t.udp4.isNone && t.udp6.isNone then none
  else
    let wanted := fun c : Connection => pid.all fun p => c.id.pid == p
    some ((t.connections .tcp).getD [] ++ (t.connections .tcp6).getD []
      ++ (t.connections .udp).getD [] ++ (t.connections .udp6).getD [] |>.filter wanted)

/-- A connection is listed when its table is read and has it. -/
theorem mem_read {t : Tables} {cs : List Connection} (h : t.read none = some cs) (c : Connection) :
    c ∈ cs ↔ ∃ proto, ∃ rows, t.connections proto = some rows ∧ c ∈ rows := by
  have hmem : ∀ proto, c ∈ (t.connections proto).getD []
      ↔ ∃ rows, t.connections proto = some rows ∧ c ∈ rows := by
    intro proto
    cases t.connections proto with
    | none => simp
    | some rows => simp
  unfold read at h
  split at h
  · cases h
  · obtain rfl := Option.some.inj h
    rw [List.mem_filter]
    simp only [List.mem_append, hmem, Option.all_none, and_true]
    constructor
    · rintro (((h | h) | h) | h)
      · exact ⟨.tcp, h⟩
      · exact ⟨.tcp6, h⟩
      · exact ⟨.udp, h⟩
      · exact ⟨.udp6, h⟩
    · rintro ⟨proto, h⟩
      cases proto with
      | tcp => exact Or.inl (Or.inl (Or.inl h))
      | tcp6 => exact Or.inl (Or.inl (Or.inr h))
      | udp => exact Or.inl (Or.inr h)
      | udp6 => exact Or.inr h

/-- A connection says which table it is from. -/
theorem proto_of_mem {t : Tables} {proto : ConnectionProtocol} {rows : List Connection}
    {c : Connection} (h : t.connections proto = some rows) (hc : c ∈ rows) : c.id.proto = proto := by
  cases proto with
  | tcp | tcp6 | udp | udp6 =>
    obtain ⟨list, -, rfl⟩ := Option.map_eq_some_iff.mp h
    obtain ⟨row, -, rfl⟩ := List.mem_map.mp hc
    rfl

end Tables

end WinSys.Network
