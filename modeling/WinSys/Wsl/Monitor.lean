import WinSys.Infra.Stream
import WinSys.Wsl.Protocol

/-!
# The pipe

`WslProcessMonitor::Read`: what comes through the pipe is kept in a buffer, and the header and the
frames are taken off it as they are whole.
-/

namespace WinSys.Wsl

open Infra

section Header

variable (conv : Conversions)

/-! ## the header -/

def colon : UInt8 := 58

/-- `#K ticks processors page helper` -/
def readConstants (system : WslSystem) (f : List Bytes) : WslSystem :=
  { system with
    clockTicks := max 1 (toNumber (f.getD 0 [])).toUInt32
    processors := max 1 (toNumber (f.getD 1 [])).toUInt32
    pageSize := max 512 (toNumber (f.getD 2 [])).toUInt32
    helperPid := (toNumber (f.getD 3 [])).toUInt32 }

/-- `name:password:uid:...` -/
def readUser (system : WslSystem) (line : Bytes) : WslSystem :=
  match find [colon] line with
  | none => system
  | some first =>
    match findFrom [colon] line (first + 1) with
    | none => system
    | some second =>
      { system with
        users := system.users.insert (toNumber (line.drop (second + 1))).toUInt32
          (conv.fromUtf8 (line.take first)) }

/-- The header's lines, from what was read of it. -/
def headerLines : List Bytes → WslSystem → Bool → Bool → Option WslSystem
  | [], _, _, _ => none
  | line :: ls, system, started, users =>
    if ascii "#K " <+: line then
      let f := split (line.drop 3)
      if f.length < 4 then none else headerLines ls (readConstants system f) true users
    else if line = ascii "#P" then headerLines ls system started true
    else if line = ascii "#R" then if started then some system else none
    else if users then headerLines ls (readUser conv system line) started users
    else headerLines ls system started users

def parseHeader (text : Bytes) : Option WslSystem :=
  headerLines conv (textLines text) {} false false

end Header

/-! ## the reader -/

def headerEnd : Bytes := ascii "\n#R\n"

def frameEnd : Bytes := ascii "\n#E\n"

structure Monitor where
  /-- The reader's own. -/
  system : Option WslSystem := none
  /-- `m_System`, each time that it is set. -/
  published : List WslSystem := []
  /-- What `ParseFrame` gave, one after the other. -/
  parsed : List (Option WslFrame) := []
  /-- `m_Frame` -/
  frame : Option WslFrame := none

namespace Monitor

variable (conv : Conversions)

def readHeader (m : Monitor) (text : Bytes) : Monitor :=
  match parseHeader conv text with
  | none => m
  | some s => { m with system := some s, published := m.published ++ [s] }

def readFrame (m : Monitor) (system : WslSystem) (text : Bytes) : Monitor :=
  let frame := parseFrame conv text system
  { m with parsed := m.parsed ++ [frame], frame := frame.or m.frame }

/-- One turn of the loop over the buffer; none when it has no more for it. -/
def take (m : Monitor) (buffer : Bytes) : Option (Monitor × Bytes) :=
  match m.system with
  | none =>
    match find headerEnd buffer with
    | none => none
    | some stop => some (m.readHeader conv (buffer.take (stop + 4)), buffer.drop (stop + 4))
  | some system =>
    match find frameEnd buffer with
    | none => none
    | some stop => some (m.readFrame conv system (buffer.take (stop + 4)), buffer.drop (stop + 4))

theorem mark_le {pat buffer : Bytes} {stop : ℕ} (hpat : pat.length = 4)
    (h : find pat buffer = some stop) : stop + 4 ≤ buffer.length := by
  obtain ⟨hle, hp, -⟩ := find_eq_some.mp h
  have hlen := hp.length_le
  rw [List.length_drop, hpat] at hlen
  omega

theorem take_shorter {m m' : Monitor} {buffer rest : Bytes}
    (h : m.take conv buffer = some (m', rest)) : rest.length < buffer.length := by
  unfold take at h
  split at h
  · split at h
    · cases h
    · next stop hstop =>
      cases h
      have := mark_le rfl hstop
      rw [List.length_drop]
      omega
  · split at h
    · cases h
    · next stop hstop =>
      cases h
      have := mark_le rfl hstop
      rw [List.length_drop]
      omega

theorem take_append {m m' : Monitor} {buffer rest : Bytes}
    (h : m.take conv buffer = some (m', rest)) (more : Bytes) :
    m.take conv (buffer ++ more) = some (m', rest ++ more) := by
  unfold take at h ⊢
  cases hsystem : m.system with
  | none =>
    rw [hsystem] at h
    simp only at h ⊢
    split at h
    · cases h
    · next stop hstop =>
      cases h
      have hle := mark_le rfl hstop
      rw [find_append_of_some hstop]
      simp only
      rw [List.take_append_of_le_length hle, List.drop_append_of_le_length hle]
  | some system =>
    rw [hsystem] at h
    simp only at h ⊢
    split at h
    · cases h
    · next stop hstop =>
      cases h
      have hle := mark_le rfl hstop
      rw [find_append_of_some hstop]
      simp only
      rw [List.take_append_of_le_length hle, List.drop_append_of_le_length hle]

def cutter : Cutter Monitor UInt8 where
  cut := take conv
  shorter := take_shorter conv
  append := take_append conv

/-- `Read`: a read that gives no bytes is the last one. -/
def read : Monitor × Bytes → List Bytes → Monitor × Bytes
  | state, [] => state
  | state, chunk :: chunks =>
    if chunk = [] then state else read ((cutter conv).feed state chunk) chunks

theorem read_eq_foldl (state : Monitor × Bytes) {chunks : List Bytes} (h : ∀ c ∈ chunks, c ≠ []) :
    read conv state chunks = chunks.foldl (cutter conv).feed state := by
  induction chunks generalizing state with
  | nil => rfl
  | cons chunk chunks ih =>
    rw [read, if_neg (h chunk List.mem_cons_self), List.foldl_cons]
    exact ih _ fun c hc => h c (List.mem_cons_of_mem _ hc)

/-- **The pipe may cut the stream anywhere.** -/
theorem read_chunks (chunks : List Bytes) (h : ∀ c ∈ chunks, c ≠ [] ∧ c.length ≤ 16384) :
    read conv ({}, []) chunks = read conv ({}, []) [chunks.flatten] := by
  rw [read_eq_foldl conv _ fun c hc => (h c hc).1, (cutter conv).foldl_feed]
  by_cases hnil : chunks.flatten = []
  · rw [hnil, read, if_pos rfl]
    exact (cutter conv).drain_of_none ((cutter conv).cut_nil _)
  · rw [read, if_neg hnil, read, Cutter.feed, List.nil_append]

/-- A mark between two chunks, after a header that does not begin with `#K`. -/
theorem read_chunks_mark :
    read ⟨fun text => text.map UInt8.toUInt16, fun _ => 0⟩ ({}, [])
        [ascii "#P\n#R", ascii "\n#K 1 1 1 1\n#R\n"]
      = read ⟨fun text => text.map UInt8.toUInt16, fun _ => 0⟩ ({}, [])
        [[ascii "#P\n#R", ascii "\n#K 1 1 1 1\n#R\n"].flatten] :=
  read_chunks _ _ (by decide)

end Monitor

end WinSys.Wsl
