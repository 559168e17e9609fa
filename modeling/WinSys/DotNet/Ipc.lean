import WinSys.DotNet.ProcessInfo
import WinSys.Infra.Layout
import WinSys.Infra.Transfer

/-!
# The diagnostics pipe

`DotNetInfo::QueryCoreProcessInfo` asks a process's runtime over its diagnostics pipe, one command a
connection. A request and its answer are messages with a header.

* `ipcCommand`, `findDiagnosticsPipe`, `queryCoreProcessInfo`: the source
* `Serves`: a runtime, which knows both commands or only the older one
* `queryCoreProcessInfo_serves`: what comes back is what the process's runtime says
-/

namespace WinSys.DotNet

open Infra Reads PayloadReader Transfer

/-! ## the source -/

structure IpcHeader where
  magic : Bytes
  /-- The whole message's. -/
  size : UInt16
  commandSet : UInt8
  commandId : UInt8
  reserved : UInt16 := 0
deriving DecidableEq, Repr

/-- `sizeof(IpcHeader)` -/
def headerSize : ℕ := 20

/-- `"DOTNET_IPC_V1"` and its NUL. -/
def ipcMagic : Bytes := [0x44, 0x4F, 0x54, 0x4E, 0x45, 0x54, 0x5F, 0x49, 0x50, 0x43, 0x5F, 0x56, 0x31, 0]

def processCommandSet : UInt8 := 0x04
def serverCommandSet : UInt8 := 0xFF
def processInfoCommand : UInt8 := 0x00
def processInfo2Command : UInt8 := 0x04
def serverOk : UInt8 := 0x00

/-- The error of a runtime that doesn't know the command. -/
def unknownCommand : UInt32 := 0x80131384

namespace IpcHeader

/-- As it lies in memory, packed. -/
def bytes (h : IpcHeader) : Bytes :=
  h.magic ++ (leBytes 2 h.size.toNat ++ (h.commandSet :: h.commandId :: leBytes 2 h.reserved.toNat))

def ofBytes (bytes : Bytes) : IpcHeader where
  magic := bytes.take 14
  size := u16At bytes 14
  commandSet := u8At bytes 16
  commandId := u8At bytes 17
  reserved := u16At bytes 18

end IpcHeader

/-- Why a transfer fails: the last error is the system's, or the time is over. -/
inductive TransferError
  | system
  | timeout
deriving DecidableEq, Repr

inductive IpcError
  | fileNotFound
  | notConnected
  | transfer (error : TransferError)
  | invalidData
  | notSupported (unknown : Bool)
  /-- The answer can't be parsed; the last error isn't set. -/
  | unparsed
deriving DecidableEq, Repr

/-- A connection to the pipe: what becomes of the transfers, and what the runtime sends for what it
was sent. -/
structure Connection where
  outcomes : List (Outcome TransferError)
  respond : Bytes → Bytes

def request (commandId : UInt8) : IpcHeader where
  magic := ipcMagic
  size := headerSize.toUInt16
  commandSet := processCommandSet
  commandId := commandId

/-- What an answer comes to: its payload, or an error's `HRESULT`. -/
def answered (commandId : UInt8) (payload : Bytes) : Except IpcError Bytes :=
  if commandId ≠ serverOk then
    let hr := if payload.length ≥ 4 then u32 payload else 0
    .error (.notSupported (hr == unknownCommand))
  else .ok payload

/-- `IpcCommand` from the request on. -/
def receiveAnswer (outcomes : List (Outcome TransferError)) (incoming : Bytes) :
    Except IpcError Bytes :=
  match receive .system outcomes headerSize incoming with
  | .error error => .error (.transfer error)
  | .ok (bytes, incoming, outcomes) =>
    let answer := IpcHeader.ofBytes bytes
    if answer.magic ≠ ipcMagic ∨ answer.size.toNat < headerSize
        ∨ answer.commandSet ≠ serverCommandSet then .error .invalidData
    else
      match receive .system outcomes (answer.size.toNat - headerSize) incoming with
      | .error error => .error (.transfer error)
      | .ok (payload, _) => answered answer.commandId payload

/-- One command on a new connection: the answer's payload. -/
def ipcCommand (pipe : Option Connection) (commandId : UInt8) : Except IpcError Bytes :=
  match pipe with
  | none => .error .notConnected
  | some connection =>
    let sent := (request commandId).bytes
    match send .system connection.outcomes sent with
    | .error error => .error (.transfer error)
    | .ok outcomes => receiveAnswer outcomes (connection.respond sent)

/-- `"dotnet-diagnostic-<pid>"` -/
def diagnosticsName (pid : UInt32) : WString := wide "dotnet-diagnostic-" ++ decimal pid.toNat

/-- The pipe's name, or one that goes on after a dash. -/
def isDiagnosticsPipe (pid : UInt32) (pipe : WString) : Bool :=
  let name := diagnosticsName pid
  pipe == name || (name.isPrefixOf pipe && name.length < pipe.length && pipe[name.length]? == some 0x2D)

def findDiagnosticsPipe (pipes : List WString) (pid : UInt32) : Option WString :=
  pipes.find? (isDiagnosticsPipe pid)

def parsed (payload : Bytes) (v2 : Bool) : Reads (Except IpcError DotNetCoreProcessInfo) := do
  match ← parseProcessInfo payload v2 with
  | some info => return .ok info
  | none => return .error .unparsed

def queryCoreProcessInfo (pipes : List WString) (connect : WString → UInt8 → Option Connection)
    (pid : UInt32) : Reads (Except IpcError DotNetCoreProcessInfo) :=
  match findDiagnosticsPipe pipes pid with
  | none => pure (.error .fileNotFound)
  | some pipe =>
    match ipcCommand (connect pipe processInfo2Command) processInfo2Command with
    | .ok payload => parsed payload true
    | .error (.notSupported true) =>
      -- a runtime before .NET 6
      match ipcCommand (connect pipe processInfoCommand) processInfoCommand with
      | .ok payload => parsed payload false
      | .error error => pure (.error error)
    | .error error => pure (.error error)

/-! ## messages -/

/-- A message of a runtime. -/
def message (commandId : UInt8) (payload : Bytes) : Bytes :=
  (IpcHeader.mk ipcMagic (headerSize + payload.length).toUInt16 serverCommandSet commandId 0).bytes
    ++ payload

theorem length_bytes {h : IpcHeader} (hmagic : h.magic = ipcMagic) :
    h.bytes.length = headerSize := by
  simp [IpcHeader.bytes, hmagic, ipcMagic, headerSize]

/-- A header is read back. -/
theorem ofBytes_bytes {h : IpcHeader} (hmagic : h.magic = ipcMagic) :
    IpcHeader.ofBytes h.bytes = h := by
  obtain ⟨magic, size, commandSet, commandId, reserved⟩ := h
  have hsame : magic = ipcMagic := hmagic
  subst hsame
  have hsize : u16At (IpcHeader.mk ipcMagic size commandSet commandId reserved).bytes 14 = size :=
    u16_append size _
  have hreserved : u16At (IpcHeader.mk ipcMagic size commandSet commandId reserved).bytes 18
      = reserved := u16_leBytes reserved
  rw [IpcHeader.ofBytes, hsize, hreserved]
  rfl

/-! ## one command -/

section Command

variable {c : Connection} {outcomes : List (Outcome TransferError)} {command id : UInt8}
  {payload rest incoming : Bytes}

/-- The header of a message. -/
def headerOf (id : UInt8) (payload : Bytes) : IpcHeader :=
  ⟨ipcMagic, (headerSize + payload.length).toUInt16, serverCommandSet, id, 0⟩

theorem message_append (id : UInt8) (payload rest : Bytes) :
    message id payload ++ rest = (headerOf id payload).bytes ++ (payload ++ rest) :=
  List.append_assoc _ _ _

theorem toNat_size (id : UInt8) (h : headerSize + payload.length < 2 ^ 16) :
    (headerOf id payload).size.toNat = headerSize + payload.length := by
  rw [headerOf, Nat.toUInt16_eq, UInt16.toNat_ofNat', Nat.mod_eq_of_lt h]

/-- The payload behind a message's header. -/
theorem receivePayload {incoming' : Bytes} {outcomes' : List (Outcome TransferError)}
    (hsize : headerSize + payload.length < 2 ^ 16)
    (hreceive : receive .system outcomes headerSize incoming
      = .ok ((headerOf id payload).bytes, incoming', outcomes')) :
    receiveAnswer outcomes incoming
      = match receive .system outcomes' payload.length incoming' with
        | .error error => .error (.transfer error)
        | .ok (payload', _) => answered id payload' := by
  have hheader : IpcHeader.ofBytes (headerOf id payload).bytes = headerOf id payload :=
    ofBytes_bytes rfl
  have hlength := toNat_size id hsize
  have hchecks : ¬((headerOf id payload).magic ≠ ipcMagic
      ∨ (headerOf id payload).size.toNat < headerSize
      ∨ (headerOf id payload).commandSet ≠ serverCommandSet) := by
    rw [hlength]
    exact not_or.mpr ⟨not_not.mpr rfl, not_or.mpr ⟨by omega, not_not.mpr rfl⟩⟩
  rw [receiveAnswer, hreceive]
  dsimp only
  rw [hheader, if_neg hchecks, hlength, Nat.add_sub_cancel_left]
  rfl

/-- There was no answer, or not a whole one. -/
inductive IpcError.Unanswered : IpcError → Prop
  | notConnected : Unanswered .notConnected
  | transfer (error : TransferError) : Unanswered (.transfer error)

/-- An answer that begins as a message does, and may be cut, gives what the message says or a failed
transfer. -/
theorem receiveAnswer_of_prefix (hsize : headerSize + payload.length < 2 ^ 16)
    (h : incoming <+: message id payload ++ rest) :
    receiveAnswer outcomes incoming = answered id payload
      ∨ ∃ error, receiveAnswer outcomes incoming = .error error ∧ error.Unanswered := by
  rw [message_append] at h
  cases hreceive : receive .system outcomes headerSize incoming with
  | error error => exact .inr ⟨_, by rw [receiveAnswer, hreceive], .transfer error⟩
  | ok received =>
    obtain ⟨bytes, incoming', outcomes'⟩ := received
    obtain ⟨rfl, hlength⟩ := of_receive hreceive
    obtain ⟨more, hmore⟩ := h
    rw [List.append_assoc] at hmore
    obtain ⟨rfl, htail⟩ := List.append_inj hmore (hlength.trans (length_bytes rfl).symm)
    rw [receivePayload hsize hreceive]
    cases hpayload : receive .system outcomes' payload.length incoming' with
    | error error => exact .inr ⟨_, rfl, .transfer error⟩
    | ok received =>
      obtain ⟨payload', rest', outcomes''⟩ := received
      obtain ⟨rfl, hlength'⟩ := of_receive hpayload
      rw [List.append_assoc] at htail
      obtain ⟨rfl, -⟩ := List.append_inj htail hlength'
      exact .inl rfl

/-- A message that comes whole, in whatever pieces, gives what it says. -/
theorem receiveAnswer_of_lasting (hsize : headerSize + payload.length < 2 ^ 16)
    (h : Lasting outcomes (headerSize + payload.length)) :
    receiveAnswer outcomes (message id payload ++ rest) = answered id payload := by
  have hheader : (headerOf id payload).bytes.length = headerSize := length_bytes rfl
  rw [← hheader] at h
  obtain ⟨outcomes', hreceive, hlasting⟩ := receive_of_lasting .system (payload ++ rest) h
  rw [hheader, ← message_append] at hreceive
  obtain ⟨outcomes'', hpayload, -⟩ := @receive_of_lasting _ _ _ .system rest 0 hlasting
  rw [receivePayload hsize hreceive, hpayload]

theorem ipcCommand_of_prefix {pipe : Option Connection}
    (hsize : headerSize + payload.length < 2 ^ 16)
    (h : ∀ c ∈ pipe, c.respond (request command).bytes <+: message id payload ++ rest) :
    ipcCommand pipe command = answered id payload
      ∨ ∃ error, ipcCommand pipe command = .error error ∧ error.Unanswered := by
  cases pipe with
  | none => exact .inr ⟨_, rfl, .notConnected⟩
  | some c =>
    rw [ipcCommand]
    cases send .system c.outcomes (request command).bytes with
    | error error => exact .inr ⟨_, rfl, .transfer error⟩
    | ok outcomes => exact receiveAnswer_of_prefix hsize (h c rfl)

theorem ipcCommand_of_lasting (hsize : headerSize + payload.length < 2 ^ 16)
    (h : c.respond (request command).bytes = message id payload ++ rest)
    (hlasting : Lasting c.outcomes (headerSize + (headerSize + payload.length))) :
    ipcCommand (some c) command = answered id payload := by
  have hsent : (request command).bytes.length = headerSize := length_bytes rfl
  rw [← hsent] at hlasting
  obtain ⟨outcomes, hsend, hrest⟩ := send_of_lasting .system hlasting
  rw [ipcCommand]
  rw [hsend, h]
  exact receiveAnswer_of_lasting hsize hrest

end Command

/-! ## the runtimes -/

/-- What a runtime sends for the commands: it knows `ProcessInfo2`, or it doesn't and knows
`ProcessInfo`. More may follow in a payload, and behind a message. -/
inductive Serves (info : DotNetCoreProcessInfo) (respond : Bytes → Bytes) : Prop
  | current {bytes extra rest : Bytes} (hanswer : Answer true info bytes)
    (hsize : headerSize + (bytes ++ extra).length < 2 ^ 16)
    (h : respond (request processInfo2Command).bytes = message serverOk (bytes ++ extra) ++ rest)
  | older {bytes extra rest more rest' : Bytes} {id : UInt8} (hid : id ≠ serverOk)
    (herror : headerSize + (leBytes 4 unknownCommand.toNat ++ more).length < 2 ^ 16)
    (hunknown : respond (request processInfo2Command).bytes
      = message id (leBytes 4 unknownCommand.toNat ++ more) ++ rest')
    (hanswer : Answer false info bytes)
    (hsize : headerSize + (bytes ++ extra).length < 2 ^ 16)
    (h : respond (request processInfoCommand).bytes = message serverOk (bytes ++ extra) ++ rest)

/-- The pipe is a process's. -/
def PipeOf (pid : UInt32) (pipe : WString) : Prop :=
  ∃ suffix, pipe = diagnosticsName pid ++ suffix ∧ suffix.head?.all (· = 0x2D)

theorem isDiagnosticsPipe_iff {pid : UInt32} {pipe : WString} :
    isDiagnosticsPipe pid pipe = true ↔ PipeOf pid pipe := by
  unfold isDiagnosticsPipe PipeOf
  simp only [Bool.or_eq_true, Bool.and_eq_true, beq_iff_eq, decide_eq_true_eq,
    List.isPrefixOf_iff_prefix]
  constructor
  · rintro (rfl | ⟨⟨⟨suffix, rfl⟩, -⟩, hdash⟩)
    · exact ⟨[], (List.append_nil _).symm, rfl⟩
    · rw [List.getElem?_append_right (Nat.le_refl _), Nat.sub_self, ← List.head?_eq_getElem?] at hdash
      exact ⟨suffix, rfl, by rw [hdash]; rfl⟩
  · rintro ⟨suffix, rfl, hdash⟩
    cases suffix with
    | nil => exact .inl (List.append_nil _)
    | cons c suffix =>
      refine .inr ⟨⟨List.prefix_append _ _, by simp⟩, ?_⟩
      rw [List.getElem?_append_right (Nat.le_refl _), Nat.sub_self]
      exact congrArg some (of_decide_eq_true hdash)

/-- Up to the dash stands the process's ID. -/
theorem takeWhile_decimal {n : ℕ} {suffix : WString} (h : suffix.head?.all (· = 0x2D)) :
    (decimal n ++ suffix).takeWhile (· ≠ 0x2D) = decimal n := by
  have hdigits : ∀ c ∈ decimal n, (decide (c ≠ 0x2D)) = true := by
    intro c hc
    obtain ⟨d, hd, rfl⟩ := mem_decimal hc
    have hall : ∀ d < 10, decide (digit d ≠ 0x2D) = true := by decide
    exact hall d hd
  rw [List.takeWhile_append_of_pos hdigits]
  cases suffix with
  | nil => exact List.append_nil _
  | cons c suffix =>
    have hc : c = 0x2D := of_decide_eq_true h
    rw [List.takeWhile_cons_of_neg (by simp [hc]), List.append_nil]

/-- A pipe is of one process. -/
theorem PipeOf.unique {pid pid' : UInt32} {pipe : WString} (h : PipeOf pid pipe)
    (h' : PipeOf pid' pipe) : pid = pid' := by
  obtain ⟨suffix, rfl, hdash⟩ := h
  obtain ⟨suffix', hsame, hdash'⟩ := h'
  unfold diagnosticsName at hsame
  rw [List.append_assoc, List.append_assoc] at hsame
  have hrest := List.append_cancel_left hsame
  refine UInt32.toNat_inj.mp (decimal_injective ?_)
  rw [← takeWhile_decimal hdash, hrest, takeWhile_decimal hdash']

/-! ## a query -/

/-- The connections are to runtimes that say what each process is; a connection may end early, and
its transfers may fail. -/
def AllServe (pipes : List WString) (connect : WString → UInt8 → Option Connection)
    (info : UInt32 → DotNetCoreProcessInfo) (respond : WString → Bytes → Bytes) : Prop :=
  ∀ pipe ∈ pipes, ∀ pid, PipeOf pid pipe → Serves (info pid) (respond pipe)
    ∧ ∀ command, ∀ c ∈ connect pipe command, ∀ sent, c.respond sent <+: respond pipe sent

/-- A connection on which nothing fails and nothing is cut. -/
structure Connection.Whole (c : Connection) (respond : Bytes → Bytes) : Prop where
  respond : c.respond = respond
  lasting : Lasting c.outcomes (headerSize + 2 ^ 16)

theorem parsed_answer {v2 : Bool} {info : DotNetCoreProcessInfo} {bytes : Bytes}
    (h : Answer v2 info bytes) (extra : Bytes) : (parsed (bytes ++ extra) v2).value = .ok info := by
  have hread := (parses_processInfo h).read_append extra
  rw [parsed, Reads.value_bind, parseProcessInfo, hread]
  rfl

theorem safe_parsed (payload : Bytes) (v2 : Bool) : (parsed payload v2).Safe := by
  refine (safe_bind _ _).mpr ⟨safe_read payload, ?_⟩
  split <;> exact safe_pure _

theorem safe_queryCoreProcessInfo {pipes : List WString}
    {connect : WString → UInt8 → Option Connection} {pid : UInt32} :
    (queryCoreProcessInfo pipes connect pid).Safe := by
  unfold queryCoreProcessInfo
  split
  · exact safe_pure _
  · split
    · exact safe_parsed _ _
    · split
      · exact safe_parsed _ _
      · exact safe_pure _
    · exact safe_pure _

/-- An error that says that the command isn't known. -/
theorem answered_unknown {id : UInt8} (hid : id ≠ serverOk) (more : Bytes) :
    answered id (leBytes 4 unknownCommand.toNat ++ more) = .error (.notSupported true) := by
  have hlength : (leBytes 4 unknownCommand.toNat ++ more).length ≥ 4 := by simp
  rw [answered, if_pos hid]
  simp only [if_pos hlength, u32_append]
  rfl

/-- The query where the pipe is known. -/
theorem queryCoreProcessInfo_of_pipe {pipes : List WString} {pipe : WString} {pid : UInt32}
    {connect : WString → UInt8 → Option Connection} {info : DotNetCoreProcessInfo}
    {respond : Bytes → Bytes} (hfind : findDiagnosticsPipe pipes pid = some pipe)
    (hserves : Serves info respond)
    (hcut : ∀ command, ∀ c ∈ connect pipe command, ∀ sent, c.respond sent <+: respond sent) :
    (queryCoreProcessInfo pipes connect pid).value = .ok info
      ∨ ∃ error, (queryCoreProcessInfo pipes connect pid).value = .error error
        ∧ error.Unanswered := by
  have hcommand {command id : UInt8} {payload rest : Bytes}
      (hsize : headerSize + payload.length < 2 ^ 16)
      (h : respond (request command).bytes = message id payload ++ rest) :
      ipcCommand (connect pipe command) command = answered id payload
        ∨ ∃ error, ipcCommand (connect pipe command) command = .error error ∧ error.Unanswered :=
    ipcCommand_of_prefix hsize fun c hc => h ▸ hcut command c hc _
  unfold queryCoreProcessInfo
  rw [hfind]
  dsimp only
  cases hserves with
  | current hanswer hsize h =>
    obtain hfirst | ⟨error, hfirst, hunanswered⟩ := hcommand hsize h
    · rw [hfirst]
      exact .inl (parsed_answer hanswer _)
    · rw [hfirst]
      cases hunanswered with
      | notConnected => exact .inr ⟨_, rfl, .notConnected⟩
      | transfer error => exact .inr ⟨_, rfl, .transfer error⟩
  | older hid herror hunknown hanswer hsize h =>
    obtain hfirst | ⟨error, hfirst, hunanswered⟩ := hcommand herror hunknown
    · rw [hfirst, answered_unknown hid]
      obtain hsecond | ⟨error, hsecond, hunanswered⟩ := hcommand hsize h
      · rw [hsecond]
        exact .inl (parsed_answer hanswer _)
      · rw [hsecond]
        exact .inr ⟨error, rfl, hunanswered⟩
    · rw [hfirst]
      cases hunanswered with
      | notConnected => exact .inr ⟨_, rfl, .notConnected⟩
      | transfer error => exact .inr ⟨_, rfl, .transfer error⟩

theorem queryCoreProcessInfo_of_whole {pipes : List WString} {pipe : WString} {pid : UInt32}
    {connect : WString → UInt8 → Option Connection} {info : DotNetCoreProcessInfo}
    {respond : Bytes → Bytes} (hfind : findDiagnosticsPipe pipes pid = some pipe)
    (hserves : Serves info respond)
    (hwhole : ∀ command, ∃ c ∈ connect pipe command, c.Whole respond) :
    (queryCoreProcessInfo pipes connect pid).value = .ok info := by
  have hcommand {command id : UInt8} {payload rest : Bytes}
      (hsize : headerSize + payload.length < 2 ^ 16)
      (h : respond (request command).bytes = message id payload ++ rest) :
      ipcCommand (connect pipe command) command = answered id payload := by
    obtain ⟨c, hc, hrespond, hlasting⟩ := hwhole command
    rw [hc]
    exact ipcCommand_of_lasting hsize (hrespond ▸ h) (hlasting.mono (by omega))
  unfold queryCoreProcessInfo
  rw [hfind]
  dsimp only
  cases hserves with
  | current hanswer hsize h =>
    rw [hcommand hsize h]
    exact parsed_answer hanswer _
  | older hid herror hunknown hanswer hsize h =>
    rw [hcommand herror hunknown, answered_unknown hid]
    dsimp only
    rw [hcommand hsize h]
    exact parsed_answer hanswer _

/-- **A query gives what the process's runtime says, or nothing**: never another process's, and never
a part of an answer, whatever becomes of the connections and in whatever pieces the messages come.
Where nothing fails, it gives it, from an older runtime too. -/
theorem queryCoreProcessInfo_serves {pipes : List WString}
    {connect : WString → UInt8 → Option Connection} {info : UInt32 → DotNetCoreProcessInfo}
    {respond : WString → Bytes → Bytes} (h : AllServe pipes connect info respond) (pid : UInt32) :
    (queryCoreProcessInfo pipes connect pid).Safe
      ∧ ((queryCoreProcessInfo pipes connect pid).value = .ok (info pid)
        ∨ ((queryCoreProcessInfo pipes connect pid).value = .error .fileNotFound
          ∧ ∀ pipe ∈ pipes, ¬PipeOf pid pipe)
        ∨ ∃ error, (queryCoreProcessInfo pipes connect pid).value = .error error
          ∧ error.Unanswered)
      ∧ ((∃ pipe ∈ pipes, PipeOf pid pipe) →
        (∀ pipe ∈ pipes, PipeOf pid pipe → ∀ command, ∃ c ∈ connect pipe command,
          c.Whole (respond pipe)) →
        (queryCoreProcessInfo pipes connect pid).value = .ok (info pid)) := by
  refine ⟨safe_queryCoreProcessInfo, ?_, ?_⟩
  · cases hfind : findDiagnosticsPipe pipes pid with
    | none =>
      refine .inr (.inl ⟨by rw [queryCoreProcessInfo, hfind]; rfl, fun pipe hpipe hof => ?_⟩)
      exact List.find?_eq_none.mp hfind pipe hpipe (isDiagnosticsPipe_iff.mpr hof)
    | some pipe =>
      have hof := isDiagnosticsPipe_iff.mp (List.find?_some hfind)
      obtain ⟨hserves, hcut⟩ := h pipe (List.mem_of_find?_eq_some hfind) pid hof
      exact (queryCoreProcessInfo_of_pipe hfind hserves hcut).imp_right .inr
  · rintro ⟨pipe, hpipe, hof⟩ hwhole
    cases hfind : findDiagnosticsPipe pipes pid with
    | none => exact absurd (isDiagnosticsPipe_iff.mpr hof) (List.find?_eq_none.mp hfind pipe hpipe)
    | some found =>
      have hmem := List.mem_of_find?_eq_some hfind
      have hof := isDiagnosticsPipe_iff.mp (List.find?_some hfind)
      exact queryCoreProcessInfo_of_whole hfind (h found hmem pid hof).1 (hwhole found hmem hof)

/-! An older runtime of process 7, on connections that transfer a byte at a time. -/

def olderInfo : DotNetCoreProcessInfo where
  processId := 7
  runtimeCookie := .replicate 16 1
  commandLine := wide "a"
  os := []
  architecture := []

def olderBytes : Bytes :=
  leBytes 8 7 ++ ((Vector.replicate 16 1).toList ++ ((leBytes 4 2 ++ zString (wide "a")) ++
    (leBytes 4 0 ++ (leBytes 4 0 ++ ([] ++ [])))))

def olderRespond (sent : Bytes) : Bytes :=
  if (IpcHeader.ofBytes sent).commandId = processInfoCommand then message serverOk olderBytes
  else message 0xFF (leBytes 4 unknownCommand.toNat)

def byteAtATime (_ : WString) (_ : UInt8) : Option Connection :=
  some ⟨List.replicate (headerSize + 2 ^ 16) (.transferred 1), olderRespond⟩

theorem serves_olderRespond : Serves olderInfo olderRespond := by
  have hanswer : Answer false olderInfo olderBytes :=
    .intro (.text (by decide) (by decide)) .empty .empty .v1 .v1
  refine @Serves.older _ _ olderBytes [] [] [] [] 0xFF (by decide) (by decide) ?_ hanswer
    (by decide) ?_
  · decide
  · decide

theorem queryCoreProcessInfo_serves_older :
    (queryCoreProcessInfo [diagnosticsName 7] byteAtATime 7).value = .ok olderInfo := by
  have hlasting : @Lasting TransferError
      (List.replicate (headerSize + 2 ^ 16) (.transferred 1)) (headerSize + 2 ^ 16) :=
    ⟨fun o ho => ⟨1, List.eq_of_mem_replicate ho, by decide⟩, by rw [List.length_replicate]⟩
  have hof : PipeOf 7 (diagnosticsName 7) := ⟨[], (List.append_nil _).symm, rfl⟩
  have hserve : AllServe [diagnosticsName 7] byteAtATime (fun _ => olderInfo)
      fun _ => olderRespond := fun _ _ _ _ => ⟨serves_olderRespond, fun _ c hc _ => by
    cases hc
    exact List.prefix_rfl⟩
  exact (queryCoreProcessInfo_serves hserve 7).2.2 ⟨_, List.mem_singleton_self _, hof⟩
    fun _ _ _ _ => ⟨_, rfl, rfl, hlasting⟩

end WinSys.DotNet
