import WinSys.Infra.Attempts
import WinSys.Infra.Chain
import WinSys.Infra.Gather
import WinSys.Infra.Layout
import WinSys.Infra.Wide

/-!
# The ETW sessions and their providers

`EtwSessions::Enum` asks for the running sessions, and for every registered provider which sessions
enabled which instances of it; what it finds goes into the sessions by logger ID.

* `readInstances`, `TraceInfo.read`: the instances of a provider are read
* `getElem?_addEvents`: what goes into which session
* `Joined`: the providers of a session
* `enum_sessions`
-/

namespace WinSys.Etw

open Infra Reads

/-! ## the source -/

abbrev GUID := Vector UInt8 16

/-- `TRACE_ENABLE_INFO` -/
structure EnableInfo where
  isEnabled : UInt32
  level : UInt8
  reserved1 : UInt8
  loggerId : UInt16
  enableProperty : UInt32
  reserved2 : UInt32
  matchAnyKeyword : UInt64
  matchAllKeyword : UInt64
deriving DecidableEq, Repr

namespace EnableInfo

def size : ℕ := 32

def read (bs : Bytes) : EnableInfo where
  isEnabled := u32At bs 0
  level := u8At bs 4
  reserved1 := u8At bs 5
  loggerId := u16At bs 6
  enableProperty := u32At bs 8
  reserved2 := u32At bs 12
  matchAnyKeyword := u64At bs 16
  matchAllKeyword := u64At bs 24

/-- An array of so many. -/
def readArray : ℕ → Bytes → List EnableInfo
  | 0, _ => []
  | count + 1, bs => read (bs.take size) :: readArray count (bs.drop size)

end EnableInfo

/-- `TRACE_PROVIDER_INSTANCE_INFO`, with the `TRACE_ENABLE_INFO`s behind it. -/
structure InstanceInfo where
  pid : UInt32
  flags : UInt32
  enables : List EnableInfo
deriving DecidableEq, Repr

/-- A turn at an instance; its `NextOffset` is 0 if it is the last. -/
def instanceTurn (buffer : Bytes) (p : ℕ) : Reads (Hop InstanceInfo) := do
  let header ← raw buffer p 16
  let count := (u32At header 4).toNat
  let enables ← raw buffer (p + 16) (count * EnableInfo.size)
  let info : InstanceInfo :=
    { pid := u32At header 8, flags := u32At header 12, enables := EnableInfo.readArray count enables }
  if u32At header 0 = 0 then return .last info
  else return .on info (p + (u32At header 0).toNat)

/-- The instances in a `TRACE_GUID_INFO`. -/
def readInstances (buffer : Bytes) : Reads (List InstanceInfo) := do
  let info ← raw buffer 0 8
  walk (instanceTurn buffer) (u32At info 0).toNat 8

structure EtwSessionProvider where
  id : GUID
  name : WString
  level : UInt8
  matchAnyKeyword : UInt64
  matchAllKeyword : UInt64
  pids : List UInt32
deriving DecidableEq, Repr

/-- The properties of a session that `Enum` reads, with the names behind them. -/
structure Properties where
  historicalContext : UInt64
  loggerName : WString
  logFileName : WString
  logFileMode : UInt32
  bufferSize : UInt32
  numberOfBuffers : UInt32
  freeBuffers : UInt32
  minimumBuffers : UInt32
  maximumBuffers : UInt32
  eventsLost : UInt32
  buffersWritten : UInt32
  logBuffersLost : UInt32
  realTimeBuffersLost : UInt32
  flushTimer : UInt32
  enableFlags : UInt32
deriving DecidableEq, Repr

structure EtwSession where
  loggerId : UInt32
  name : WString
  logFile : WString
  logFileMode : UInt32
  mode : WString
  bufferSizeKB : UInt32
  buffers : UInt32
  freeBuffers : UInt32
  minimumBuffers : UInt32
  maximumBuffers : UInt32
  eventsLost : UInt32
  buffersWritten : UInt32
  logBuffersLost : UInt32
  realTimeBuffersLost : UInt32
  flushTimer : UInt32
  enableFlags : UInt32
  providers : List EtwSessionProvider
deriving DecidableEq, Repr

/-- The parts of `ModeText`: of the flags of a group the first that is set. -/
def modeParts : List (List (UInt32 × WString)) :=
  [[(0x100, wide "Real time")],
    [(0x2, wide "File (circular)"), (0x1, wide "File (sequential)")],
    [(0x8, wide "New file")],
    [(0x4, wide "Append")],
    [(0x400, wide "Buffering")],
    [(0x800, wide "Private")],
    [(0x2000000, wide "System logger")],
    [(0x8000000, wide "Independent")]]

def modeText (mode : UInt32) : WString :=
  (wide ", ").intercalate
    (modeParts.filterMap fun group => (group.find? fun part => mode &&& part.1 ≠ 0).map Prod.snd)

def Properties.toSession (p : Properties) : EtwSession where
  loggerId := (p.historicalContext &&& 0xFFFF).toUInt32
  name := p.loggerName
  logFile := p.logFileName
  logFileMode := p.logFileMode
  mode := modeText p.logFileMode
  bufferSizeKB := p.bufferSize
  buffers := p.numberOfBuffers
  freeBuffers := p.freeBuffers
  minimumBuffers := p.minimumBuffers
  maximumBuffers := p.maximumBuffers
  eventsLost := p.eventsLost
  buffersWritten := p.buffersWritten
  logBuffersLost := p.logBuffersLost
  realTimeBuffersLost := p.realTimeBuffersLost
  flushTimer := p.flushTimer
  enableFlags := p.enableFlags
  providers := []

/-- What answers `Enum`: each query by the number of the call and the room it has. -/
structure System where
  queryAllTraces : ℕ → UInt32 → Tried (List Properties)
  traceGuids : ℕ → UInt32 → Tried (List GUID)
  traceGuidInfo : GUID → ℕ → UInt32 → Tried Bytes
  providers : ℕ → UInt32 → Tried (List (GUID × WString))

/-- How the room grows. -/
def larger (size needed : UInt32) : UInt32 := if needed > size then needed else size * 2

/-- `ProviderNames`: of several with a GUID, the first counts. -/
def System.providerNames (system : System) : List (GUID × WString) :=
  match system.providers 0 0 with
  | .more size =>
    match attempts system.providers (fun _ needed => needed) 3 1 size with
    | .done names => names
    | _ => []
  | _ => []

/-- An instance of a provider is enabled. -/
structure Enabled where
  guid : GUID
  pid : UInt32
  enable : EnableInfo
deriving DecidableEq, Repr

def Enabled.loggerId (e : Enabled) : UInt32 := e.enable.loggerId.toUInt32

section AddProvider

variable (names : List (GUID × WString))

/-- A provider that is new in a session. -/
def newProvider (e : Enabled) : EtwSessionProvider where
  id := e.guid
  name := ((names.find? (·.1 == e.guid)).map Prod.snd).getD []
  level := e.enable.level
  matchAnyKeyword := e.enable.matchAnyKeyword
  matchAllKeyword := e.enable.matchAllKeyword
  pids := []

def EtwSessionProvider.addPid (p : EtwSessionProvider) (e : Enabled) : EtwSessionProvider :=
  { p with pids := if p.pids.contains e.pid then p.pids else p.pids ++ [e.pid] }

def EtwSession.enable (s : EtwSession) (e : Enabled) : EtwSession :=
  { s with
    providers := gatherOne EtwSessionProvider.id Enabled.guid (newProvider names)
      EtwSessionProvider.addPid e s.providers }

/-- The loop over the sessions, which ends at the first with the logger ID. -/
def enableIn (e : Enabled) : List EtwSession → List EtwSession
  | [] => []
  | s :: rest =>
    if s.loggerId ≠ e.loggerId then s :: enableIn e rest else s.enable names e :: rest

def addInstance (guid : GUID) (sessions : List EtwSession) (info : InstanceInfo) : List EtwSession :=
  info.enables.foldl (fun sessions enable =>
    if enable.isEnabled = 0 then sessions else enableIn names ⟨guid, info.pid, enable⟩ sessions)
    sessions

/-- `AddProvider` -/
def System.addProvider (system : System) (sessions : List EtwSession) (guid : GUID) :
    Reads (List EtwSession) :=
  match attempts (system.traceGuidInfo guid) larger 4 0 1024 with
  | .done buffer => do return (← readInstances buffer).foldl (addInstance names guid) sessions
  | _ => pure sessions

end AddProvider

/-- The registered providers; none if they can't be listed. -/
def System.guids (system : System) : List GUID :=
  match system.traceGuids 0 0 with
  | .more size =>
    if size = 0 then []
    else
      match system.traceGuids 1 ((size / 16 + 16) * 16) with
      | .done guids => guids
      | _ => []
  | _ => []

def errorMoreData : UInt32 := 234

/-- `EtwSessions::Enum` -/
def System.enum (system : System) : Reads (Except UInt32 (List EtwSession)) :=
  match attempts system.queryAllTraces larger 3 0 64 with
  | .done traces => do
    let sessions ← system.guids.foldlM (system.addProvider system.providerNames)
      (traces.map Properties.toSession)
    return .ok sessions
  | .more _ => pure (.error errorMoreData)
  | .failed error => pure (.error error)

/-! ## the instances of a provider -/

def EnableInfo.bytes (e : EnableInfo) : Bytes :=
  leBytes 4 e.isEnabled.toNat ++ ([e.level] ++ ([e.reserved1] ++ (leBytes 2 e.loggerId.toNat
    ++ (leBytes 4 e.enableProperty.toNat ++ (leBytes 4 e.reserved2.toNat
    ++ (leBytes 8 e.matchAnyKeyword.toNat ++ leBytes 8 e.matchAllKeyword.toNat))))))

@[simp]
theorem EnableInfo.length_bytes (e : EnableInfo) : e.bytes.length = EnableInfo.size := by
  simp [EnableInfo.bytes, EnableInfo.size]

theorem EnableInfo.read_bytes (e : EnableInfo) : EnableInfo.read e.bytes = e := by
  have h : HoldsAt e.bytes 0 e.bytes := List.prefix_rfl
  have hlevel : HoldsAt e.bytes 4 _ := h.right
  have hreserved1 : HoldsAt e.bytes 5 _ := hlevel.right
  have hloggerId : HoldsAt e.bytes 6 _ := hreserved1.right
  have hproperty : HoldsAt e.bytes 8 _ := hloggerId.right
  have hreserved2 : HoldsAt e.bytes 12 _ := hproperty.right
  have hany : HoldsAt e.bytes 16 _ := hreserved2.right
  have hall : HoldsAt e.bytes 24 _ := hany.right
  have hisEnabled := UInt32.toNat_inj.mp (h.left.u32At e.isEnabled.toNat_lt)
  have hloggerId := UInt16.toNat_inj.mp (hloggerId.left.u16At e.loggerId.toNat_lt)
  have hproperty := UInt32.toNat_inj.mp (hproperty.left.u32At e.enableProperty.toNat_lt)
  have hreserved2 := UInt32.toNat_inj.mp (hreserved2.left.u32At e.reserved2.toNat_lt)
  have hany := UInt64.toNat_inj.mp (hany.left.u64At e.matchAnyKeyword.toNat_lt)
  have hall := UInt64.toNat_inj.mp (hall.u64At e.matchAllKeyword.toNat_lt)
  rw [EnableInfo.read, hisEnabled, hlevel.left.u8At, hreserved1.left.u8At, hloggerId, hproperty,
    hreserved2, hany, hall]

theorem EnableInfo.readArray_bytes (enables : List EnableInfo) :
    EnableInfo.readArray enables.length (enables.flatMap EnableInfo.bytes) = enables := by
  induction enables with
  | nil => rfl
  | cons e enables ih =>
    rw [List.length_cons, List.flatMap_cons, EnableInfo.readArray, ← EnableInfo.length_bytes e,
      List.take_left, List.drop_left, EnableInfo.read_bytes, ih]

/-- The fields of an instance that are before its array. -/
def InstanceInfo.header (info : InstanceInfo) (link : ℕ) : Bytes :=
  leBytes 4 link ++ (leBytes 4 info.enables.length
    ++ (leBytes 4 info.pid.toNat ++ leBytes 4 info.flags.toNat))

/-- The layout of an instance, with the place of the next one if there is one. -/
structure InstanceInfo.At (buffer : Bytes) (p : ℕ) (info : InstanceInfo) (next : Option ℕ) : Prop where
  count_lt : info.enables.length < 2 ^ 32
  holds : ∃ link < 2 ^ 32, next = (if link = 0 then none else some (p + link))
    ∧ HoldsAt buffer p (info.header link ++ info.enables.flatMap EnableInfo.bytes)

theorem length_flatMap_bytes (enables : List EnableInfo) :
    (enables.flatMap EnableInfo.bytes).length = enables.length * EnableInfo.size := by
  simp [List.length_flatMap, Nat.mul_comm]

/-- A turn at an instance that is there. -/
theorem InstanceInfo.At.turn {buffer : Bytes} {p : ℕ} {info : InstanceInfo} {next : Option ℕ}
    (h : info.At buffer p next) :
    (instanceTurn buffer p).Safe ∧ (instanceTurn buffer p).value = .add info next := by
  obtain ⟨link, hlink, rfl, hholds⟩ := h.holds
  have hlength : (info.header link).length = 16 := by simp [InstanceInfo.header]
  have hinside := hholds.add_length_le (by simp [InstanceInfo.header, leBytes])
  rw [List.length_append, length_flatMap_bytes, hlength] at hinside
  have hheader := hholds.left.take_eq
  have henables := hholds.right.take_eq
  rw [length_flatMap_bytes, hlength] at henables
  rw [hlength] at hheader
  have hself : HoldsAt (info.header link) 0 (info.header link) := List.prefix_rfl
  have hcount : (u32At (info.header link) 4).toNat = info.enables.length :=
    hself.right.left.u32At h.count_lt
  have hpid : u32At (info.header link) 8 = info.pid :=
    UInt32.toNat_inj.mp (hself.right.right.left.u32At info.pid.toNat_lt)
  have hflags : u32At (info.header link) 12 = info.flags :=
    UInt32.toNat_inj.mp (hself.right.right.right.u32At info.flags.toNat_lt)
  have hnext : (u32At (info.header link) 0).toNat = link := hself.left.u32At hlink
  have hzero : u32At (info.header link) 0 = 0 ↔ link = 0 := by
    rw [← UInt32.toNat_inj, hnext]
    rfl
  rw [instanceTurn]
  constructor
  · rw [safe_bind, safe_raw, value_raw, hheader, hcount, safe_bind, safe_raw]
    refine ⟨by omega, by omega, ?_⟩
    split <;> exact safe_pure _
  · rw [value_bind, value_raw, hheader, hcount, value_bind, value_raw, henables,
      EnableInfo.readArray_bytes, hpid, hflags]
    by_cases hlast : link = 0
    · rw [if_pos (hzero.mpr hlast), if_pos hlast]
      rfl
    · rw [if_neg (mt hzero.mp hlast), if_neg hlast, hnext]
      rfl

/-- The instances of a provider, as a `TRACE_GUID_INFO` has them. -/
structure TraceInfo (buffer : Bytes) (instances : List InstanceInfo) : Prop where
  count_lt : instances.length < 2 ^ 32
  header : ∃ reserved, HoldsAt buffer 0 (leBytes 4 instances.length ++ leBytes 4 reserved)
  chain : instances = [] ∨ Chain (fun p info next => info.At buffer p next) (fun _ => False) 8 instances

/-- **The instances of a provider are read**, all in the buffer. -/
theorem TraceInfo.read {buffer : Bytes} {instances : List InstanceInfo}
    (h : TraceInfo buffer instances) :
    (readInstances buffer).Safe ∧ (readInstances buffer).value = instances := by
  obtain ⟨reserved, hheader⟩ := h.header
  have hinside := hheader.add_length_le (by simp [leBytes])
  have hlength : (leBytes 4 instances.length ++ leBytes 4 reserved).length = 8 := by simp
  have htake := hheader.take_eq
  rw [hlength] at hinside htake
  have hcount : (u32At ((buffer.drop 0).take 8) 0).toNat = instances.length := by
    rw [htake]
    exact toNat_u32At_append h.count_lt _
  rw [readInstances, safe_bind, safe_raw, value_raw, value_bind, value_raw, hcount]
  obtain hnone | hchain := h.chain
  · rw [hnone]
    exact ⟨⟨hinside, safe_pure _⟩, rfl⟩
  · refine ⟨⟨hinside, hchain.safe_walk (fun p info next hat => ?_) (fun _ h => h.elim) _⟩, ?_⟩
    · exact ⟨hat.turn.1, info, hat.turn.2⟩
    · have hleads := hchain.leads (f := id) (fun p info next hat => hat.turn.2) fun _ h => h.elim
      rw [List.map_id] at hleads
      exact hleads.value_walk (Nat.le_refl _)

/-! ## what goes into which session -/

section Join

variable {names : List (GUID × WString)} {guids : List GUID} {instances : GUID → List InstanceInfo}

/-- The instances of providers that are enabled, in the order they are come to. -/
def enabledIn (guid : GUID) (info : InstanceInfo) : List Enabled :=
  (info.enables.filter (·.isEnabled ≠ 0)).map fun enable => ⟨guid, info.pid, enable⟩

def enabledOf (guid : GUID) (instances : List InstanceInfo) : List Enabled :=
  instances.flatMap (enabledIn guid)

def allEnabled (guids : List GUID) (instances : GUID → List InstanceInfo) : List Enabled :=
  guids.flatMap fun guid => enabledOf guid (instances guid)

/-- What comes goes into the sessions. -/
def addEvents (names : List (GUID × WString)) (events : List Enabled) (sessions : List EtwSession) :
    List EtwSession :=
  events.foldl (fun sessions e => enableIn names e sessions) sessions

theorem addInstance_eq (guid : GUID) (info : InstanceInfo) (sessions : List EtwSession) :
    addInstance names guid sessions info = addEvents names (enabledIn guid info) sessions := by
  unfold addInstance addEvents enabledIn
  rw [List.foldl_map, List.foldl_filter]
  refine congrArg (fun f => List.foldl f sessions info.enables) (funext₂ fun sessions enable => ?_)
  by_cases h : enable.isEnabled = 0 <;> simp [h]

theorem addInstances_eq (guid : GUID) (infos : List InstanceInfo) (sessions : List EtwSession) :
    infos.foldl (addInstance names guid) sessions
      = addEvents names (enabledOf guid infos) sessions := by
  rw [addEvents, enabledOf, List.foldl_flatMap]
  exact congrArg (fun f => List.foldl f sessions infos)
    (funext₂ fun sessions info => addInstance_eq guid info sessions)

@[simp]
theorem loggerId_enable (s : EtwSession) (e : Enabled) : (s.enable names e).loggerId = s.loggerId := rfl

/-- The first session takes what is its; the others are left the rest. -/
theorem addEvents_cons (events : List Enabled) (s : EtwSession) (rest : List EtwSession) :
    addEvents names events (s :: rest)
      = (events.filter (s.loggerId = ·.loggerId)).foldl (EtwSession.enable names) s
        :: addEvents names (events.filter (s.loggerId ≠ ·.loggerId)) rest := by
  induction events generalizing s rest with
  | nil => rfl
  | cons e events ih =>
    rw [addEvents, List.foldl_cons, ← addEvents, enableIn]
    by_cases h : s.loggerId = e.loggerId
    · rw [if_neg (not_not.mpr h), ih, loggerId_enable, List.filter_cons_of_pos (by simpa using h),
        List.filter_cons_of_neg (by simpa using h), List.foldl_cons]
    · rw [if_pos h, ih, List.filter_cons_of_neg (by simpa using h),
        List.filter_cons_of_pos (by simpa using h)]
      rfl

/-- What goes into a session: what has its ID, unless an earlier session has it. -/
def share (before : List EtwSession) (s : EtwSession) (events : List Enabled) : List Enabled :=
  events.filter fun e => s.loggerId = e.loggerId ∧ ∀ b ∈ before, b.loggerId ≠ e.loggerId

theorem addEvents_append (events : List Enabled) (before : List EtwSession) (s : EtwSession)
    (after : List EtwSession) :
    (addEvents names events (before ++ s :: after))[before.length]?
      = some ((share before s events).foldl (EtwSession.enable names) s) := by
  induction before generalizing events with
  | nil =>
    rw [List.nil_append, addEvents_cons]
    simp [share]
  | cons b before ih =>
    rw [List.cons_append, addEvents_cons, List.length_cons, List.getElem?_cons_succ, ih, share,
      List.filter_filter]
    refine congrArg (fun l => some (l.foldl (EtwSession.enable names) s))
      (List.filter_congr fun e _ => ?_)
    rw [Bool.eq_iff_iff]
    simp only [Bool.and_eq_true, decide_eq_true_eq, List.forall_mem_cons]
    tauto

theorem length_addEvents (events : List Enabled) (sessions : List EtwSession) :
    (addEvents names events sessions).length = sessions.length := by
  induction sessions generalizing events with
  | nil =>
    induction events with
    | nil => rfl
    | cons e events ih => exact ih
  | cons s rest ih => rw [addEvents_cons, List.length_cons, List.length_cons, ih]

/-- What is added to a session goes to its providers. -/
theorem foldl_enable (events : List Enabled) (s : EtwSession) (hs : s.providers = []) :
    events.foldl (EtwSession.enable names) s
      = { s with
          providers := gather EtwSessionProvider.id Enabled.guid (newProvider names)
            EtwSessionProvider.addPid events } := by
  induction events using List.reverseRecOn with
  | nil => rw [gather, List.foldl_nil, List.foldl_nil, ← hs]
  | append_singleton events e ih =>
    rw [List.foldl_append, ih, gather_concat]
    rfl

/-- A provider is what its first instance says, with the processes of all of them. -/
theorem gathered_eq (events : List Enabled) :
    gathered (newProvider names) EtwSessionProvider.addPid events
      = events.head?.map fun e =>
        { newProvider names e with pids := (events.map Enabled.pid).eraseDups } := by
  induction events using List.reverseRecOn with
  | nil => rfl
  | append_singleton events e ih =>
    rw [gathered_concat, ih, List.map_append, List.map_singleton, eraseDups_concat]
    cases events with
    | nil => rfl
    | cons first events =>
      rw [List.head?_cons, List.cons_append, List.head?_cons, Option.map_some, Option.map_some,
        Option.getD_some, EtwSessionProvider.addPid]
      have hcontains : ((first :: events).map Enabled.pid).eraseDups.contains e.pid
          = ((first :: events).map Enabled.pid).contains e.pid := by
        rw [Bool.eq_iff_iff, List.contains_iff_mem, List.contains_iff_mem, List.mem_eraseDups]
      simp only [hcontains]

theorem keepsKeys : KeepsKeys EtwSessionProvider.id Enabled.guid (newProvider names)
    EtwSessionProvider.addPid where
  make _ := rfl
  add _ _ := rfl

/-- What a session enables of a provider's instances. -/
def enablesOf (infos : List InstanceInfo) (loggerId : UInt32) : List EnableInfo :=
  infos.flatMap fun info =>
    info.enables.filter fun e => e.isEnabled ≠ 0 ∧ e.loggerId.toUInt32 = loggerId

/-- **The providers of a session**: those of which it enabled an instance, each once, with the
processes of these instances, each once, and with the level and the keywords of the first. -/
structure Joined (names : List (GUID × WString)) (guids : List GUID)
    (instances : GUID → List InstanceInfo) (s : EtwSession) : Prop where
  once : (s.providers.map EtwSessionProvider.id).Nodup
  pids_once : ∀ p ∈ s.providers, p.pids.Nodup
  pids : ∀ guid pid, (∃ p ∈ s.providers, p.id = guid ∧ pid ∈ p.pids) ↔
    guid ∈ guids ∧ ∃ info ∈ instances guid, info.pid = pid ∧ ∃ enable ∈ info.enables,
      enable.isEnabled ≠ 0 ∧ enable.loggerId.toUInt32 = s.loggerId
  settings : ∀ p ∈ s.providers, ∃ enable,
    (enablesOf (instances p.id) s.loggerId).head? = some enable ∧ p.level = enable.level
      ∧ p.matchAnyKeyword = enable.matchAnyKeyword ∧ p.matchAllKeyword = enable.matchAllKeyword
  name : ∀ p ∈ s.providers, p.name = ((names.find? (·.1 == p.id)).map Prod.snd).getD []

theorem mem_enabledOf {guid : GUID} {infos : List InstanceInfo} {e : Enabled} :
    e ∈ enabledOf guid infos ↔ e.guid = guid ∧ ∃ info ∈ infos, info.pid = e.pid
      ∧ e.enable ∈ info.enables ∧ e.enable.isEnabled ≠ 0 := by
  obtain ⟨guid', pid, enable⟩ := e
  simp only [enabledOf, enabledIn, List.mem_flatMap, List.mem_map, List.mem_filter,
    decide_eq_true_eq, Enabled.mk.injEq]
  constructor
  · rintro ⟨info, hinfo, enable', ⟨henable, hset⟩, rfl, rfl, rfl⟩
    exact ⟨rfl, info, hinfo, rfl, henable, hset⟩
  · rintro ⟨rfl, info, hinfo, rfl, henable, hset⟩
    exact ⟨info, hinfo, enable, ⟨henable, hset⟩, rfl, rfl, rfl⟩

theorem mem_allEnabled {e : Enabled} :
    e ∈ allEnabled guids instances ↔ e.guid ∈ guids ∧ ∃ info ∈ instances e.guid, info.pid = e.pid
      ∧ e.enable ∈ info.enables ∧ e.enable.isEnabled ≠ 0 := by
  rw [allEnabled, List.mem_flatMap]
  constructor
  · rintro ⟨guid, hguid, he⟩
    obtain ⟨rfl, hinfo⟩ := mem_enabledOf.mp he
    exact ⟨hguid, hinfo⟩
  · rintro ⟨hguid, hinfo⟩
    exact ⟨e.guid, hguid, mem_enabledOf.mpr ⟨rfl, hinfo⟩⟩

theorem enablesOf_eq (guid : GUID) (infos : List InstanceInfo) (loggerId : UInt32) :
    ((enabledOf guid infos).filter (loggerId = ·.loggerId)).map Enabled.enable
      = enablesOf infos loggerId := by
  induction infos with
  | nil => rfl
  | cons info infos ih =>
    have hrest : enablesOf (info :: infos) loggerId
        = info.enables.filter (fun e => e.isEnabled ≠ 0 ∧ e.loggerId.toUInt32 = loggerId)
          ++ enablesOf infos loggerId := List.flatMap_cons
    rw [hrest, enabledOf, List.flatMap_cons, List.filter_append, List.map_append, ← enabledOf, ih,
      enabledIn, List.filter_map, List.map_map, List.filter_filter]
    refine congrArg (· ++ _) ?_
    rw [Function.comp_def, List.map_id']
    refine List.filter_congr fun e _ => ?_
    rw [Bool.eq_iff_iff]
    rw [Bool.and_eq_true, decide_eq_true_iff, decide_eq_true_iff]
    constructor
    · exact fun h => ⟨h.2, (of_decide_eq_true h.1).symm⟩
    · exact fun h => ⟨decide_eq_true h.2.symm, h.1⟩

/-- The first of a provider's, though the provider be listed again. -/
theorem head?_cameFor {guid : GUID} {loggerId : UInt32} {e : Enabled}
    (h : (cameFor Enabled.guid guid
      ((allEnabled guids instances).filter (loggerId = ·.loggerId))).head? = some e) :
    (enablesOf (instances guid) loggerId).head? = some e.enable := by
  rw [← enablesOf_eq guid, List.head?_map]
  induction guids with
  | nil => cases h
  | cons guid' guids ih =>
    rw [allEnabled, List.flatMap_cons, ← allEnabled, List.filter_append, cameFor, List.filter_append,
      ← cameFor, ← cameFor, List.head?_append] at h
    by_cases hguid : guid' = guid
    · have hsame : cameFor Enabled.guid guid
          ((enabledOf guid' (instances guid')).filter (loggerId = ·.loggerId))
          = (enabledOf guid (instances guid)).filter (loggerId = ·.loggerId) := by
        subst hguid
        refine List.filter_eq_self.mpr fun e he => decide_eq_true ?_
        exact (mem_enabledOf.mp (List.mem_of_mem_filter he)).1
      rw [hsame] at h
      cases hhead : ((enabledOf guid (instances guid)).filter (loggerId = ·.loggerId)).head? with
      | none =>
        rw [hhead, Option.none_or] at h
        rw [← hhead]
        exact ih h
      | some first =>
        rw [hhead, Option.some_or] at h
        exact congrArg (Option.map Enabled.enable) h
    · have hnone : cameFor Enabled.guid guid
          ((enabledOf guid' (instances guid')).filter (loggerId = ·.loggerId)) = [] := by
        refine List.filter_eq_nil_iff.mpr fun e he hkey => hguid ?_
        have hsame := (mem_enabledOf.mp (List.mem_of_mem_filter he)).1
        rw [← hsame, of_decide_eq_true hkey]
      rw [hnone, List.head?_nil, Option.none_or] at h
      exact ih h

/-- What goes into a session whose ID no earlier one has. -/
theorem joined_gather (s : EtwSession) :
    Joined names guids instances
      { s with
        providers := gather EtwSessionProvider.id Enabled.guid (newProvider names)
          EtwSessionProvider.addPid
          ((allEnabled guids instances).filter (s.loggerId = ·.loggerId)) } := by
  set events := (allEnabled guids instances).filter (s.loggerId = ·.loggerId) with hevents
  have hgathered {p : EtwSessionProvider} (hp : p ∈ gather EtwSessionProvider.id Enabled.guid
      (newProvider names) EtwSessionProvider.addPid events) :
      ∃ e, (cameFor Enabled.guid p.id events).head? = some e
        ∧ { newProvider names e with
            pids := ((cameFor Enabled.guid p.id events).map Enabled.pid).eraseDups } = p := by
    have hp := gathered_of_mem keepsKeys hp
    rw [gathered_eq] at hp
    exact Option.map_eq_some_iff.mp hp
  have hpids {p : EtwSessionProvider} (hp : p ∈ gather EtwSessionProvider.id Enabled.guid
      (newProvider names) EtwSessionProvider.addPid events) :
      p.pids = ((cameFor Enabled.guid p.id events).map Enabled.pid).eraseDups := by
    obtain ⟨e, -, hp⟩ := hgathered hp
    exact congrArg EtwSessionProvider.pids hp.symm
  have hmem {guid : GUID} {pid : UInt32} : (∃ e ∈ events, e.guid = guid ∧ e.pid = pid) ↔
      guid ∈ guids ∧ ∃ info ∈ instances guid, info.pid = pid ∧ ∃ enable ∈ info.enables,
        enable.isEnabled ≠ 0 ∧ enable.loggerId.toUInt32 = s.loggerId := by
    simp only [hevents, List.mem_filter, mem_allEnabled, decide_eq_true_eq]
    constructor
    · rintro ⟨e, ⟨⟨hguid, info, hinfo, hpid, henable, hset⟩, hlogger⟩, rfl, rfl⟩
      exact ⟨hguid, info, hinfo, hpid, e.enable, henable, hset, hlogger.symm⟩
    · rintro ⟨hguid, info, hinfo, rfl, enable, henable, hset, hlogger⟩
      exact ⟨⟨guid, info.pid, enable⟩, ⟨⟨hguid, info, hinfo, rfl, henable, hset⟩, hlogger.symm⟩,
        rfl, rfl⟩
  constructor
  · exact nodup_keys_gather keepsKeys events
  · intro p hp
    rw [hpids hp]
    exact nodup_eraseDups _
  · intro guid pid
    rw [← hmem]
    constructor
    · rintro ⟨p, hp, rfl, hpid⟩
      rw [hpids hp, List.mem_eraseDups] at hpid
      obtain ⟨e, he, rfl⟩ := List.mem_map.mp hpid
      obtain ⟨he, hguid⟩ := mem_cameFor.mp he
      exact ⟨e, he, hguid, rfl⟩
    · rintro ⟨e, he, rfl, rfl⟩
      obtain ⟨p, hp, hid⟩ := List.mem_map.mp ((mem_keys_gather keepsKeys).mpr ⟨e, he, rfl⟩)
      refine ⟨p, hp, hid, ?_⟩
      rw [hpids hp, List.mem_eraseDups]
      exact List.mem_map_of_mem (mem_cameFor.mpr ⟨he, hid.symm⟩)
  · intro p hp
    obtain ⟨e, hfirst, hp⟩ := hgathered hp
    exact ⟨e.enable, head?_cameFor hfirst, by rw [← hp]; rfl, by rw [← hp]; rfl, by rw [← hp]; rfl⟩
  · intro p hp
    obtain ⟨e, hfirst, hp⟩ := hgathered hp
    have hid : e.guid = p.id := congrArg EtwSessionProvider.id hp
    rw [← hid, ← hp]
    rfl

end Join

/-! ## what is listed -/

/-- What a query of a provider's instances gives: nothing, or the instances. -/
inductive Answers (call : ℕ → UInt32 → Tried Bytes) : List InstanceInfo → Prop
  | failed (h : ∀ size, ∃ error, call 0 size = .failed error) : Answers call []
  | gives {content : UInt32 → Bytes} {need : UInt32} {infos : List InstanceInfo}
      (serves : Serves call (fun _ => content) (fun _ => need))
      (reads : ∀ room, need ≤ room → TraceInfo (content room) infos) : Answers call infos

theorem enlarges_larger (need : ℕ → UInt32) : Enlarges larger need := fun _ _ h => by
  rw [larger, if_pos h]
  exact UInt32.le_refl _

theorem addProvider_eq {system : System} {names : List (GUID × WString)} {guid : GUID}
    {infos : List InstanceInfo} (h : Answers (system.traceGuidInfo guid) infos)
    (sessions : List EtwSession) :
    (system.addProvider names sessions guid).Safe
      ∧ (system.addProvider names sessions guid).value
        = addEvents names (enabledOf guid infos) sessions := by
  unfold System.addProvider
  cases h with
  | failed h =>
    obtain ⟨error, herror⟩ := h 1024
    rw [attempts, herror]
    exact ⟨safe_pure _, rfl⟩
  | @gives content need infos serves reads =>
    obtain ⟨-, -, room, hroom, hdone⟩ := attempts_of_settled serves (enlarges_larger _) 4 0 1024
      (j := 0) (by decide) (UInt32.le_refl _)
    obtain ⟨hsafe, hvalue⟩ := (reads room hroom).read
    rw [hdone]
    refine ⟨(safe_bind _ _).mpr ⟨hsafe, safe_pure _⟩, ?_⟩
    show (readInstances (content room)).value.foldl _ _ = _
    rw [hvalue, addInstances_eq]

theorem addProviders_eq {system : System} {names : List (GUID × WString)} {guids : List GUID}
    {instances : GUID → List InstanceInfo}
    (h : ∀ guid ∈ guids, Answers (system.traceGuidInfo guid) (instances guid))
    (sessions : List EtwSession) :
    (guids.foldlM (system.addProvider names) sessions).Safe
      ∧ (guids.foldlM (system.addProvider names) sessions).value
        = addEvents names (allEnabled guids instances) sessions := by
  induction guids generalizing sessions with
  | nil => exact ⟨safe_pure _, rfl⟩
  | cons guid guids ih =>
    rw [List.forall_mem_cons] at h
    have hall : allEnabled (guid :: guids) instances
        = enabledOf guid (instances guid) ++ allEnabled guids instances := List.flatMap_cons
    obtain ⟨hsafe, hvalue⟩ := @addProvider_eq system names guid _ h.1 sessions
    obtain ⟨hsafes, hvalues⟩ := ih h.2 (addEvents names (enabledOf guid (instances guid)) sessions)
    rw [List.foldlM_cons, safe_bind, value_bind, hvalue, hvalues, hall]
    exact ⟨⟨hsafe, hsafes⟩, List.foldl_append.symm⟩

/-- What there is to list: the sessions at each query, the registered providers and their names, and
the instances of the providers. The queries are answered with room enough. -/
structure System.Gives (system : System) (traces : ℕ → List Properties) (guids : List GUID)
    (names : List (GUID × WString)) (instances : GUID → List InstanceInfo) : Prop where
  sessions : ∃ need, Serves system.queryAllTraces (fun call _ => traces call) need
    ∧ (need 1 ≤ need 0 ∨ need 2 ≤ need 1)
  registered : ∃ need, Serves system.traceGuids (fun _ _ => guids) need
    ∧ 0 < need 0 ∧ need 1 ≤ (need 0 / 16 + 16) * 16
  named : ∃ need, Serves system.providers (fun _ _ => names) need
    ∧ 0 < need 0 ∧ (need 2 ≤ need 1 ∨ need 3 ≤ need 2)
  enabled : ∀ guid ∈ guids, Answers (system.traceGuidInfo guid) (instances guid)

section Enum

variable {system : System} {traces : ℕ → List Properties} {guids : List GUID}
  {names : List (GUID × WString)} {instances : GUID → List InstanceInfo}
  (h : system.Gives traces guids names instances)

include h

theorem System.Gives.guids_eq : system.guids = guids := by
  obtain ⟨need, hserves, hpos, hroom⟩ := h.registered
  have hne : need 0 ≠ 0 := fun hzero => UInt32.lt_irrefl _ (hzero ▸ hpos)
  rw [System.guids, hserves.small hpos]
  simp only [if_neg hne]
  rw [hserves.fits hroom]

theorem System.Gives.providerNames_eq : system.providerNames = names := by
  obtain ⟨need, hserves, hpos, hsettled⟩ := h.named
  have hgrow : Enlarges (fun _ needed => needed) need := fun _ _ _ => UInt32.le_refl _
  rw [System.providerNames, hserves.small hpos]
  obtain hsettled | hsettled := hsettled
  · obtain ⟨i, hi, room, hroom, hdone⟩ := attempts_of_settled hserves hgrow 3 1 (need 0)
      (j := 0) (by decide) hsettled
    simp only [hdone]
  · obtain ⟨i, hi, room, hroom, hdone⟩ := attempts_of_settled hserves hgrow 3 1 (need 0)
      (j := 1) (by decide) hsettled
    simp only [hdone]

/-- `Enum` puts what is enabled into the sessions that a query gave. -/
theorem System.Gives.enum_eq : system.enum.Safe ∧ ∃ call < 3, system.enum.value
    = .ok (addEvents names (allEnabled guids instances) ((traces call).map Properties.toSession)) := by
  have htraces : ∃ call < 3, attempts system.queryAllTraces larger 3 0 64 = .done (traces call) := by
    obtain ⟨need, hserves, hsettled⟩ := h.sessions
    obtain hsettled | hsettled := hsettled
    · obtain ⟨i, hi, room, -, hdone⟩ := attempts_of_settled hserves (enlarges_larger _) 3 0 64
        (j := 0) (by decide) hsettled
      exact ⟨0 + i, by omega, hdone⟩
    · obtain ⟨i, hi, room, -, hdone⟩ := attempts_of_settled hserves (enlarges_larger _) 3 0 64
        (j := 1) (by decide) hsettled
      exact ⟨0 + i, by omega, hdone⟩
  obtain ⟨call, hcall, hdone⟩ := htraces
  obtain ⟨hsafe, hvalue⟩ := @addProviders_eq system names guids instances h.enabled
    ((traces call).map Properties.toSession)
  rw [System.enum, hdone, h.guids_eq, h.providerNames_eq]
  exact ⟨(safe_bind _ _).mpr ⟨hsafe, safe_pure _⟩, call, hcall, congrArg Except.ok hvalue⟩

/-- **The sessions are listed with the providers they enabled**: those of one of the queries, in its
order, each with its own fields. A session has the providers of which it enabled an instance (the
processes of these, the first's level and keywords); what has the ID of an earlier session has none.
Along the instances of the providers nothing outside the buffers is read. -/
theorem enum_sessions :
    system.enum.Safe ∧ ∃ call < 3, ∃ sessions, system.enum.value = .ok sessions
      ∧ sessions.length = (traces call).length
      ∧ ∀ before p after, traces call = before ++ p :: after →
        ∃ s, sessions[before.length]? = some s ∧ { s with providers := [] } = p.toSession
          ∧ ((∀ b ∈ before, b.toSession.loggerId ≠ s.loggerId) → Joined names guids instances s)
          ∧ ((∃ b ∈ before, b.toSession.loggerId = s.loggerId) → s.providers = []) := by
  obtain ⟨hsafe, call, hcall, henum⟩ := h.enum_eq
  refine ⟨hsafe, call, hcall, _, henum, ?_, fun before p after hsplit => ?_⟩
  · rw [length_addEvents, List.length_map]
  · have hget := @addEvents_append names (allEnabled guids instances)
      (before.map Properties.toSession) p.toSession (after.map Properties.toSession)
    rw [List.length_map, ← List.map_cons, ← List.map_append, ← hsplit, foldl_enable _ _ rfl] at hget
    refine ⟨_, hget, rfl, fun hfresh => ?_, fun htaken => ?_⟩
    · have hshare : share (before.map Properties.toSession) p.toSession (allEnabled guids instances)
          = (allEnabled guids instances).filter (p.toSession.loggerId = ·.loggerId) := by
        refine List.filter_congr fun e _ => ?_
        rw [Bool.eq_iff_iff]
        simp only [decide_eq_true_eq, List.forall_mem_map]
        refine and_iff_left_of_imp fun hsame b hb hlogger => hfresh b hb ?_
        exact hlogger.trans hsame.symm
      rw [hshare]
      exact joined_gather p.toSession
    · obtain ⟨b, hb, hlogger⟩ := htaken
      have hnone : share (before.map Properties.toSession) p.toSession (allEnabled guids instances)
          = [] := by
        refine List.filter_eq_nil_iff.mpr fun e _ he => ?_
        obtain ⟨hsame, hothers⟩ := of_decide_eq_true he
        exact hothers _ (List.mem_map_of_mem hb) (hlogger.trans hsame)
      rw [hnone]
      rfl

end Enum

/-! Two sessions, one of which enabled two instances of a provider; a session with an ID again, and
a provider whose instances can't be listed. -/

def someProperties (context : UInt64) : Properties where
  historicalContext := context
  loggerName := wide "Log"
  logFileName := []
  logFileMode := 0x100
  bufferSize := 64
  numberOfBuffers := 4
  freeBuffers := 2
  minimumBuffers := 4
  maximumBuffers := 26
  eventsLost := 0
  buffersWritten := 7
  logBuffersLost := 0
  realTimeBuffersLost := 0
  flushTimer := 1
  enableFlags := 0

def someEnable (loggerId : UInt16) (level : UInt8) : EnableInfo where
  isEnabled := 1
  level := level
  reserved1 := 0
  loggerId := loggerId
  enableProperty := 0
  reserved2 := 0
  matchAnyKeyword := 0x10
  matchAllKeyword := 0

def someInstances : List InstanceInfo :=
  [⟨8, 0, [someEnable 5 4]⟩, ⟨12, 0, [someEnable 7 2, someEnable 5 3]⟩]

def someGuidInfo : Bytes :=
  leBytes 4 2 ++ leBytes 4 0
    ++ ((someInstances.map fun info => info.header (if info.pid = 8 then 48 else 0)
      ++ info.enables.flatMap EnableInfo.bytes).flatten)

def someGuid (b : UInt8) : GUID := Vector.replicate 16 b

def someSystem : System where
  queryAllTraces := serving (fun _ _ => [5, 7, 0x10005].map someProperties) fun _ => 3
  traceGuids := serving (fun _ _ => [someGuid 1, someGuid 2]) fun _ => 32
  traceGuidInfo guid :=
    if guid = someGuid 1 then serving (fun _ _ => someGuidInfo) fun _ => 136
    else fun _ _ => .failed 4200
  providers := serving (fun _ _ => [(someGuid 1, wide "Provider")]) fun _ => 60

example : (someSystem.enum.value.toOption.map fun sessions =>
    sessions.map fun s => s.providers.map EtwSessionProvider.pids)
      = some [[[8, 12]], [[12]], []] := by decide +kernel

theorem traceInfo_someInstances : TraceInfo someGuidInfo someInstances where
  count_lt := by decide
  header := ⟨0, by decide⟩
  chain := by
    refine .inr (.on ⟨by decide, 48, by decide, rfl, by decide +kernel⟩ (.last ?_))
    exact ⟨by decide, 0, by decide, rfl, by decide +kernel⟩

theorem gives_someSystem : someSystem.Gives (fun _ => [5, 7, 0x10005].map someProperties)
    [someGuid 1, someGuid 2] [(someGuid 1, wide "Provider")]
    (fun guid => if guid = someGuid 1 then someInstances else []) where
  sessions := ⟨_, serves_serving _ _, .inl (UInt32.le_refl _)⟩
  registered := ⟨_, serves_serving _ _, by decide, by decide⟩
  named := ⟨_, serves_serving _ _, by decide, .inl (UInt32.le_refl _)⟩
  enabled := by
    have hne : someGuid 2 ≠ someGuid 1 := by decide
    rw [List.forall_mem_cons, List.forall_mem_singleton, someSystem]
    simp only [if_pos, if_neg hne]
    exact ⟨.gives (serves_serving _ _) fun _ _ => traceInfo_someInstances, .failed fun _ => ⟨_, rfl⟩⟩

theorem enum_sessions_someSystem :
    ∃ sessions, someSystem.enum.value = .ok sessions ∧ sessions.length = 3 := by
  obtain ⟨-, _, -, sessions, henum, hlength, -⟩ := enum_sessions gives_someSystem
  exact ⟨sessions, henum, hlength⟩

end WinSys.Etw
