import WinSys.Infra.Payload
import WinSys.SystemInfo.Buffer
import WinSys.SystemInfo.Query

/-!
# The processes the kernel lists

`ParseProcesses` goes along the kernel's records of processes, each with its threads behind it, an
extension behind those if it was asked for, and its image name somewhere else in the buffer.

* `linked`: a turn at a record that says how far the next one is
* `readExtension`: the extension and what its offsets lead to, none of them checked
* `parseProcesses_any`: what happens with any buffer
* `ListedProcess.At`, `value_parseProcesses`: what was laid out is read
* `queryProcesses_eq`: what a query and the walk give
-/

namespace WinSys.SystemInfo

open Infra Reads

/-! ## the source -/

variable {α : Type}

/-- Where a `UNICODE_STRING`'s pointer leads, in a buffer that is at `base`. -/
def textPlace (base : ℕ) (str : Bytes) : ℕ := ((u64At str 8).toNat + 2 ^ 64 - base) % 2 ^ 64

/-- The whole characters of a `UNICODE_STRING`'s length. -/
def textLength (str : Bytes) : ℕ := (u16At str 0).toNat / 2

/-- `ToString` of a `UNICODE_STRING` in the buffer. -/
def readString (buffer : Bytes) (base : ℕ) (str : Bytes) : Reads WString :=
  if u64At str 8 = 0 then pure []
  else do return units (← raw buffer (textPlace base str) (2 * textLength str))

/-- A turn at a record whose first field says how far the next record is, or 0. -/
def linked (buffer : Bytes) (size : ℕ) (entry : ℕ → Bytes → Reads α) (p : ℕ) : Reads (Hop α) :=
  if isInside buffer p size then do
    let record ← raw buffer p size
    let a ← entry p record
    if u32At record 0 = 0 then return .last a
    else return .on a (p + (u32At record 0).toNat)
  else return .stop

structure Process where
  info : Bytes
  imageName : WString
  threads : List Bytes
  extension : Option Bytes := none
  packageFullName : WString := []
  appId : WString := []
  userSid : WString := []
deriving DecidableEq, Repr

/-- What Windows has for extensions: `SYSTEM_PROCESS_INFORMATION_EXTENSION`'s size, where its
`AppIdOffset` is, and `ConvertSidToStringSid`. -/
structure ExtensionSystem where
  size : ℕ
  appIdOffset : ℕ
  /-- Whether a SID of this revision with this many subauthorities is valid. -/
  validSid : UInt8 → UInt8 → Bool
  sidText : Bytes → Option WString

/-- `FIELD_OFFSET(SYSTEM_PROCESS_INFORMATION, Threads)` -/
def processSize : ℕ := 0x100

/-- The sizes of `SYSTEM_THREAD_INFORMATION` and `SYSTEM_EXTENDED_THREAD_INFORMATION`. -/
def threadSize (extended : Bool) : ℕ := if extended then 0x88 else 0x50

/-- A thread's information as a `SYSTEM_EXTENDED_THREAD_INFORMATION`. -/
def extendThread (extended : Bool) (thread : Bytes) : Bytes :=
  if extended then thread else thread ++ List.replicate 0x38 0

/-- A record with the name and the link cleared. -/
def clearInfo (record : Bytes) : Bytes :=
  leBytes 4 0 ++ (record.drop 4).take 0x34 ++ List.replicate 16 0 ++ record.drop 0x48

/-- The length of a SID. -/
def sidLength (head : Bytes) : ℕ := 8 + 4 * (u8At head 1).toNat

section Parse

variable (sys : ExtensionSystem) (buffer : Bytes) (base : ℕ) (extendedThreads extension : Bool)

/-- The text that an offset leads to, if it is set. -/
def readOffset (place : ℕ) (offset : UInt32) : Reads WString :=
  if offset = 0 then pure [] else readText buffer (place + offset.toNat)

/-- The SID that an offset leads to as a text; a SID that is not valid has none. -/
def readSid (place : ℕ) (offset : UInt32) : Reads WString :=
  if offset = 0 then pure []
  else do
    let head ← raw buffer (place + offset.toNat) 2
    if sys.validSid (u8At head 0) (u8At head 1) then
      return (sys.sidText (← raw buffer (place + offset.toNat) (sidLength head))).getD []
    else return []

def readExtension (place : ℕ) (process : Process) : Reads Process :=
  if isInside buffer place sys.size then do
    let ext ← raw buffer place sys.size
    let packageFullName ← readOffset buffer place (u32At ext 0x38)
    let appId ← readOffset buffer place (u32At ext sys.appIdOffset)
    let userSid ← readSid sys buffer place (u32At ext 0x34)
    return { process with extension := some ext, packageFullName, appId, userSid }
  else return process

/-- Where a process's extension is: behind its threads, which then are the larger ones. -/
def extensionPlace (p : ℕ) (record : Bytes) : ℕ :=
  p + processSize + threadSize true * (u32At record 4).toNat

def readProcess (p : ℕ) (record : Bytes) : Reads Process := do
  let imageName ← readString buffer base ((record.drop 0x38).take 16)
  let threads ← toVector buffer (p + processSize) (threadSize extendedThreads)
    (u32At record 4).toNat (extendThread extendedThreads)
  let process : Process := { info := clearInfo record, imageName, threads }
  -- the idle process has no extension
  if extension && u64At record 0x50 ≠ 0 then
    readExtension sys buffer (extensionPlace p record) process
  else return process

def parseProcesses : Reads (List Process) :=
  walk (linked buffer processSize (readProcess sys buffer base extendedThreads extension))
    (buffer.length + 2) 0

end Parse

/-! ## the reads -/

section Safe

variable {buffer : Bytes} {base p size : ℕ} {entry : ℕ → Bytes → Reads α}

/-- The text of a string is in the buffer. -/
def TextInside (buffer : Bytes) (base : ℕ) (str : Bytes) : Prop :=
  u64At str 8 = 0 ∨ textPlace base str + 2 * textLength str ≤ buffer.length

theorem safe_readString_iff {str : Bytes} :
    (readString buffer base str).Safe ↔ TextInside buffer base str := by
  unfold readString TextInside
  split
  · next hnull => exact iff_of_true (safe_pure _) (.inl hnull)
  · next hnull =>
    rw [safe_bind, safe_raw, and_iff_left (safe_pure _), or_iff_right hnull]

theorem safe_linked_iff : (linked buffer size entry p).Safe ↔
    (p + size ≤ buffer.length → (entry p ((buffer.drop p).take size)).Safe) := by
  unfold linked
  split
  · next hinside =>
    rw [isInside_iff] at hinside
    rw [safe_bind, safe_raw, value_raw, safe_bind, and_iff_right hinside, and_iff_left,
      imp_iff_right hinside]
    split
    · exact safe_pure _
    · exact safe_pure _
  · next hinside =>
    rw [isInside_iff] at hinside
    exact iff_of_true (safe_pure _) fun h => absurd h hinside

variable {sys : ExtensionSystem} {extendedThreads extension : Bool}

/-- The NUL of the text that an offset leads to is in the buffer. -/
def OffsetEnds (buffer : Bytes) (place : ℕ) (offset : UInt32) : Prop :=
  offset = 0 ∨ TextEnds buffer (place + offset.toNat)

theorem safe_readOffset_iff {place : ℕ} {offset : UInt32} :
    (readOffset buffer place offset).Safe ↔ OffsetEnds buffer place offset := by
  unfold readOffset OffsetEnds
  split
  · next hzero => exact iff_of_true (safe_pure _) (.inl hzero)
  · next hzero => rw [safe_readText_iff, or_iff_right hzero]

/-- The SID that an offset leads to is in the buffer, or its head if it is not valid. -/
def SidInside (sys : ExtensionSystem) (buffer : Bytes) (place : ℕ) (offset : UInt32) : Prop :=
  offset = 0 ∨ place + offset.toNat + 2 ≤ buffer.length
    ∧ (sys.validSid (u8At ((buffer.drop (place + offset.toNat)).take 2) 0)
        (u8At ((buffer.drop (place + offset.toNat)).take 2) 1) = true →
      place + offset.toNat + sidLength ((buffer.drop (place + offset.toNat)).take 2)
        ≤ buffer.length)

theorem safe_readSid_iff {place : ℕ} {offset : UInt32} :
    (readSid sys buffer place offset).Safe ↔ SidInside sys buffer place offset := by
  unfold readSid SidInside
  split
  · next hzero => exact iff_of_true (safe_pure _) (.inl hzero)
  · next hzero =>
    rw [safe_bind, safe_raw, value_raw, or_iff_right hzero]
    refine and_congr_right fun _ => ?_
    split
    · next hvalid => rw [safe_bind, safe_raw, and_iff_left (safe_pure _), imp_iff_right hvalid]
    · next hvalid => exact iff_of_true (safe_pure _) fun h => absurd h hvalid

/-- What the extension at a place leads to is in the buffer. -/
structure ExtensionEnds (sys : ExtensionSystem) (buffer : Bytes) (place : ℕ) : Prop where
  packageFullName : OffsetEnds buffer place (u32At ((buffer.drop place).take sys.size) 0x38)
  appId : OffsetEnds buffer place (u32At ((buffer.drop place).take sys.size) sys.appIdOffset)
  userSid : SidInside sys buffer place (u32At ((buffer.drop place).take sys.size) 0x34)

theorem safe_readExtension_iff {place : ℕ} {process : Process} :
    (readExtension sys buffer place process).Safe ↔
      (place + sys.size ≤ buffer.length → ExtensionEnds sys buffer place) := by
  unfold readExtension
  split
  · next hinside =>
    rw [isInside_iff] at hinside
    rw [safe_bind, safe_raw, value_raw, safe_bind, safe_readOffset_iff, safe_bind,
      safe_readOffset_iff, safe_bind, safe_readSid_iff, and_iff_left (safe_pure _),
      and_iff_right hinside, imp_iff_right hinside]
    exact ⟨fun ⟨hpackage, happ, hsid⟩ => ⟨hpackage, happ, hsid⟩,
      fun h => ⟨h.packageFullName, h.appId, h.userSid⟩⟩
  · next hinside =>
    rw [isInside_iff] at hinside
    exact iff_of_true (safe_pure _) fun h => absurd h hinside

/-- What a process's record leads to is in the buffer: its image name, and what its extension leads
to if that is read. -/
structure RecordEnds (sys : ExtensionSystem) (buffer : Bytes) (base : ℕ) (extension : Bool) (p : ℕ)
    (record : Bytes) : Prop where
  imageName : TextInside buffer base ((record.drop 0x38).take 16)
  extension : extension = true → u64At record 0x50 ≠ 0 →
    extensionPlace p record + sys.size ≤ buffer.length →
    ExtensionEnds sys buffer (extensionPlace p record)

theorem safe_readProcess_iff {record : Bytes} :
    (readProcess sys buffer base extendedThreads extension p record).Safe ↔
      RecordEnds sys buffer base extension p record := by
  rw [readProcess, safe_bind, safe_readString_iff, safe_bind, and_iff_right safe_toVector]
  have hextension : (if extension && u64At record 0x50 ≠ 0 then
        readExtension sys buffer (extensionPlace p record)
          { info := clearInfo record
            imageName := (readString buffer base ((record.drop 0x38).take 16)).value
            threads := (toVector buffer (p + processSize) (threadSize extendedThreads)
              (u32At record 4).toNat (extendThread extendedThreads)).value }
      else pure { info := clearInfo record
                  imageName := (readString buffer base ((record.drop 0x38).take 16)).value
                  threads := (toVector buffer (p + processSize) (threadSize extendedThreads)
                    (u32At record 4).toNat (extendThread extendedThreads)).value }).Safe ↔
      (extension = true → u64At record 0x50 ≠ 0 →
        extensionPlace p record + sys.size ≤ buffer.length →
        ExtensionEnds sys buffer (extensionPlace p record)) := by
    split
    · next hasked =>
      rw [Bool.and_eq_true, decide_eq_true_eq] at hasked
      rw [safe_readExtension_iff, imp_iff_right hasked.1, imp_iff_right hasked.2]
    · next hasked =>
      rw [Bool.and_eq_true, decide_eq_true_eq] at hasked
      exact iff_of_true (safe_pure _) fun hflag hid => absurd ⟨hflag, hid⟩ hasked
  exact (and_congr_right fun _ => hextension).trans
    ⟨fun ⟨hname, hext⟩ => ⟨hname, hext⟩, fun h => ⟨h.imageName, h.extension⟩⟩

/-- The places of the processes' records. -/
def processPlaces (sys : ExtensionSystem) (buffer : Bytes) (base : ℕ)
    (extendedThreads extension : Bool) : List ℕ :=
  places (linked buffer processSize (readProcess sys buffer base extendedThreads extension))
    (buffer.length + 2) 0

/-- A turn goes on to a later place only. -/
theorem onward_linked (hsize : 0 < size) : Onward buffer.length (linked buffer size entry) := by
  intro p a next hturn
  unfold linked at hturn
  split at hturn
  · next hinside =>
    rw [isInside_iff] at hinside
    rw [value_bind, value_bind] at hturn
    split at hturn
    · cases hturn
    · next hlink =>
      have hpos : (u32At (raw buffer p size).value 0).toNat ≠ 0 :=
        fun hzero => hlink (UInt32.toNat_inj.mp hzero)
      cases hturn
      omega
  · cases hturn

/-- **Any buffer is walked to its end**, and the reads stay in it exactly when what the records it
comes to lead to is there: the image names, and what the extensions in the buffer lead to if they
are asked for. The threads never matter, whatever their number says. -/
theorem parseProcesses_any :
    Leads (linked buffer processSize (readProcess sys buffer base extendedThreads extension)) 0
        (parseProcesses sys buffer base extendedThreads extension).value
      ∧ ((parseProcesses sys buffer base extendedThreads extension).Safe ↔
        ∀ p ∈ processPlaces sys buffer base extendedThreads extension,
          p + processSize ≤ buffer.length →
          RecordEnds sys buffer base extension p ((buffer.drop p).take processSize)) := by
  refine ⟨walk_enough (onward_linked (by decide)) (by omega), ?_⟩
  refine safe_walk_iff.trans (forall₂_congr fun p _ => safe_linked_iff.trans ?_)
  exact imp_congr_right fun _ => safe_readProcess_iff

end Safe

/-! ## what was laid out -/

/-- A string and its text are there. -/
structure StringAt (buffer : Bytes) (base place : ℕ) (text : WString) (maximum : Bytes)
    (pointer : ℕ) : Prop where
  text_lt : 2 * text.length < 2 ^ 16
  length_maximum : maximum.length = 6
  pointer_lt : pointer < 2 ^ 64
  holds : HoldsAt buffer place (leBytes 2 (2 * text.length) ++ maximum ++ leBytes 8 pointer)
  text : pointer = 0 ∧ text = [] ∨ pointer ≠ 0 ∧ base ≤ pointer
    ∧ pointer - base + 2 * text.length ≤ buffer.length
    ∧ HoldsAt buffer (pointer - base) (wideBytes text)

/-- How far the next record is says where it is. -/
def nextOf (p link : ℕ) : Option ℕ := if link = 0 then none else some (p + link)

/-- A text is where an offset leads, if it is set. -/
def OffsetAt (buffer : Bytes) (place : ℕ) (offset : UInt32) : Option WString → Prop
  | none => offset = 0
  | some text => offset ≠ 0 ∧ 0 ∉ text ∧ HoldsAt buffer (place + offset.toNat) (zString text)

/-- A valid SID is where an offset leads, if it is set. -/
def SidAt (sys : ExtensionSystem) (buffer : Bytes) (place : ℕ) (offset : UInt32) :
    Option Bytes → Prop
  | none => offset = 0
  | some sid => offset ≠ 0 ∧ sys.validSid (u8At sid 0) (u8At sid 1) = true
    ∧ sid.length = sidLength sid ∧ HoldsAt buffer (place + offset.toNat) sid

/-- What the kernel adds to a process: the structure, and what its offsets lead to. -/
structure ListedExtension where
  bytes : Bytes
  packageFullName : Option WString
  appId : Option WString
  sid : Option Bytes
deriving DecidableEq, Repr

/-- The layout of an extension. -/
structure ListedExtension.At (sys : ExtensionSystem) (buffer : Bytes) (place : ℕ)
    (e : ListedExtension) : Prop where
  length : e.bytes.length = sys.size
  inside : place + sys.size ≤ buffer.length
  holds : HoldsAt buffer place e.bytes
  packageFullName : OffsetAt buffer place (u32At e.bytes 0x38) e.packageFullName
  appId : OffsetAt buffer place (u32At e.bytes sys.appIdOffset) e.appId
  userSid : SidAt sys buffer place (u32At e.bytes 0x34) e.sid

/-- A process with what its extension says. -/
def ListedExtension.addTo (sys : ExtensionSystem) (e : ListedExtension) (process : Process) :
    Process where
  info := process.info
  imageName := process.imageName
  threads := process.threads
  extension := some e.bytes
  packageFullName := e.packageFullName.getD []
  appId := e.appId.getD []
  userSid := (e.sid.bind sys.sidText).getD []

/-- What the kernel lists of a process: its fields before and behind the name, its threads, and its
extension. -/
structure ListedProcess where
  fields : Bytes
  name : WString
  rest : Bytes
  threads : List Bytes
  extension : Option ListedExtension := none
deriving DecidableEq, Repr

namespace ListedProcess

variable (sys : ExtensionSystem) (extendedThreads : Bool) (process : ListedProcess)

/-- Without the extension. -/
def plain : Process where
  info := leBytes 4 0 ++ (leBytes 4 process.threads.length ++ process.fields)
    ++ List.replicate 16 0 ++ process.rest
  imageName := process.name
  threads := process.threads.map (extendThread extendedThreads)

def toProcess : Process :=
  match process.extension with
  | none => process.plain extendedThreads
  | some e => e.addTo sys (process.plain extendedThreads)

/-- A process has an extension behind its threads if it is asked for, but the idle one. -/
def Extends (extension : Bool) (buffer : Bytes) (place : ℕ) : Option ListedExtension → Prop
  | none => extension = false ∨ u64At process.rest 8 = 0
  | some e => extension = true ∧ u64At process.rest 8 ≠ 0 ∧ e.At sys buffer place

/-- The layout of a process. -/
structure At (extension : Bool) (buffer : Bytes) (base p link : ℕ) (maximum : Bytes)
    (pointer : ℕ) : Prop where
  link_lt : link < 2 ^ 32
  count_lt : process.threads.length < 2 ^ 32
  fields : process.fields.length = 0x30
  rest : process.rest.length = 0xB8
  inside : p + processSize ≤ buffer.length
  head : HoldsAt buffer p
    (leBytes 4 link ++ (leBytes 4 process.threads.length ++ process.fields))
  name : StringAt buffer base (p + 0x38) process.name maximum pointer
  tail : HoldsAt buffer (p + 0x48) process.rest
  table : TableAt buffer (p + processSize) (threadSize extendedThreads)
    (fun place thread => thread.length = threadSize extendedThreads ∧ HoldsAt buffer place thread)
    process.threads
  behind : process.Extends sys extension buffer
    (p + processSize + threadSize true * process.threads.length) process.extension

end ListedProcess

/-- The records of processes, one behind another. -/
abbrev ProcessesAt (sys : ExtensionSystem) (buffer : Bytes) (base : ℕ)
    (extendedThreads extension : Bool) : ℕ → List ListedProcess → Prop :=
  Chain (fun p process next => ∃ link maximum pointer,
      process.At sys extendedThreads extension buffer base p link maximum pointer
        ∧ next = nextOf p link)
    fun p => buffer.length < p + processSize

/-! ## it is read -/

section Value

variable {buffer : Bytes} {base p size link : ℕ} {entry : ℕ → Bytes → Reads α}

theorem StringAt.read {place pointer : ℕ} {text : WString} {maximum : Bytes}
    (h : StringAt buffer base place text maximum pointer) {str : Bytes}
    (hstr : str = leBytes 2 (2 * text.length) ++ maximum ++ leBytes 8 pointer) :
    (readString buffer base str).value = text ∧ TextInside buffer base str := by
  have hself : HoldsAt str 0 (leBytes 2 (2 * text.length) ++ maximum ++ leBytes 8 pointer) := by
    rw [hstr]
    exact List.prefix_rfl
  have hlength : (u16At str 0).toNat = 2 * text.length := hself.left.left.u16At h.text_lt
  have hpointer : (u64At str 8).toNat = pointer := by
    have hright := hself.right
    rw [List.length_append, length_leBytes, h.length_maximum] at hright
    exact hright.u64At h.pointer_lt
  have hhalf : textLength str = text.length := by
    rw [textLength, hlength]
    omega
  obtain ⟨hnull, htext⟩ | ⟨hnull, hbase, hinside, htext⟩ := h.text
  · have hzero : u64At str 8 = 0 := UInt64.toNat_inj.mp (hpointer.trans hnull)
    rw [readString, if_pos hzero, htext]
    exact ⟨rfl, .inl hzero⟩
  · have hplace : textPlace base str = pointer - base := by
      have hlt := h.pointer_lt
      rw [textPlace, hpointer]
      omega
    have hne : u64At str 8 ≠ 0 := fun hzero => hnull (hpointer.symm.trans (congrArg _ hzero))
    rw [readString, if_neg hne, TextInside, hplace, hhalf]
    refine ⟨?_, .inr hinside⟩
    have htake := htext.take_eq
    rw [length_wideBytes] at htake
    rw [value_bind, value_pure, value_raw, htake, units_wideBytes]

/-- A turn at a record that is there. -/
theorem value_linked (hinside : p + size ≤ buffer.length)
    (hlink : (u32At ((buffer.drop p).take size) 0).toNat = link) {a : α}
    (hentry : (entry p ((buffer.drop p).take size)).value = a) :
    (linked buffer size entry p).value = .add a (nextOf p link) := by
  rw [linked, if_pos (isInside_iff.mpr hinside), value_bind, value_bind, value_raw, hentry, hlink,
    nextOf]
  have hzero : u32At ((buffer.drop p).take size) 0 = 0 ↔ link = 0 := by
    rw [← UInt32.toNat_inj, hlink]
    rfl
  by_cases h : link = 0
  · rw [if_pos (hzero.mpr h), if_pos h]
    rfl
  · rw [if_neg fun h' => h (hzero.mp h'), if_neg h]
    rfl

theorem value_linked_of_not_inside (h : buffer.length < p + size) :
    (linked buffer size entry p).value = .stop := by
  rw [linked, if_neg]
  · rfl
  · rw [isInside_iff]
    omega

theorem OffsetAt.read {place : ℕ} {offset : UInt32} {text : Option WString}
    (h : OffsetAt buffer place offset text) :
    (readOffset buffer place offset).value = text.getD [] ∧ OffsetEnds buffer place offset := by
  cases text with
  | none =>
    have hzero : offset = 0 := h
    rw [readOffset, if_pos hzero]
    exact ⟨rfl, .inl hzero⟩
  | some text =>
    obtain ⟨hne, hnul, hholds⟩ := h
    obtain ⟨hvalue, hends⟩ := readText_of_holdsAt hnul hholds
    rw [readOffset, if_neg hne]
    exact ⟨hvalue, .inr hends⟩

section Extension

variable {sys : ExtensionSystem}

theorem SidAt.read {place : ℕ} {offset : UInt32} {sid : Option Bytes}
    (h : SidAt sys buffer place offset sid) :
    (readSid sys buffer place offset).value = (sid.bind sys.sidText).getD []
      ∧ SidInside sys buffer place offset := by
  cases sid with
  | none =>
    have hzero : offset = 0 := h
    rw [readSid, if_pos hzero]
    exact ⟨rfl, .inl hzero⟩
  | some sid =>
    obtain ⟨hne, hvalid, hlength, hholds⟩ := h
    have htwo : 2 ≤ sid.length := by
      rw [hlength, sidLength]
      omega
    -- the first two bytes say what the SID says
    have hhead : (buffer.drop (place + offset.toNat)).take 2 = sid.take 2 := by
      have htake := congrArg (List.take 2) hholds.take_eq
      rwa [List.take_take, Nat.min_eq_left htwo] at htake
    obtain ⟨a, b, rest, hsid⟩ : ∃ a b rest, sid = a :: b :: rest := by
      match sid, htwo with
      | a :: b :: rest, _ => exact ⟨a, b, rest, rfl⟩
    have hzero : u8At (sid.take 2) 0 = u8At sid 0 := by
      rw [hsid]
      rfl
    have hone : u8At (sid.take 2) 1 = u8At sid 1 := by
      rw [hsid]
      rfl
    have hsize : sidLength (sid.take 2) = sid.length := by rw [sidLength, hone, hlength, sidLength]
    have hinside := hholds.length_le
    rw [List.length_drop] at hinside
    rw [readSid, if_neg hne, SidInside, value_bind, value_raw, hhead, hzero, hone, hvalid,
      if_pos rfl, value_bind, value_raw, hsize, hholds.take_eq]
    exact ⟨rfl, .inr ⟨by omega, fun _ => by omega⟩⟩

section Placed

variable {e : ListedExtension} {place : ℕ} (h : e.At sys buffer place)

include h

theorem ListedExtension.At.take_eq : (buffer.drop place).take sys.size = e.bytes := by
  rw [← h.length]
  exact h.holds.take_eq

theorem ListedExtension.At.read {process : Process} :
    (readExtension sys buffer place process).value = e.addTo sys process := by
  rw [readExtension, if_pos (isInside_iff.mpr h.inside), value_bind, value_raw, h.take_eq,
    value_bind, value_bind, value_bind, h.packageFullName.read.1, h.appId.read.1, h.userSid.read.1]
  rfl

theorem ListedExtension.At.ends : ExtensionEnds sys buffer place := by
  refine ⟨?_, ?_, ?_⟩
  · rw [h.take_eq]
    exact h.packageFullName.read.2
  · rw [h.take_eq]
    exact h.appId.read.2
  · rw [h.take_eq]
    exact h.userSid.read.2

end Placed

end Extension

namespace ListedProcess

variable {sys : ExtensionSystem} {process : ListedProcess} {extendedThreads extension : Bool}
  {maximum : Bytes} {pointer : ℕ}

theorem At.string (h : process.At sys extendedThreads extension buffer base p link maximum pointer) :
    (((buffer.drop p).take processSize).drop 0x38).take 16
      = leBytes 2 (2 * process.name.length) ++ maximum ++ leBytes 8 pointer := by
  have hlength : (leBytes 2 (2 * process.name.length) ++ maximum ++ leBytes 8 pointer).length = 16 := by
    simp [h.name.length_maximum]
  have hrecord := holdsAt_record p processSize _ h.name.holds (by rw [hlength]; decide)
  rw [← hlength]
  exact hrecord.take_eq

section Record

variable (h : process.At sys extendedThreads extension buffer base p link maximum pointer)

include h

theorem At.toNat_link : (u32At ((buffer.drop p).take processSize) 0).toNat = link :=
  (holdsAt_record p processSize 0 h.head (by simp [h.fields, processSize])).left.u32At h.link_lt

theorem At.toNat_count :
    (u32At ((buffer.drop p).take processSize) 4).toNat = process.threads.length :=
  (holdsAt_record p processSize 0 h.head (by simp [h.fields, processSize])).right.left.u32At
    h.count_lt

theorem At.drop_record : ((buffer.drop p).take processSize).drop 0x48 = process.rest := by
  have hrecord := holdsAt_record p processSize _ h.tail (by rw [h.rest]; decide)
  have htake := hrecord.take_eq
  have hlength : ((buffer.drop p).take processSize).length = processSize := by
    rw [List.length_take, List.length_drop]
    have hinside := h.inside
    omega
  rwa [List.take_of_length_le] at htake
  rw [List.length_drop, hlength, h.rest]
  decide

/-- The process ID is the one of the fields behind the name. -/
theorem At.id_record : u64At ((buffer.drop p).take processSize) 0x50 = u64At process.rest 8 := by
  rw [← h.drop_record, u64At, u64At, List.drop_drop]

theorem At.extensionPlace_record : extensionPlace p ((buffer.drop p).take processSize)
    = p + processSize + threadSize true * process.threads.length := by
  rw [extensionPlace, h.toNat_count]

theorem At.read :
    (readProcess sys buffer base extendedThreads extension p
      ((buffer.drop p).take processSize)).value = process.toProcess sys extendedThreads := by
  have hhead := holdsAt_record p processSize 0 h.head (by simp [h.fields, processSize])
  have hfields : (((buffer.drop p).take processSize).drop 4).take 0x34
      = leBytes 4 process.threads.length ++ process.fields := by
    have htake := hhead.right.take_eq
    rwa [List.length_append, length_leBytes, h.fields] at htake
  have hthreads := value_toVector_map (extendThread extendedThreads)
    (by cases extendedThreads <;> decide)
    (fun place thread hthread => by rw [← hthread.1, hthread.2.take_eq]) h.table
  have hextends := h.behind
  rw [readProcess, value_bind, value_bind, h.toNat_count, hthreads, h.string, (h.name.read rfl).1,
    clearInfo, hfields, h.drop_record, h.id_record, h.extensionPlace_record, toProcess]
  cases hext : process.extension with
  | none =>
    rw [hext] at hextends
    rw [if_neg]
    · rfl
    · rw [Bool.and_eq_true, decide_eq_true_eq]
      rintro ⟨hasked, hid⟩
      obtain hflag | hzero := hextends
      · exact absurd hasked (by simp [hflag])
      · exact hid hzero
  | some e =>
    rw [hext] at hextends
    obtain ⟨hasked, hid, hat⟩ := hextends
    rw [if_pos (by rw [hasked]; exact decide_eq_true hid), hat.read]
    rfl

/-- What a process's record leads to is in the buffer. -/
theorem At.recordEnds :
    RecordEnds sys buffer base extension p ((buffer.drop p).take processSize) := by
  refine ⟨?_, fun hasked hid _ => ?_⟩
  · rw [h.string]
    exact (h.name.read rfl).2
  · have hextends := h.behind
    rw [h.id_record] at hid
    rw [h.extensionPlace_record]
    cases hext : process.extension with
    | none =>
      rw [hext] at hextends
      obtain hflag | hzero := hextends
      · exact absurd hasked (by simp [hflag])
      · exact absurd hzero hid
    | some e =>
      rw [hext] at hextends
      exact hextends.2.2.ends

end Record

end ListedProcess

variable {sys : ExtensionSystem} {extendedThreads extension : Bool} {processes : List ListedProcess}

/-- A turn at a process that is there. -/
theorem ListedProcess.At.turn {process : ListedProcess} {maximum : Bytes} {pointer : ℕ}
    (h : process.At sys extendedThreads extension buffer base p link maximum pointer) :
    (linked buffer processSize (readProcess sys buffer base extendedThreads extension) p).value
      = .add (process.toProcess sys extendedThreads) (nextOf p link) :=
  value_linked h.inside h.toNat_link h.read

theorem ProcessesAt.leads (h : ProcessesAt sys buffer base extendedThreads extension p processes) :
    Leads (linked buffer processSize (readProcess sys buffer base extendedThreads extension)) p
      (processes.map (ListedProcess.toProcess sys extendedThreads)) := by
  refine Chain.leads h ?_ fun p hend => value_linked_of_not_inside hend
  rintro p process next ⟨link, maximum, pointer, hat, rfl⟩
  exact hat.turn

/-- **What was laid out is read**: every process with its threads, its name and its extension, in
order. -/
theorem value_parseProcesses
    (h : ProcessesAt sys buffer base extendedThreads extension 0 processes) :
    (parseProcesses sys buffer base extendedThreads extension).value
      = processes.map (ListedProcess.toProcess sys extendedThreads) :=
  h.leads.value_walk_of_onward (onward_linked (by decide)) (by omega)

/-- Processes that are there are read inside the buffer. -/
theorem ProcessesAt.safe (h : ProcessesAt sys buffer base extendedThreads extension 0 processes) :
    (parseProcesses sys buffer base extendedThreads extension).Safe := by
  refine Chain.safe_walk h ?_ (fun p hend => ?_) _
  · rintro p process next ⟨link, maximum, pointer, hat, rfl⟩
    exact ⟨safe_linked_iff.mpr fun _ => safe_readProcess_iff.mpr hat.recordEnds, _, hat.turn⟩
  · exact ⟨safe_linked_iff.mpr fun hinside => absurd hinside (by omega),
      value_linked_of_not_inside hend⟩

end Value

/-! ## the query -/

/-- `QueryProcesses`; the buffer of a call is at the call's address. -/
def queryProcesses (sys : ExtensionSystem) (kernel : Kernel) (address : ℕ → ℕ)
    (extendedThreads extension : Bool) : Reads (List Process) :=
  match query kernel defaultElementSize enoughTurns 0 (List.replicate (2 ^ 20) 0) with
  | some ⟨some data, sizes⟩ =>
    parseProcesses sys data (address (sizes.length - 1)) extendedThreads extension
  | _ => pure []

/-- **The processes are those of one moment**: whatever the kernel lists at each call, and wherever
the buffers are, what is given is all that it listed at the last of the calls. -/
theorem queryProcesses_eq {sys : ExtensionSystem} {kernel : Kernel} {content : ℕ → Bytes}
    {address : ℕ → ℕ} {extendedThreads extension : Bool} {processes : ℕ → List ListedProcess}
    (hgives : kernel.Gives content) (hlimit : ∀ call, Askable (content call).length)
    (hlists : ∀ call, ProcessesAt sys (content call) (address call) extendedThreads extension 0
      (processes call)) :
    ∃ call, (queryProcesses sys kernel address extendedThreads extension).value
        = (processes call).map (ListedProcess.toProcess sys extendedThreads)
      ∧ (queryProcesses sys kernel address extendedThreads extension).Safe := by
  obtain ⟨q, hq, -, -⟩ := query_ends kernel 0
    (@enoughTurns_spec defaultElementSize (2 ^ 20) (by decide) (by decide))
  obtain ⟨call, hcalls, hresult⟩ := query_content hgives hlimit hq
  rw [Nat.zero_add] at hresult
  have hparsed : queryProcesses sys kernel address extendedThreads extension
      = parseProcesses sys (content call) (address call) extendedThreads extension := by
    obtain ⟨result, sizes⟩ := q
    cases hresult
    rw [queryProcesses, enoughTurns, hq]
    show parseProcesses _ _ (address (sizes.length - 1)) _ _ = _
    rw [show sizes.length = call + 1 from hcalls, Nat.add_sub_cancel]
  rw [hparsed]
  exact ⟨call, value_parseProcesses (hlists call), (hlists call).safe⟩

/-! Two processes, the first with a thread, a name, and an extension with a package and a SID. -/

def someSystem : ExtensionSystem where
  size := 0x170
  appIdOffset := 0x150
  validSid := fun revision count => revision == 1 && count ≤ 15
  sidText := fun sid => if sid = [1, 1, 0, 0, 0, 0, 0, 5, 18, 0, 0, 0] then some (wide "S-1-5-18")
    else none

def someExtension : ListedExtension where
  bytes := List.replicate 0x34 6 ++ leBytes 4 0x170 ++ leBytes 4 0x17C
    ++ List.replicate 0x114 7 ++ leBytes 4 0 ++ List.replicate 0x1C 8
  packageFullName := some (wide "p")
  appId := none
  sid := some [1, 1, 0, 0, 0, 0, 0, 5, 18, 0, 0, 0]

def namedProcess : ListedProcess where
  fields := List.replicate 0x30 1
  name := wide "ab"
  rest := List.replicate 0xB8 2
  threads := [List.replicate 0x88 3]
  extension := some someExtension

def idleProcess : ListedProcess where
  fields := List.replicate 0x30 4
  name := []
  rest := List.replicate 0xB8 0
  threads := []

def listedBytes (base : ℕ) : Bytes :=
  leBytes 4 0x310 ++ leBytes 4 1 ++ namedProcess.fields
    ++ (leBytes 2 4 ++ List.replicate 6 0 ++ leBytes 8 (base + 0x308)) ++ namedProcess.rest
    ++ namedProcess.threads.flatten ++ someExtension.bytes
    ++ [1, 1, 0, 0, 0, 0, 0, 5, 18, 0, 0, 0] ++ zString (wide "p") ++ wideBytes namedProcess.name
    ++ List.replicate 4 0
  ++ (leBytes 4 0 ++ leBytes 4 0 ++ idleProcess.fields ++ List.replicate 16 0
    ++ idleProcess.rest)

theorem processesAt_listedBytes :
    ProcessesAt someSystem (listedBytes 0x1000) 0x1000 true true 0
      [namedProcess, idleProcess] := by
  have hextension : someExtension.At someSystem (listedBytes 0x1000) 0x188 :=
    ⟨by decide +kernel, by decide +kernel, by decide +kernel, by
      exact ⟨by decide +kernel, by decide +kernel, by decide +kernel⟩, by
      show _ = _
      decide +kernel,
      ⟨by decide +kernel, by decide +kernel, by decide +kernel, by decide +kernel⟩⟩
  have hnamed : namedProcess.At someSystem true true (listedBytes 0x1000) 0x1000 0 0x310
      (List.replicate 6 0) 0x1308 := by
    refine ⟨by decide +kernel, by decide +kernel, by decide +kernel, by decide +kernel,
      by decide +kernel, by decide +kernel, ?_, by decide +kernel, by decide +kernel,
      ⟨rfl, by decide +kernel, hextension⟩⟩
    exact ⟨by decide +kernel, by decide +kernel, by decide +kernel, by decide +kernel,
      by decide +kernel⟩
  have hidle : idleProcess.At someSystem true true (listedBytes 0x1000) 0x1000 0x310 0
      (List.replicate 6 0) 0 := by
    refine ⟨by decide +kernel, by decide +kernel, by decide +kernel, by decide +kernel,
      by decide +kernel, by decide +kernel, ?_, by decide +kernel, by decide +kernel,
      .inr (by decide +kernel)⟩
    exact ⟨by decide +kernel, by decide +kernel, by decide +kernel, by decide +kernel,
      by decide +kernel⟩
  exact .on ⟨_, _, _, hnamed, rfl⟩ (.last ⟨_, _, _, hidle, rfl⟩)

theorem queryProcesses_listedBytes :
    ∃ _ : ℕ, (queryProcesses someSystem (.ofContent fun _ => listedBytes 0x1000)
          (fun _ => 0x1000) true true).value
        = [namedProcess, idleProcess].map (ListedProcess.toProcess someSystem true)
      ∧ (queryProcesses someSystem (.ofContent fun _ => listedBytes 0x1000)
          (fun _ => 0x1000) true true).Safe :=
  queryProcesses_eq (Kernel.gives_ofContent _) (fun _ => by decide +kernel)
    fun _ => processesAt_listedBytes

end WinSys.SystemInfo
