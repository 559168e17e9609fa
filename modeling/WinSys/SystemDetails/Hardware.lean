import Mathlib.Data.List.DropRight
import WinSys.Infra.Bytes
import WinSys.Infra.Reads
import WinSys.Infra.Wide

/-!
# Hardware details from the SMBIOS tables

`SystemDetails::GetHardware` goes over the firmware's table structure by structure. A structure is a
formatted area, whose second byte is its length, and strings; where it ends is found by scanning
these. Every access to the buffer is kept.

* `readStrings`, `walk`: the structures visited
* `addStructure`: what each adds to the details
* `safe_getHardware`: no access is outside the buffer
-/

namespace WinSys.SystemDetails

open Infra Reads

/-! ## texts -/

/-- The system's ANSI code page, of which all have ASCII. -/
structure CodePage where
  toWide : Bytes → WString
  ascii : ∀ text : Bytes, (∀ b ∈ text, b < 0x80) → toWide text = text.map UInt8.toUInt16

/-- The text without the spaces around it and the NULs behind it. -/
def trimPadding (text : Bytes) : Bytes :=
  (text.rdropWhile fun b => b = 0x20 ∨ b = 0).dropWhile fun b => b = 0x20

def fromAnsi (codePage : CodePage) (text : Bytes) : WString :=
  let text := trimPadding text
  if text = [] then [] else codePage.toWide text

/-- What boards ship with for strings nobody filled in. -/
def placeholders : List WString := [
  wide "Default string", wide "To Be Filled By O.E.M.", wide "To be filled by O.E.M.",
  wide "Not Specified", wide "Not Applicable", wide "System Product Name",
  wide "System manufacturer", wide "System Version", wide "Unknown", wide "None", wide "N/A",
  wide "0123456789"]

/-- `_wcsicmp(text.c_str(), placeholder) == 0` for one of them. -/
def isPlaceholder (text : WString) : Bool :=
  placeholders.any fun p => (text.takeWhile (· ≠ 0)).map foldCase == p.map foldCase

/-! ## structures -/

/-- A structure's formatted area and its strings. -/
structure SmbiosStructure where
  data : Bytes
  strings : List Bytes
deriving DecidableEq, Repr

namespace SmbiosStructure

variable (s : SmbiosStructure)

def type : UInt8 := u8At s.data 0

def byte (offset : ℕ) : UInt8 := if offset < s.data.length then u8At s.data offset else 0

def word (offset : ℕ) : UInt16 := if offset + 2 ≤ s.data.length then u16At s.data offset else 0

def dword (offset : ℕ) : UInt32 := if offset + 4 ≤ s.data.length then u32At s.data offset else 0

/-- The string whose number, from one on, is at an offset. -/
def string (codePage : CodePage) (offset : ℕ) : WString :=
  let index := (s.byte offset).toNat
  if index = 0 ∨ index > s.strings.length then []
  else
    let text := fromAnsi codePage (s.strings.getD (index - 1) [])
    if isPlaceholder text then [] else text

end SmbiosStructure

def memoryTypeName (type : UInt8) : WString :=
  match type with
  | 0x03 => wide "DRAM"
  | 0x0F => wide "SDRAM"
  | 0x11 => wide "RDRAM"
  | 0x12 => wide "DDR"
  | 0x13 => wide "DDR2"
  | 0x14 => wide "DDR2 FB-DIMM"
  | 0x18 => wide "DDR3"
  | 0x19 => wide "FBD2"
  | 0x1A => wide "DDR4"
  | 0x1B => wide "LPDDR"
  | 0x1C => wide "LPDDR2"
  | 0x1D => wide "LPDDR3"
  | 0x1E => wide "LPDDR4"
  | 0x1F => wide "Logical non-volatile"
  | 0x20 => wide "HBM"
  | 0x21 => wide "HBM2"
  | 0x22 => wide "DDR5"
  | 0x23 => wide "LPDDR5"
  | 0x24 => wide "HBM3"
  | _ => []

def formFactorName (ff : UInt8) : WString :=
  match ff with
  | 0x03 => wide "SIMM"
  | 0x07 => wide "SIP"
  | 0x08 => wide "Chip"
  | 0x09 => wide "DIMM"
  | 0x0B => wide "Row of chips"
  | 0x0C => wide "RIMM"
  | 0x0D => wide "SODIMM"
  | 0x0F => wide "FB-DIMM"
  | 0x10 => wide "Die"
  | 0x11 => wide "CAMM"
  | _ => []

/-! ## details -/

structure MemoryModule where
  locator : WString := []
  bankLocator : WString := []
  manufacturer : WString := []
  partNumber : WString := []
  type : WString := []
  formFactor : WString := []
  /-- bytes -/
  size : UInt64 := 0
  /-- MT/s; 0 if unknown -/
  speed : UInt32 := 0
  configuredSpeed : UInt32 := 0
deriving DecidableEq, Repr

structure HardwareDetails where
  smbiosMajor : UInt8 := 0
  smbiosMinor : UInt8 := 0
  systemManufacturer : WString := []
  systemProduct : WString := []
  systemVersion : WString := []
  systemFamily : WString := []
  systemSku : WString := []
  biosVendor : WString := []
  biosVersion : WString := []
  biosDate : WString := []
  boardManufacturer : WString := []
  boardProduct : WString := []
  boardVersion : WString := []
  installedMemory : UInt64 := 0
  usableMemory : UInt64 := 0
  memorySlots : UInt32 := 0
  modules : List MemoryModule := []
deriving DecidableEq, Repr

section Structures

variable (codePage : CodePage)

/-- A memory device; none in an empty slot, or where that is unknown. -/
def memoryModule (s : SmbiosStructure) : Option MemoryModule :=
  let sz := s.word 0x0C
  if sz = 0 ∨ sz = 0xFFFF then none
  else
    let bytes :=
      if sz = 0x7FFF then (s.dword 0x1C &&& 0x7FFFFFFF).toUInt64 <<< 20
      else if sz &&& 0x8000 ≠ 0 then (sz &&& 0x7FFF).toUInt64 <<< 10
      else sz.toUInt64 <<< 20
    let speed := s.word 0x15
    let configuredSpeed := s.word 0x20
    some {
      size := bytes
      formFactor := formFactorName (s.byte 0x0E)
      locator := s.string codePage 0x10
      bankLocator := s.string codePage 0x11
      type := memoryTypeName (s.byte 0x12)
      speed := if speed = 0xFFFF then s.dword 0x54 else speed.toUInt32
      manufacturer := s.string codePage 0x17
      partNumber := s.string codePage 0x1A
      configuredSpeed := if configuredSpeed = 0xFFFF then s.dword 0x58 else configuredSpeed.toUInt32 }

/-- The `switch` over the structure's type. -/
def addStructure (hw : HardwareDetails) (s : SmbiosStructure) : HardwareDetails :=
  match s.type with
  | 0 => { hw with
      biosVendor := s.string codePage 0x04
      biosVersion := s.string codePage 0x05
      biosDate := s.string codePage 0x08 }
  | 1 => { hw with
      systemManufacturer := s.string codePage 0x04
      systemProduct := s.string codePage 0x05
      systemVersion := s.string codePage 0x06
      systemSku := s.string codePage 0x19
      systemFamily := s.string codePage 0x1A }
  | 2 =>
    if hw.boardManufacturer = [] ∧ hw.boardProduct = [] then
      { hw with
        boardManufacturer := s.string codePage 0x04
        boardProduct := s.string codePage 0x05
        boardVersion := s.string codePage 0x06 }
    else hw
  -- system memory only
  | 16 => if s.byte 0x05 = 0x03 then
      { hw with memorySlots := hw.memorySlots + (s.word 0x0D).toUInt32 }
    else hw
  | 17 => { hw with modules := hw.modules ++ (memoryModule codePage s).toList }
  | _ => hw

end Structures

/-! ## the walk -/

/-- The strings from `q` on, and where the scan ends: at an empty one, or at the end. -/
def readStrings (buffer : Bytes) (stop q : ℕ) : Reads (List Bytes × ℕ) :=
  if _hq : q < stop then do
    if (← raw buffer q 1) = [0] then return ([], q)
    else
      let text := ((buffer.take stop).drop q).takeWhile (· ≠ 0)
      let _ ← raw buffer q (min (text.length + 1) (stop - q))
      let (strings, q) ← readStrings buffer stop (q + (text.length + 1))
      return (text :: strings, q)
  else return ([], q)
termination_by stop - q

variable {buffer : Bytes} {stop : ℕ}

/-- The scan goes forward. -/
theorem le_readStrings (q : ℕ) : q ≤ (readStrings buffer stop q).value.2 := by
  induction q using readStrings.induct buffer stop with
  | case1 q hq ih =>
    rw [readStrings, dif_pos hq, value_bind]
    split
    · exact le_rfl
    · exact (Nat.le_add_right _ _).trans ih
  | case2 q hq =>
    rw [readStrings, dif_neg hq]
    exact le_rfl

/-- The structure at `p` with an area of so many bytes, and where the next one is; none, if not all
of the area is there. -/
def readParts (buffer : Bytes) (stop p length : ℕ) : Reads (Option (SmbiosStructure × ℕ)) :=
  if length < 4 ∨ p + length > stop then return none
  else do
    let data ← raw buffer p length
    let (strings, q) ← readStrings buffer stop (p + length)
    -- without strings there are two terminators; before the end the scan stops at one
    let next := if q < stop ∧ q = p + length then q + 2 else q + 1
    return some (⟨data, strings⟩, next)

def readStructure (buffer : Bytes) (stop p : ℕ) : Reads (Option (SmbiosStructure × ℕ)) :=
  if p + 4 ≤ stop then do
    readParts buffer stop p (u8At (← raw buffer (p + 1) 1) 0).toNat
  else return none

/-- The next structure is behind this one. -/
theorem readStructure_lt {p next : ℕ} {s : SmbiosStructure}
    (h : (readStructure buffer stop p).value = some (s, next)) : stop - next < stop - p := by
  unfold readStructure at h
  split at h
  · next hp =>
    rw [value_bind] at h
    unfold readParts at h
    split at h
    · cases h
    · simp only [value_bind, value_pure, Option.some.injEq, Prod.mk.injEq] at h
      obtain ⟨-, rfl⟩ := h
      have hle := @le_readStrings buffer stop (p + (u8At (raw buffer (p + 1) 1).value 0).toNat)
      split <;> omega
  · cases h

/-- The structures from `p` on, up to the end of the table. -/
def walk (buffer : Bytes) (stop p : ℕ) : Reads (List SmbiosStructure) :=
  match _h : (readStructure buffer stop p).value with
  | none => do
    let _ ← readStructure buffer stop p
    return []
  | some (s, next) => do
    let _ ← readStructure buffer stop p
    if s.type = 127 then return [s] else return s :: (← walk buffer stop next)
termination_by stop - p
decreasing_by exact readStructure_lt _h

/-! ## the details -/

/-- What the system answers. -/
structure Answers where
  /-- `GetPhysicallyInstalledSystemMemory` -/
  installedKB : Option UInt64 := none
  /-- the number of physical pages and the page size -/
  basic : Option (UInt32 × UInt32) := none
  /-- `GetSystemFirmwareTable` for the SMBIOS tables; none, if it doesn't give what it said -/
  table : Option Bytes := none

/-- The structures in a buffer: calling method, major, minor, DMI revision, length, the tables. -/
def readTables (buffer : Bytes) : Reads (List SmbiosStructure) := do
  let length := (u32At (← raw buffer 4 4) 0).toNat
  walk buffer (8 + if length < buffer.length - 8 then length else buffer.length - 8) 8

def getHardware (codePage : CodePage) (answers : Answers) : Reads HardwareDetails :=
  let hw : HardwareDetails := {
    installedMemory := (answers.installedKB.map (· * 1024)).getD 0
    usableMemory := (answers.basic.map fun (pages, size) => pages.toUInt64 * size.toUInt64).getD 0 }
  match answers.table with
  | none => return hw
  | some buffer =>
    if buffer.length < 8 then return hw
    else do
      let version ← raw buffer 1 2
      let structures ← readTables buffer
      return structures.foldl (addStructure codePage)
        { hw with smbiosMajor := u8At version 0, smbiosMinor := u8At version 1 }

/-! ## no access is outside -/

theorem safe_readStrings (hstop : stop ≤ buffer.length) (q : ℕ) :
    (readStrings buffer stop q).Safe := by
  induction q using readStrings.induct buffer stop with
  | case1 q hq ih =>
    rw [readStrings, dif_pos hq, safe_bind, safe_raw]
    refine ⟨by omega, ?_⟩
    split
    · exact safe_pure _
    · simp only [safe_bind, safe_raw, safe_pure, and_true]
      exact ⟨by omega, ih⟩
  | case2 q hq =>
    rw [readStrings, dif_neg hq]
    exact safe_pure _

theorem safe_readStructure (hstop : stop ≤ buffer.length) (p : ℕ) :
    (readStructure buffer stop p).Safe := by
  unfold readStructure
  split
  · next hp =>
    rw [safe_bind, safe_raw]
    refine ⟨by omega, ?_⟩
    unfold readParts
    split
    · exact safe_pure _
    · next hlength =>
      simp only [safe_bind, safe_raw, safe_pure, and_true]
      exact ⟨by omega, safe_readStrings hstop _⟩
  · exact safe_pure _

theorem walk_none {p : ℕ} (h : (readStructure buffer stop p).value = none) :
    walk buffer stop p = (do let _ ← readStructure buffer stop p; return []) := by
  rw [walk]
  split
  · rfl
  · next hsome => exact absurd (h.symm.trans hsome) nofun

theorem walk_some {p next : ℕ} {s : SmbiosStructure}
    (h : (readStructure buffer stop p).value = some (s, next)) :
    walk buffer stop p = (do
      let _ ← readStructure buffer stop p
      if s.type = 127 then return [s] else return s :: (← walk buffer stop next)) := by
  rw [walk]
  split
  · next hnone => exact absurd (h.symm.trans hnone) nofun
  · next s' next' hsome =>
    cases h.symm.trans hsome
    rfl

theorem safe_walk (hstop : stop ≤ buffer.length) (p : ℕ) : (walk buffer stop p).Safe := by
  induction p using walk.induct buffer stop with
  | case1 p hnone =>
    rw [walk_none hnone]
    exact (safe_bind _ _).mpr ⟨safe_readStructure hstop p, safe_pure _⟩
  | case2 p s next hsome ih =>
    rw [walk_some hsome]
    refine (safe_bind _ _).mpr ⟨safe_readStructure hstop p, ?_⟩
    split
    · exact safe_pure _
    · exact (safe_bind _ _).mpr ⟨ih, safe_pure _⟩

/-- **No access is outside the buffer**, whatever is in it. -/
theorem safe_getHardware (codePage : CodePage) (answers : Answers) :
    (getHardware codePage answers).Safe := by
  unfold getHardware
  dsimp only
  split
  · exact safe_pure _
  · next buffer _ =>
    split
    · exact safe_pure _
    · next hlength =>
      simp only [readTables, safe_bind, safe_raw, safe_pure, and_true]
      refine ⟨by omega, by omega, safe_walk ?_ 8⟩
      split <;> omega

end WinSys.SystemDetails
