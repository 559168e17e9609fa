import WinSys.Infra.Bytes
import WinSys.Infra.Reads

/-!
# PE image files

`PEFile::Parse` reads the headers and the section table of a file's bytes; `RvaToOffset` and
`ComputeChecksum` work on what it gives. Every access to the bytes is kept. A `size_t` is a natural
number whose arithmetic is reduced where it is used.
-/

namespace WinSys.PE

open Infra Reads

def sizeT (n : ℕ) : ℕ := n % 2 ^ 64

/-! ## reading the bytes -/

section Bytes

variable (data : Bytes)

/-- `At<T>` of a structure of a size: its bytes, or a null pointer. -/
def atOffset (size offset : ℕ) : Reads (Option Bytes) :=
  if sizeT offset > data.length ∨ data.length - sizeT offset < size then pure none
  else return some (← raw data (sizeT offset) size)

/-- `strnlen`, which reads up to the NUL. -/
def strnlen (offset count : ℕ) : Reads ℕ := do
  let length := (((data.drop offset).take count).takeWhile (· ≠ 0)).length
  let _ ← raw data offset (min (length + 1) count)
  return length

def stringAt (offset maxLength : ℕ) : Reads Bytes :=
  if sizeT offset ≥ data.length then pure []
  else do
    let available := min (data.length - sizeT offset) maxLength
    let length ← strnlen data (sizeT offset) available
    -- no NUL before the buffer's end: not a string
    if length = available ∧ available < maxLength then return []
    raw data (sizeT offset) length

end Bytes

/-! ## headers -/

structure PEDataDirectory where
  rva : UInt32
  size : UInt32
deriving DecidableEq, Repr

structure PEHeaders where
  is64 : Bool := false
  machine : UInt16 := 0
  numberOfSections : UInt16 := 0
  timeDateStamp : UInt32 := 0
  characteristics : UInt16 := 0
  linkerMajor : UInt8 := 0
  linkerMinor : UInt8 := 0
  entryPoint : UInt32 := 0
  imageBase : UInt64 := 0
  sectionAlignment : UInt32 := 0
  fileAlignment : UInt32 := 0
  osMajor : UInt16 := 0
  osMinor : UInt16 := 0
  subsystemMajor : UInt16 := 0
  subsystemMinor : UInt16 := 0
  sizeOfImage : UInt32 := 0
  sizeOfHeaders : UInt32 := 0
  checkSum : UInt32 := 0
  subsystem : UInt16 := 0
  dllCharacteristics : UInt16 := 0
  stackReserve : UInt64 := 0
  stackCommit : UInt64 := 0
  heapReserve : UInt64 := 0
  heapCommit : UInt64 := 0
  directories : List PEDataDirectory := []
deriving DecidableEq, Repr

structure PESection where
  name : Bytes
  virtualAddress : UInt32
  virtualSize : UInt32
  rawOffset : UInt32
  rawSize : UInt32
  characteristics : UInt32
deriving DecidableEq, Repr

structure PEFile where
  data : Bytes
  checksumOffset : ℕ
  headers : PEHeaders
  sections : List PESection
deriving DecidableEq, Repr

def maxSections : ℕ := 96

/-- `IMAGE_DOS_HEADER`: `e_magic` at 0, the signed `e_lfanew` at 0x3C. -/
def sizeOfDosHeader : ℕ := 64

def imageDosSignature : UInt16 := 0x5A4D

def imageNtSignature : UInt32 := 0x4550

def sizeOfFileHeader : ℕ := 20

def offsetOfCheckSum : ℕ := 64

def imageNtOptionalHdr64Magic : UInt16 := 0x20B

def imageNtOptionalHdr32Magic : UInt16 := 0x10B

def imageNumberOfDirectoryEntries : ℕ := 16

/-- What `IMAGE_OPTIONAL_HEADER32` and `IMAGE_OPTIONAL_HEADER64` have at places of their own. -/
structure OptionalLayout where
  is64 : Bool
  size : ℕ
  imageBase : Bytes → UInt64
  /-- The reserves and commits: their widths, and how they are read. -/
  width : ℕ
  reserve : Bytes → ℕ → UInt64
  numberOfRvaAndSizes : ℕ
  dataDirectory : ℕ

def optionalHeader64 : OptionalLayout where
  is64 := true
  size := 240
  imageBase o := u64At o 24
  width := 8
  reserve := u64At
  numberOfRvaAndSizes := 108
  dataDirectory := 112

def optionalHeader32 : OptionalLayout where
  is64 := false
  size := 224
  imageBase o := (u32At o 28).toUInt64
  width := 4
  reserve o offset := (u32At o offset).toUInt64
  numberOfRvaAndSizes := 92
  dataDirectory := 96

/-- `fill`, but for the directories. -/
def PEHeaders.fill (h : PEHeaders) (l : OptionalLayout) (o : Bytes) : PEHeaders :=
  { h with
    is64 := l.is64
    linkerMajor := u8At o 2
    linkerMinor := u8At o 3
    entryPoint := u32At o 16
    imageBase := l.imageBase o
    sectionAlignment := u32At o 32
    fileAlignment := u32At o 36
    osMajor := u16At o 40
    osMinor := u16At o 42
    subsystemMajor := u16At o 48
    subsystemMinor := u16At o 50
    sizeOfImage := u32At o 56
    sizeOfHeaders := u32At o 60
    checkSum := u32At o offsetOfCheckSum
    subsystem := u16At o 68
    dllCharacteristics := u16At o 70
    stackReserve := l.reserve o 72
    stackCommit := l.reserve o (72 + l.width)
    heapReserve := l.reserve o (72 + 2 * l.width)
    heapCommit := l.reserve o (72 + 3 * l.width) }

/-- The directories the header has room for, at most 16. -/
def directoryCount (l : OptionalLayout) (o : Bytes) (optionalSize : ℕ) : ℕ :=
  let room := if optionalSize > l.dataDirectory then (optionalSize - l.dataDirectory) / 8 else 0
  min (min (u32At o l.numberOfRvaAndSizes).toNat room) imageNumberOfDirectoryEntries

/-- `IMAGE_SECTION_HEADER` -/
def PESection.read (s : Bytes) : PESection where
  name := (s.take 8).takeWhile (· ≠ 0)
  virtualAddress := u32At s 12
  virtualSize := u32At s 8
  rawOffset := u32At s 20
  rawSize := u32At s 16
  characteristics := u32At s 36

section Parse

variable (data : Bytes)

/-- `directory[i]`, not through `At`. -/
def readDirectory (directory i : ℕ) : Reads (Turn PEDataDirectory) := do
  let d ← raw data (directory + 8 * i) 8
  return .add ⟨u32At d 0, u32At d 4⟩

def readSection (sectionOffset i : ℕ) : Reads (Turn PESection) := do
  match ← atOffset data 40 (sectionOffset + i * 40) with
  | none => return .stop
  | some s => return .add (PESection.read s)

/-- The headers from the optional header on. -/
def parseOptional (l : OptionalLayout) (fileHeader : Bytes) (optionalOffset : ℕ) :
    Reads (Option PEFile) := do
  let some o ← atOffset data l.size optionalOffset | return none
  let h : PEHeaders := {
    machine := u16At fileHeader 0
    numberOfSections := u16At fileHeader 2
    timeDateStamp := u32At fileHeader 4
    characteristics := u16At fileHeader 18 }
  let optionalSize := (u16At fileHeader 16).toNat
  let directories ← collect (readDirectory data (optionalOffset + l.dataDirectory))
    (directoryCount l o optionalSize) 0
  let sections ← collect (readSection data (optionalOffset + optionalSize))
    (min h.numberOfSections.toNat maxSections) 0
  return some {
    data := data
    checksumOffset := optionalOffset + offsetOfCheckSum
    headers := { h.fill l o with directories := directories }
    sections := sections }

/-- `none` sets the last error to `ERROR_BAD_EXE_FORMAT`. -/
def parse : Reads (Option PEFile) := do
  let some dos ← atOffset data sizeOfDosHeader 0 | return none
  let lfanew := u32At dos 0x3C
  if u16At dos 0 ≠ imageDosSignature ∨ lfanew ≥ 0x80000000 then return none
  let ntOffset := lfanew.toNat
  let signature ← atOffset data 4 ntOffset
  let fileHeader ← atOffset data sizeOfFileHeader (ntOffset + 4)
  let some signature := signature | return none
  if u32At signature 0 ≠ imageNtSignature then return none
  let some fileHeader := fileHeader | return none
  let optionalOffset := ntOffset + 4 + sizeOfFileHeader
  let some magic ← atOffset data 2 optionalOffset | return none
  if u16At magic 0 = imageNtOptionalHdr64Magic then
    parseOptional data optionalHeader64 fileHeader optionalOffset
  else if u16At magic 0 = imageNtOptionalHdr32Magic then
    parseOptional data optionalHeader32 fileHeader optionalOffset
  else return none

def maxFileSize : ℕ := 2 ^ 30

/-- `Load` of a file that can be read. -/
def load : Reads (Option PEFile) :=
  if data.length < sizeOfDosHeader ∨ data.length > maxFileSize then pure none else parse data

end Parse

/-! ## addresses -/

namespace PESection

variable (s : PESection) (rva : UInt32)

/-- The bytes of the file that are mapped. -/
def mappedSize : UInt32 := if s.virtualSize ≠ 0 then min s.virtualSize s.rawSize else s.rawSize

/-- The loader rounds the raw offset down to 512 bytes. -/
def raw : UInt32 := s.rawOffset &&& ~~~0x1FF

def contains : Bool := rva ≥ s.virtualAddress && rva - s.virtualAddress < s.mappedSize

end PESection

namespace PEFile

variable (pe : PEFile)

def rvaToOffset (rva : UInt32) : Option UInt32 :=
  if rva < pe.headers.sizeOfHeaders ∧ rva.toNat < pe.data.length then some rva
  else
    match pe.sections.find? (·.contains rva) with
    | some s =>
      let offset := s.raw.toNat + (rva - s.virtualAddress).toNat
      if offset < pe.data.length then some offset.toUInt32 else none
    | none => none

def stringAtRva (rva : UInt32) (maxLength : ℕ) : Reads Bytes :=
  match pe.rvaToOffset rva with
  | some offset => stringAt pe.data offset.toNat maxLength
  | none => pure []

/-! ## the checksum -/

/-- The carries of a sum come in again below. -/
def fold (sum : ℕ) : ℕ := sum % 0x10000 + sum / 0x10000

/-- A word is added, unless it is at the checksum field. -/
def addWord (sum i : ℕ) : Reads ℕ :=
  if i ≥ pe.checksumOffset ∧ i < pe.checksumOffset + 4 then pure sum
  else do
    let word ← Reads.raw pe.data i 2
    return fold (sum + (u16 word).toNat)

/-- The odd byte at the end, if there is one. -/
def lastByte : Reads ℕ :=
  if pe.data.length % 2 = 1 then do
    let last ← Reads.raw pe.data (pe.data.length - 1) 1
    return (u8At last 0).toNat
  else pure 0

def computeChecksum : Reads UInt32 := do
  let size := pe.data.length
  let sum ← ((List.range (size / 2)).map (2 * ·)).foldlM pe.addWord 0
  let sum := sum + (← pe.lastByte)
  return (fold (fold sum) + size).toUInt32

end PEFile

end WinSys.PE
