import WinSys.PE.Headers
import WinSys.Infra.Wide

/-!
# What a PE image's directories hold

Imports, exports, debug entries, resources and the CLR header, read from the file on each call.
-/

namespace WinSys.PE

open Infra Reads

def maxLibraries : ℕ := 4096

def maxThunks : ℕ := 2 ^ 16

def maxExports : ℕ := 2 ^ 20

def maxResources : ℕ := 2 ^ 16

def maxDebugEntries : ℕ := 64

def maxIcons : ℕ := 256

def maxString : ℕ := 512

def imageDirectoryEntryExport : ℕ := 0

def imageDirectoryEntryImport : ℕ := 1

def imageDirectoryEntryResource : ℕ := 2

def imageDirectoryEntryDebug : ℕ := 6

def imageDirectoryEntryDelayImport : ℕ := 13

def imageDirectoryEntryComDescriptor : ℕ := 14

structure PEImportedFunction where
  name : Bytes := []
  hint : UInt16 := 0
  ordinal : UInt16 := 0
  byOrdinal : Bool := false
deriving DecidableEq, Repr

structure PEImportedLibrary where
  name : Bytes
  delayed : Bool := false
  functions : List PEImportedFunction
deriving DecidableEq, Repr

structure PEExportedFunction where
  name : Bytes
  ordinal : UInt32
  rva : UInt32
  forwarder : Bytes := []
deriving DecidableEq, Repr

structure PEExports where
  name : Bytes
  base : UInt32
  functions : List PEExportedFunction := []
deriving DecidableEq, Repr

structure PEDebugEntry where
  type : UInt32
  timeDateStamp : UInt32
  size : UInt32
  rva : UInt32
  rawOffset : UInt32
  value : UInt32 := 0
deriving DecidableEq, Repr

structure PECodeView where
  signature : Bytes
  age : UInt32
  pdbPath : Bytes
deriving DecidableEq, Repr

structure PEResource where
  typeId : UInt16
  type : WString
  nameId : UInt16
  name : WString
  language : UInt16
  rva : UInt32
  size : UInt32
  codePage : UInt32
deriving DecidableEq, Repr

structure PEIconEntry where
  width : UInt32
  height : UInt32
  bitCount : UInt16
  colorCount : UInt8
  size : UInt32
  iconId : UInt16
deriving DecidableEq, Repr

structure PEDotNet where
  runtimeMajor : UInt16
  runtimeMinor : UInt16
  flags : UInt32
  entryPointToken : UInt32
  metadataRva : UInt32
  metadataSize : UInt32
  metadataVersion : Bytes := []
deriving DecidableEq, Repr

namespace PEFile

variable (pe : PEFile)

/-- The directory of an index, if the header has it and it is somewhere. -/
def directory (index : ℕ) : Option PEDataDirectory :=
  pe.headers.directories[index]?.filter (·.rva ≠ 0)

/-! ## imports -/

/-- A thunk of the image's width, extended to 64 bits. -/
def readThunk (offset i : ℕ) : Reads (Option UInt64) :=
  if pe.headers.is64 then do
    let p ← atOffset pe.data 8 (offset + i * 8)
    return p.map (u64At · 0)
  else do
    let p ← atOffset pe.data 4 (offset + i * 4)
    return p.map fun p => (u32At p 0).toUInt64

/-- `IMAGE_ORDINAL_FLAG64` or `IMAGE_ORDINAL_FLAG32`. -/
def byOrdinal (thunk : UInt64) : Bool :=
  thunk &&& (if pe.headers.is64 then 0x8000000000000000 else 0x80000000) ≠ 0

/-- `IMAGE_IMPORT_BY_NAME`: the hint, then the name. -/
def importByName (rva : UInt32) : Reads PEImportedFunction :=
  match pe.rvaToOffset rva with
  | none => pure {}
  | some nameOffset => do
    let some hint ← atOffset pe.data 2 nameOffset.toNat | return {}
    let name ← stringAt pe.data (nameOffset.toNat + 2) maxString
    return { hint := u16At hint 0, name := name }

def readThunks.turn (offset i : ℕ) : Reads (Turn PEImportedFunction) := do
  let some thunk ← pe.readThunk offset i | return .stop
  if thunk = 0 then return .stop
  if pe.byOrdinal thunk then return .add { byOrdinal := true, ordinal := thunk.toUInt16 }
  else return .add (← pe.importByName thunk.toUInt32)

def readThunks (rva : UInt32) : Reads (List PEImportedFunction) :=
  match pe.rvaToOffset rva with
  | none => pure []
  | some offset => collect (readThunks.turn pe offset.toNat) maxThunks 0

/-- `IMAGE_IMPORT_DESCRIPTOR`: `OriginalFirstThunk` at 0, `Name` at 12, `FirstThunk` at 16. -/
def readImport (offset i : ℕ) : Reads (Turn PEImportedLibrary) := do
  let some d ← atOffset pe.data 20 (offset + i * 20) | return .stop
  if u32At d 12 = 0 ∧ u32At d 16 = 0 then return .stop
  let name ← pe.stringAtRva (u32At d 12) maxString
  -- the name table, else the address table, which holds the same before binding
  let functions ← pe.readThunks (if u32At d 0 ≠ 0 then u32At d 0 else u32At d 16)
  return .add { name := name, functions := functions }

/-- Old (VC6) descriptors hold addresses, not RVAs. -/
def toRva (d : Bytes) (value : UInt32) : UInt32 :=
  if u32At d 0 &&& 1 ≠ 0 ∨ value = 0 then value
  else if value.toUInt64 ≥ pe.headers.imageBase then
    (value.toUInt64 - pe.headers.imageBase).toUInt32
  else 0

/-- `IMAGE_DELAYLOAD_DESCRIPTOR`: `DllNameRVA` at 4, `ImportNameTableRVA` at 16. -/
def readDelayImport (offset i : ℕ) : Reads (Turn PEImportedLibrary) := do
  let some d ← atOffset pe.data 32 (offset + i * 32) | return .stop
  if u32At d 4 = 0 then return .stop
  let name ← pe.stringAtRva (pe.toRva d (u32At d 4)) maxString
  let functions ← pe.readThunks (pe.toRva d (u32At d 16))
  return .add { delayed := true, name := name, functions := functions }

/-- The libraries of one of the two directories. -/
def readLibraries (index : ℕ) (read : ℕ → ℕ → Reads (Turn PEImportedLibrary)) :
    Reads (List PEImportedLibrary) :=
  match (pe.directory index).bind fun d => pe.rvaToOffset d.rva with
  | none => pure []
  | some offset => collect (read offset.toNat) maxLibraries 0

def getImports : Reads (List PEImportedLibrary) := do
  let libraries ← pe.readLibraries imageDirectoryEntryImport pe.readImport
  let delayed ← pe.readLibraries imageDirectoryEntryDelayImport pe.readDelayImport
  return libraries ++ delayed

/-! ## exports -/

/-- `names[index] = StringAtRva(nameRva)`, for the names from `i` on. -/
def readNames (namesOffset ordinalsOffset : ℕ) : ℕ → ℕ → List Bytes → Reads (List Bytes)
  | 0, _, names => pure names
  | turns + 1, i, names => do
    let nameRva ← atOffset pe.data 4 (namesOffset + i * 4)
    let index ← atOffset pe.data 2 (ordinalsOffset + i * 2)
    match nameRva, index with
    | some nameRva, some index =>
      let index := (u16At index 0).toNat
      if index < names.length then
        let name ← pe.stringAtRva (u32At nameRva 0) maxString
        readNames namesOffset ordinalsOffset turns (i + 1) (names.set index name)
      else readNames namesOffset ordinalsOffset turns (i + 1) names
    | _, _ => return names

/-- The names, by function index. -/
def exportNames (e : Bytes) (count : ℕ) : Reads (List Bytes) :=
  let names := List.replicate count []
  match pe.rvaToOffset (u32At e 32), pe.rvaToOffset (u32At e 36) with
  | some namesOffset, some ordinalsOffset =>
    pe.readNames namesOffset.toNat ordinalsOffset.toNat (min (u32At e 24).toNat maxExports) 0 names
  | _, _ => pure names

/-- An RVA inside the export directory is a forwarder's string. -/
def forwarder (dir : PEDataDirectory) (rva : UInt32) : Reads Bytes :=
  if rva ≥ dir.rva ∧ rva - dir.rva < dir.size then pe.stringAtRva rva maxString else pure []

def readExport (dir : PEDataDirectory) (base : UInt32) (functionsOffset : ℕ) (names : List Bytes)
    (i : ℕ) : Reads (Turn PEExportedFunction) := do
  let some rva ← atOffset pe.data 4 (functionsOffset + i * 4) | return .stop
  let rva := u32At rva 0
  -- a gap in the ordinals
  if rva = 0 then return .skip
  let name ← raw names i 1
  let forwarder ← pe.forwarder dir rva
  return .add {
    ordinal := base + i.toUInt32
    rva := rva
    name := name.headD []
    forwarder := forwarder }

/-- `IMAGE_EXPORT_DIRECTORY`: `Name` at 12, `Base` at 16, `NumberOfFunctions` at 20, `NumberOfNames`
at 24, `AddressOfFunctions` at 28, `AddressOfNames` at 32, `AddressOfNameOrdinals` at 36. -/
def readExports (dir : PEDataDirectory) (e : Bytes) : Reads PEExports := do
  let name ← pe.stringAtRva (u32At e 12) maxString
  let exports : PEExports := { name := name, base := u32At e 16 }
  let count := min (u32At e 20).toNat maxExports
  match pe.rvaToOffset (u32At e 28) with
  | none => return exports
  | some functionsOffset =>
    let names ← pe.exportNames e count
    let functions ← collect (pe.readExport dir exports.base functionsOffset.toNat names) count 0
    return { exports with functions := functions }

def getExports : Reads (Option PEExports) := do
  let some dir := pe.directory imageDirectoryEntryExport | return none
  let some offset := pe.rvaToOffset dir.rva | return none
  let some e ← atOffset pe.data 40 offset.toNat | return none
  return some (← pe.readExports dir e)

/-! ## the debug directory -/

/-- `IMAGE_DEBUG_TYPE_EX_DLLCHARACTERISTICS` -/
def imageDebugTypeExDllCharacteristics : UInt32 := 20

def imageDebugTypeCodeView : UInt32 := 2

/-- `IMAGE_DEBUG_DIRECTORY` -/
def readDebugEntry (offset i : ℕ) : Reads (Turn PEDebugEntry) := do
  let some d ← atOffset pe.data 28 (offset + i * 28) | return .stop
  let e : PEDebugEntry := {
    type := u32At d 12
    timeDateStamp := u32At d 4
    size := u32At d 16
    rva := u32At d 20
    rawOffset := u32At d 24 }
  if e.type = imageDebugTypeExDllCharacteristics ∧ e.size ≥ 4 then
    let value ← atOffset pe.data 4 e.rawOffset.toNat
    return .add { e with value := (value.map (u32At · 0)).getD 0 }
  else return .add e

def getDebugEntries : Reads (List PEDebugEntry) := do
  let some dir := pe.directory imageDirectoryEntryDebug | return []
  let some offset := pe.rvaToOffset dir.rva | return []
  collect (pe.readDebugEntry offset.toNat) (min (dir.size.toNat / 28) maxDebugEntries) 0

/-- The record of an entry: "RSDS", the GUID, the age, then the PDB's path. -/
def readCodeView (e : PEDebugEntry) : Reads (Option PECodeView) := do
  if e.type ≠ imageDebugTypeCodeView ∨ e.size < 24 then return none
  let magic ← atOffset pe.data 4 e.rawOffset.toNat
  let guid ← atOffset pe.data 16 (e.rawOffset.toNat + 4)
  let age ← atOffset pe.data 4 (e.rawOffset.toNat + 20)
  match magic, guid, age with
  | some magic, some guid, some age =>
    if u32At magic 0 ≠ 0x53445352 then return none
    let path ← stringAt pe.data (e.rawOffset.toNat + 24) (min (e.size.toNat - 24) 1024)
    return some { signature := guid, age := u32At age 0, pdbPath := path }
  | _, _, _ => return none

/-- The first entry that has one. -/
def findCodeView : List PEDebugEntry → Reads (Option PECodeView)
  | [] => pure none
  | e :: entries => do
    match ← pe.readCodeView e with
    | some cv => return some cv
    | none => findCodeView entries

def getCodeView : Reads (Option PECodeView) := do
  pe.findCodeView (← pe.getDebugEntries)

/-! ## resources -/

/-- An entry of a resource directory: a name or an ID, and where its directory or data is. -/
structure Entry where
  id : UInt16 := 0
  name : WString := []
  offset : UInt32
  directory : Bool

/-- `IMAGE_RESOURCE_DIR_STRING_U`: a length in characters, then the name. -/
def readEntryName (base nameOffset : UInt32) : Reads WString := do
  let some length ← atOffset pe.data 2 (base + nameOffset).toNat | return []
  let length := (u16At length 0).toNat
  let chars := sizeT ((base + nameOffset).toNat + 2)
  if sizeT (chars + length * 2) ≤ pe.data.length then return units (← raw pe.data chars (length * 2))
  else return []

/-- `IMAGE_RESOURCE_DIRECTORY_ENTRY`: two words, the top bit of each apart. -/
def readEntry (base offset : UInt32) (i : ℕ) : Reads (Turn Entry) := do
  let some e ← atOffset pe.data 8 ((base + offset).toNat + 16 + i * 8) | return .stop
  let entry : Entry := {
    offset := u32At e 4 &&& 0x7FFFFFFF
    directory := u32At e 4 &&& 0x80000000 ≠ 0 }
  if u32At e 0 &&& 0x80000000 ≠ 0 then
    let name ← pe.readEntryName base (u32At e 0 &&& 0x7FFFFFFF)
    return .add { entry with name := name }
  else return .add { entry with id := u16At e 0 }

/-- `IMAGE_RESOURCE_DIRECTORY`: `NumberOfNamedEntries` at 12, `NumberOfIdEntries` at 14. -/
def entries (base offset : UInt32) : Reads (List Entry) := do
  let some dir ← atOffset pe.data 16 (base + offset).toNat | return []
  collect (pe.readEntry base offset)
    (min ((u16At dir 12).toNat + (u16At dir 14).toNat) 4096) 0

/-- `IMAGE_RESOURCE_DATA_ENTRY` -/
def addLanguage (base : UInt32) (type name : Entry) (resources : List PEResource) (language : Entry) :
    Reads (List PEResource) := do
  if language.directory ∨ resources.length ≥ maxResources then return resources
  let some data ← atOffset pe.data 16 (base + language.offset).toNat | return resources
  return resources ++ [{
    typeId := type.id
    type := type.name
    nameId := name.id
    name := name.name
    language := language.id
    rva := u32At data 0
    size := u32At data 4
    codePage := u32At data 8 }]

def addName (base : UInt32) (type : Entry) (resources : List PEResource) (name : Entry) :
    Reads (List PEResource) := do
  if name.directory then
    (← pe.entries base name.offset).foldlM (pe.addLanguage base type name) resources
  else return resources

def addType (base : UInt32) (resources : List PEResource) (type : Entry) : Reads (List PEResource) := do
  if type.directory then
    (← pe.entries base type.offset).foldlM (pe.addName base type) resources
  else return resources

/-- Three levels: type, name, language. -/
def getResources : Reads (List PEResource) := do
  let some dir := pe.directory imageDirectoryEntryResource | return []
  let some base := pe.rvaToOffset dir.rva | return []
  (← pe.entries base 0).foldlM (pe.addType base) []

def getResourceData (resource : PEResource) : Reads Bytes :=
  match pe.rvaToOffset resource.rva with
  | none => pure []
  | some offset =>
    if resource.size = 0 ∨ offset.toNat > pe.data.length
        ∨ pe.data.length - offset.toNat < resource.size.toNat then pure []
    else raw pe.data offset.toNat resource.size.toNat

/-- `RT_GROUP_ICON` -/
def rtGroupIcon : UInt16 := 14

section Icons

variable (data : Bytes)

def word (offset : ℕ) : Reads UInt16 := do
  return u16 (← raw data offset 2)

def dword (offset : ℕ) : Reads UInt32 := do
  return (← word data offset).toUInt32 ||| ((← word data (offset + 2)).toUInt32 <<< 16)

def byte (offset : ℕ) : Reads UInt8 := do
  return u8At (← raw data offset 1) 0

/-- The size that is stored as 0. -/
def iconSize (n : UInt8) : UInt32 := if n ≠ 0 then n.toUInt32 else 256

/-- `GRPICONDIRENTRY`, packed -/
def readIcon (i : ℕ) : Reads (Turn PEIconEntry) := do
  let offset := 6 + i * 14
  if offset + 14 > data.length then return .stop
  return .add {
    width := iconSize (← byte data offset)
    height := iconSize (← byte data (offset + 1))
    colorCount := ← byte data (offset + 2)
    bitCount := ← word data (offset + 6)
    size := ← dword data (offset + 8)
    iconId := ← word data (offset + 12) }

end Icons

/-- `GRPICONDIR`: reserved, type (1: icons), count; then the entries. -/
def getIconGroup (group : PEResource) : Reads (List PEIconEntry) := do
  if group.typeId ≠ rtGroupIcon then return []
  let data ← pe.getResourceData group
  if data.length < 6 then return []
  if (← word data 2) ≠ 1 then return []
  collect (readIcon data) (min (← word data 4).toNat maxIcons) 0

/-! ## the CLR header -/

/-- The version string of the metadata's root: "BSJB", versions, a reserved field, the string's
length, the string. -/
def metadataVersion (rva : UInt32) : Reads Bytes := do
  let some root := pe.rvaToOffset rva | return []
  let signature ← atOffset pe.data 4 root.toNat
  let length ← atOffset pe.data 4 (root + 12).toNat
  match signature, length with
  | some signature, some length =>
    let length := (u32At length 0).toNat
    if u32At signature 0 = 0x424A5342 ∧ length > 0 ∧ length ≤ 256 then
      stringAt pe.data (root + 16).toNat length
    else return []
  | _, _ => return []

def sizeOfCor20Header : ℕ := 72

/-- `IMAGE_COR20_HEADER` -/
def getDotNet : Reads (Option PEDotNet) := do
  let some dir := pe.directory imageDirectoryEntryComDescriptor | return none
  let some offset := pe.rvaToOffset dir.rva | return none
  let some cor ← atOffset pe.data sizeOfCor20Header offset.toNat | return none
  if (u32At cor 0).toNat < sizeOfCor20Header then return none
  return some {
    runtimeMajor := u16At cor 4
    runtimeMinor := u16At cor 6
    flags := u32At cor 16
    entryPointToken := u32At cor 20
    metadataRva := u32At cor 8
    metadataSize := u32At cor 12
    metadataVersion := ← pe.metadataVersion (u32At cor 8) }

end PEFile

end WinSys.PE
