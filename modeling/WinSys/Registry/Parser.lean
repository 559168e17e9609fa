import WinSys.Infra.Fields
import WinSys.Registry.Event

/-!
# The payload of a registry event

`RegistryIoParser::Parse` reads an event's fields by its ID.

* `parse`
* `Layout`: the payloads
* `parse_take`: what is read of a payload that is cut
-/

namespace WinSys.Registry

open Infra FieldReader

/-! ## the parser -/

def pointer (pointerSize : ℕ) : FieldReader UInt64 := do
  return (← number pointerSize).toUInt64

def uint32 : FieldReader UInt32 := do
  return (← number 4).toUInt32

def RegistryOperation.id : RegistryOperation → UInt16
  | none => 0
  | createKey => 1
  | openKey => 2
  | deleteKey => 3
  | queryKey => 4
  | setValue => 5
  | deleteValue => 6
  | queryValue => 7
  | enumerateKey => 8
  | enumerateValue => 9
  | queryMultipleValues => 10
  | setKeyInformation => 11
  | flushKey => 12
  | closeKey => 13
  | querySecurity => 14
  | setSecurity => 15

/-- The operations that events have. -/
def RegistryOperation.all : List RegistryOperation :=
  [.createKey, .openKey, .deleteKey, .queryKey, .setValue, .deleteValue, .queryValue, .enumerateKey,
    .enumerateValue, .queryMultipleValues, .setKeyInformation, .flushKey, .closeKey, .querySecurity,
    .setSecurity]

/-- The two parts of a key's name. -/
def joinName (base relative : WString) : WString :=
  if base = [] then relative
  else if relative = [] then base
  else base ++ backslash :: relative

/-- `CreateKey`, `OpenKey`: BaseObject, KeyObject, Status, Disposition, BaseName, RelativeName. -/
def readOpen (op : RegistryOperation) (pointerSize : ℕ) : FieldReader RegistryEvent := do
  let baseObject ← pointer pointerSize
  let keyObject ← pointer pointerSize
  let status ← uint32
  let disposition ← uint32
  let base ← text
  let relative ← text
  return { operation := op, baseObject := baseObject, keyObject := keyObject, status := status,
           disposition := disposition, name := joinName base relative }

/-- `SetValue`, `QueryValue`: KeyObject, Status, Type or InfoClass, DataSize, KeyName, ValueName. -/
def readValue (op : RegistryOperation) (pointerSize : ℕ) : FieldReader RegistryEvent := do
  let keyObject ← pointer pointerSize
  let status ← uint32
  let _type ← uint32
  let _dataSize ← uint32
  let _keyName ← text
  let valueName ← text
  return { operation := op, keyObject := keyObject, status := status, valueName := valueName }

/-- `DeleteValue`: KeyObject, Status, KeyName, ValueName. -/
def readDeleteValue (op : RegistryOperation) (pointerSize : ℕ) : FieldReader RegistryEvent := do
  let keyObject ← pointer pointerSize
  let status ← uint32
  let _keyName ← text
  let valueName ← text
  return { operation := op, keyObject := keyObject, status := status, valueName := valueName }

/-- KeyObject, Status, then fields that don't count. -/
def readOther (op : RegistryOperation) (pointerSize : ℕ) : FieldReader RegistryEvent := do
  let keyObject ← pointer pointerSize
  let status ← uint32
  return { operation := op, keyObject := keyObject, status := status }

def readEvent (op : RegistryOperation) (pointerSize : ℕ) : FieldReader RegistryEvent :=
  match op with
  | .createKey | .openKey => readOpen op pointerSize
  | .setValue | .queryValue => readValue op pointerSize
  | .deleteValue => readDeleteValue op pointerSize
  | _ => readOther op pointerSize

def parse (id : UInt16) (data : Bytes) (pointerSize : ℕ) : Reads (Option RegistryEvent) :=
  match RegistryOperation.all.find? fun op => op.id = id with
  | none => pure none
  | some op => do
    let (e, _) ← readEvent op pointerSize data 0
    return some e

/-! ## the payloads -/

/-- The fields of all layouts. -/
structure Layout where
  baseObject : UInt64
  keyObject : UInt64
  status : UInt32
  disposition : UInt32
  /-- A value's type, or the class of a query. -/
  type : UInt32
  dataSize : UInt32
  baseName : WString
  relativeName : WString
  keyName : WString
  valueName : WString

namespace Layout

variable (f : Layout) (pointerSize : ℕ)

structure Fits : Prop where
  baseObject : f.baseObject.toNat < 256 ^ pointerSize
  keyObject : f.keyObject.toNat < 256 ^ pointerSize
  baseName : 0 ∉ f.baseName
  relativeName : 0 ∉ f.relativeName
  keyName : 0 ∉ f.keyName
  valueName : 0 ∉ f.valueName

/-- The fields of an operation's event, up to the last that counts. -/
def encode (op : RegistryOperation) : Bytes :=
  match op with
  | .createKey | .openKey =>
    leBytes pointerSize f.baseObject.toNat ++ (leBytes pointerSize f.keyObject.toNat ++
      (leBytes 4 f.status.toNat ++ (leBytes 4 f.disposition.toNat ++ (zString f.baseName ++
      zString f.relativeName))))
  | .setValue | .queryValue =>
    leBytes pointerSize f.keyObject.toNat ++ (leBytes 4 f.status.toNat ++
      (leBytes 4 f.type.toNat ++ (leBytes 4 f.dataSize.toNat ++ (zString f.keyName ++
      zString f.valueName))))
  | .deleteValue =>
    leBytes pointerSize f.keyObject.toNat ++ (leBytes 4 f.status.toNat ++ (zString f.keyName ++
      zString f.valueName))
  | _ => leBytes pointerSize f.keyObject.toNat ++ leBytes 4 f.status.toNat

/-- What the layout carries. -/
def event (op : RegistryOperation) : RegistryEvent :=
  match op with
  | .createKey | .openKey =>
    { operation := op, baseObject := f.baseObject, keyObject := f.keyObject, status := f.status,
      disposition := f.disposition, name := joinName f.baseName f.relativeName }
  | .setValue | .queryValue | .deleteValue =>
    { operation := op, keyObject := f.keyObject, status := f.status, valueName := f.valueName }
  | _ => { operation := op, keyObject := f.keyObject, status := f.status }

end Layout

/-! ## what is left of a payload that is cut -/

section Cut

variable {α : Type} [OfNat α 0] (cut start : ℕ)

/-- A fixed field that starts at a place: zero unless all of it is before the cut. -/
def fixedField (width : ℕ) (v : α) : α := if start + width ≤ cut then v else 0

/-- A string that starts at a place: its whole characters before the cut. -/
def stringField (t : WString) : WString := t.take ((cut - start) / 2)

def sizeOfString (t : WString) : ℕ := 2 * (t.length + 1)

end Cut

/-- What the first `cut` bytes of the payload carry. -/
def Layout.eventCut (f : Layout) (pointerSize : ℕ) (op : RegistryOperation) (cut : ℕ) :
    RegistryEvent :=
  match op with
  | .createKey | .openKey =>
    { operation := op
      baseObject := fixedField cut 0 pointerSize f.baseObject
      keyObject := fixedField cut pointerSize pointerSize f.keyObject
      status := fixedField cut (2 * pointerSize) 4 f.status
      disposition := fixedField cut (2 * pointerSize + 4) 4 f.disposition
      name := joinName (stringField cut (2 * pointerSize + 8) f.baseName)
        (stringField cut (2 * pointerSize + 8 + sizeOfString f.baseName) f.relativeName) }
  | .setValue | .queryValue =>
    { operation := op
      keyObject := fixedField cut 0 pointerSize f.keyObject
      status := fixedField cut pointerSize 4 f.status
      valueName := stringField cut (pointerSize + 12 + sizeOfString f.keyName) f.valueName }
  | .deleteValue =>
    { operation := op
      keyObject := fixedField cut 0 pointerSize f.keyObject
      status := fixedField cut pointerSize 4 f.status
      valueName := stringField cut (pointerSize + 4 + sizeOfString f.keyName) f.valueName }
  | _ =>
    { operation := op
      keyObject := fixedField cut 0 pointerSize f.keyObject
      status := fixedField cut pointerSize 4 f.status }

/-! ## the readers -/

section Readers

variable {pointerSize : ℕ} (op : RegistryOperation)

instance : FieldReader.Safe (pointer pointerSize) :=
  inferInstanceAs (FieldReader.Safe (do return (← number pointerSize).toUInt64))

instance : FieldReader.Safe uint32 :=
  inferInstanceAs (FieldReader.Safe (do return (← number 4).toUInt32))

theorem degrades_pointer {v : UInt64} (h : v.toNat < 256 ^ pointerSize) :
    Degrades (pointer pointerSize) (leBytes pointerSize v.toNat)
      fun n => if pointerSize ≤ n then v else 0 := by
  have hmap := (degrades_number h).map Nat.toUInt64
  have hvalue : (fun n => (if pointerSize ≤ n then v.toNat else 0).toUInt64)
      = fun n => if pointerSize ≤ n then v else 0 := by
    funext n
    split
    · exact UInt64.ofNat_toNat
    · rfl
  rw [hvalue] at hmap
  exact hmap

theorem degrades_uint32 (v : UInt32) :
    Degrades uint32 (leBytes 4 v.toNat) fun n => if 4 ≤ n then v else 0 := by
  have hlt : v.toNat < 256 ^ 4 := v.toNat_lt
  have hmap := (degrades_number hlt).map Nat.toUInt32
  have hvalue : (fun n => (if 4 ≤ n then v.toNat else 0).toUInt32)
      = fun n => if 4 ≤ n then v else 0 := by
    funext n
    split
    · exact UInt32.ofNat_toNat
    · rfl
  rw [hvalue] at hmap
  exact hmap

instance : FieldReader.Safe (readEvent op pointerSize) := by
  unfold readEvent readOpen readValue readDeleteValue readOther
  cases op <;> infer_instance

variable {f : Layout} (h : f.Fits pointerSize)
include h

theorem degrades_readOpen (hp : 0 < pointerSize) :
    Degrades (readOpen op pointerSize) (f.encode pointerSize .openKey)
    fun n => { f.eventCut pointerSize .openKey n with operation := op } := by
  refine Degrades.congr ((degrades_pointer h.baseObject).bind fun _ =>
    (degrades_pointer h.keyObject).bind fun _ => (degrades_uint32 f.status).bind fun _ =>
    (degrades_uint32 f.disposition).bind fun _ => (degrades_text h.baseName).bind fun _ =>
    (degrades_text h.relativeName).map _) fun n => ?_
  have hbase : n - pointerSize - pointerSize - 4 - 4 = n - (2 * pointerSize + 8) := by omega
  simp only [Layout.eventCut, fixedField, stringField, sizeOfString, zString, length_leBytes,
    length_wideBytes, List.length_append, List.length_singleton, RegistryEvent.mk.injEq, hbase,
    Nat.sub_add_eq, true_and, and_true]
  refine ⟨if_congr ?_ rfl rfl, if_congr ?_ rfl rfl, if_congr ?_ rfl rfl, if_congr ?_ rfl rfl⟩
  all_goals omega

theorem degrades_readValue : Degrades (readValue op pointerSize) (f.encode pointerSize .setValue)
    fun n => { f.eventCut pointerSize .setValue n with operation := op } := by
  refine Degrades.congr ((degrades_pointer h.keyObject).bind fun _ =>
    (degrades_uint32 f.status).bind fun _ => (degrades_uint32 f.type).bind fun _ =>
    (degrades_uint32 f.dataSize).bind fun _ => (degrades_text h.keyName).bind fun _ =>
    (degrades_text h.valueName).map _) fun n => ?_
  have hkey : n - pointerSize - 4 - 4 - 4 = n - (pointerSize + 12) := by omega
  simp only [Layout.eventCut, fixedField, stringField, sizeOfString, zString, length_leBytes,
    length_wideBytes, List.length_append, List.length_singleton, RegistryEvent.mk.injEq, hkey,
    Nat.sub_add_eq, true_and, and_true]
  refine ⟨if_congr ?_ rfl rfl, if_congr ?_ rfl rfl⟩
  all_goals omega

theorem degrades_readDeleteValue :
    Degrades (readDeleteValue op pointerSize) (f.encode pointerSize .deleteValue)
      fun n => { f.eventCut pointerSize .deleteValue n with operation := op } := by
  refine Degrades.congr ((degrades_pointer h.keyObject).bind fun _ =>
    (degrades_uint32 f.status).bind fun _ => (degrades_text h.keyName).bind fun _ =>
    (degrades_text h.valueName).map _) fun n => ?_
  simp only [Layout.eventCut, fixedField, stringField, sizeOfString, zString, length_leBytes,
    length_wideBytes, List.length_append, List.length_singleton, RegistryEvent.mk.injEq,
    Nat.sub_add_eq, true_and, and_true]
  refine ⟨if_congr ?_ rfl rfl, if_congr ?_ rfl rfl⟩
  all_goals omega

theorem degrades_readOther : Degrades (readOther op pointerSize) (f.encode pointerSize .deleteKey)
    fun n => { f.eventCut pointerSize .deleteKey n with operation := op } := by
  refine Degrades.congr ((degrades_pointer h.keyObject).bind fun _ =>
    (degrades_uint32 f.status).map _) fun n => ?_
  simp only [Layout.eventCut, fixedField, length_leBytes, RegistryEvent.mk.injEq, true_and, and_true]
  refine ⟨if_congr ?_ rfl rfl, if_congr ?_ rfl rfl⟩
  all_goals omega

theorem degrades_readEvent (hp : 0 < pointerSize) :
    Degrades (readEvent op pointerSize) (f.encode pointerSize op) (f.eventCut pointerSize op) := by
  cases op with
  | createKey => exact degrades_readOpen .createKey h hp
  | openKey => exact degrades_readOpen .openKey h hp
  | setValue => exact degrades_readValue .setValue h
  | queryValue => exact degrades_readValue .queryValue h
  | deleteValue => exact degrades_readDeleteValue .deleteValue h
  | _ => exact degrades_readOther _ h

end Readers

theorem find_id : ∀ op ∈ RegistryOperation.all,
    RegistryOperation.all.find? (fun o => o.id = op.id) = some op := by
  decide

/-- A payload that is whole gives what it carries. -/
theorem eventCut_of_le {f : Layout} {pointerSize cut : ℕ} {op : RegistryOperation}
    (h : (f.encode pointerSize op).length ≤ cut) :
    f.eventCut pointerSize op cut = f.event op := by
  have htext {t : WString} {start : ℕ} (hs : start + 2 * (t.length + 1) ≤ cut) :
      t.take ((cut - start) / 2) = t := List.take_of_length_le (by omega)
  cases op <;>
    simp only [Layout.encode, zString, length_leBytes, length_wideBytes, List.length_append,
      List.length_singleton] at h <;>
    simp only [Layout.eventCut, Layout.event, fixedField, stringField, sizeOfString]
  case createKey | openKey =>
    rw [if_pos (by omega), if_pos (by omega), if_pos (by omega), if_pos (by omega),
      htext (by omega), htext (by omega)]
  case setValue | queryValue | deleteValue =>
    rw [if_pos (by omega), if_pos (by omega), htext (by omega)]
  all_goals rw [if_pos (by omega), if_pos (by omega)]

theorem exists_operation : ∀ n ≤ 15, 1 ≤ n →
    ∃ op ∈ RegistryOperation.all, op.id = Nat.toUInt16 n := by
  decide

/-- What is read of a payload, by its ID: of one that is cut, what the cut leaves of each field. -/
theorem parse_take {id : UInt16} (hid : 1 ≤ id ∧ id ≤ 15) {pointerSize : ℕ}
    (hp : pointerSize = 4 ∨ pointerSize = 8) {f : Layout} (h : f.Fits pointerSize) :
    ∃ op : RegistryOperation, op.id = id ∧
      (∀ rest, (parse id (f.encode pointerSize op ++ rest) pointerSize).value = some (f.event op)) ∧
      (∀ rest cut, (parse id ((f.encode pointerSize op ++ rest).take cut) pointerSize).value
        = some (f.eventCut pointerSize op cut)) ∧
      ∀ data, (parse id data pointerSize).Safe := by
  obtain ⟨op, hop, hopid⟩ := exists_operation id.toNat (UInt16.le_iff_toNat_le.mp hid.2)
    (UInt16.le_iff_toNat_le.mp hid.1)
  obtain rfl : op.id = id := hopid.trans UInt16.ofNat_toNat
  have hcut (rest : Bytes) (cut : ℕ) :
      (parse op.id ((f.encode pointerSize op ++ rest).take cut) pointerSize).value
        = some (f.eventCut pointerSize op cut) := by
    rw [parse, find_id op hop]
    exact congrArg some ((degrades_readEvent op h (by omega)).value_take rest cut)
  refine ⟨op, rfl, fun rest => ?_, hcut, fun data => ?_⟩
  · have hwhole := hcut rest (f.encode pointerSize op ++ rest).length
    rw [List.take_length, eventCut_of_le (by simp)] at hwhole
    exact hwhole
  · rw [parse, find_id op hop]
    exact (Reads.safe_bind _ _).mpr ⟨FieldReader.Safe.safe data 0, Reads.safe_pure _⟩

/-- A 32-bit process sets the value "v". -/
def setValueV : Layout :=
  { baseObject := 0, keyObject := 0x1000, status := 0, disposition := 0, type := 1, dataSize := 4,
    baseName := [], relativeName := [], keyName := [], valueName := wide "v" }

/-- The event of a value that is set, read whatever follows it. -/
theorem parse_take_setValue :
    ∃ op : RegistryOperation, op.id = 5 ∧
      ∀ rest, (parse 5 (setValueV.encode 4 op ++ rest) 4).value = some (setValueV.event op) := by
  have hid : (1 : UInt16) ≤ 5 ∧ (5 : UInt16) ≤ 15 := by decide
  have hfits : setValueV.Fits 4 :=
    ⟨by decide, by decide, by decide, by decide, by decide, by decide⟩
  obtain ⟨op, hop, h, -⟩ := parse_take hid (.inl rfl) hfits
  exact ⟨op, hop, h⟩

end WinSys.Registry
