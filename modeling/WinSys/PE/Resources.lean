import WinSys.Infra.Payload
import WinSys.PE.Placed

/-!
# The resources of a PE image

`GetResources` walks three levels of directories: types, names, languages. The offsets in them are
from the resource directory's start; their top bit tells a directory from data, and a name from an
ID.

* `ResourceEntry`, `TreeAt`: a tree, and where it is in the bytes from the directory on
* `value_entries`: a directory's entries
* `getResources_eq`: the leaves that were encoded are read
-/

namespace WinSys.PE

open Infra Reads PEFile

/-! ## the tree -/

/-- What an entry is found by: an ID, or a name and where it is. -/
inductive ResourceKey where
  | id (n : UInt16)
  | name (offset : ℕ) (text : WString)

/-- A number below 2³¹ with the top bit. -/
def flagged (flag : Bool) (n : ℕ) : ℕ := (if flag then 2 ^ 31 else 0) + n

namespace ResourceKey

def field : ResourceKey → ℕ
  | .id n => flagged false n.toNat
  | .name offset _ => flagged true offset

/-- 0 for a name. -/
def toId : ResourceKey → UInt16
  | .id n => n
  | .name _ _ => 0

/-- Empty for an ID. -/
def text : ResourceKey → WString
  | .id _ => []
  | .name _ text => text

/-- A name is after its length, in characters. -/
def Laid (blob : Bytes) : ResourceKey → Prop
  | .id _ => True
  | .name offset text => (offset < 2 ^ 31 ∧ text.length < 2 ^ 16)
    ∧ HoldsAt blob offset (leBytes 2 text.length ++ wideBytes text)

instance (blob : Bytes) : DecidablePred (Laid blob)
  | .id _ => inferInstanceAs (Decidable True)
  | .name _ _ => inferInstanceAs (Decidable (_ ∧ _))

end ResourceKey

/-- An entry of a directory, and what it leads to; nothing if that is not what its level is for. -/
structure ResourceEntry (α : Type) where
  key : ResourceKey
  offset : ℕ
  child : Option α

/-- `IMAGE_RESOURCE_DIRECTORY_ENTRY`, of a level for directories or for data. -/
def ResourceEntry.encode {α : Type} (directories : Bool) (e : ResourceEntry α) : Bytes :=
  leBytes 4 e.key.field ++ leBytes 4 (flagged (e.child.isSome == directories) e.offset)

/-- `IMAGE_RESOURCE_DATA_ENTRY` -/
structure ResourceData where
  rva : UInt32
  size : UInt32
  codePage : UInt32
  reserved : UInt32

def ResourceData.encode (d : ResourceData) : Bytes :=
  leBytes 4 d.rva.toNat ++ (leBytes 4 d.size.toNat ++ (leBytes 4 d.codePage.toNat
    ++ leBytes 4 d.reserved.toNat))

abbrev Languages := List (ResourceEntry ResourceData)

abbrev Names := List (ResourceEntry Languages)

abbrev Types := List (ResourceEntry Names)

def maxEntries : ℕ := 4096

/-- `IMAGE_RESOURCE_DIRECTORY` is at an offset, with its entries and what these lead to. -/
structure DirectoryAt {α : Type} (blob : Bytes) (directories : Bool) (childAt : ℕ → α → Prop)
    (offset : ℕ) (es : List (ResourceEntry α)) : Prop where
  length_le : es.length ≤ maxEntries
  bytes : ∃ head named ids, head.length = 12 ∧ named + ids = es.length ∧
    HoldsAt blob offset (head ++ (leBytes 2 named ++ leBytes 2 ids)
      ++ es.flatMap (ResourceEntry.encode directories))
  key : ∀ e ∈ es, e.key.Laid blob
  offset_lt : ∀ e ∈ es, e.offset < 2 ^ 31
  child : ∀ e ∈ es, ∀ c ∈ e.child, childAt e.offset c

def DataAt (blob : Bytes) (offset : ℕ) (d : ResourceData) : Prop := HoldsAt blob offset d.encode

def LanguagesAt (blob : Bytes) : ℕ → Languages → Prop := DirectoryAt blob false (DataAt blob)

def NamesAt (blob : Bytes) : ℕ → Names → Prop := DirectoryAt blob true (LanguagesAt blob)

/-- The tree is in the bytes from the resource directory on. Directories, names and data may be
anywhere in them, and shared. -/
def TreeAt (blob : Bytes) : Types → Prop := DirectoryAt blob true (NamesAt blob) 0

/-! ## its leaves -/

def leaf (type name language : ResourceKey) (d : ResourceData) : PEResource where
  typeId := type.toId
  type := type.text
  nameId := name.toId
  name := name.text
  language := language.toId
  rva := d.rva
  size := d.size
  codePage := d.codePage

def Languages.resources (type name : ResourceKey) (languages : Languages) : List PEResource :=
  languages.flatMap fun e => (e.child.map (leaf type name e.key)).toList

def Names.resources (type : ResourceKey) (names : Names) : List PEResource :=
  names.flatMap fun e => (e.child.map (Languages.resources type e.key)).getD []

def Types.resources (types : Types) : List PEResource :=
  types.flatMap fun e => (e.child.map (Names.resources e.key)).getD []

/-! ## reading it -/

section Flags

variable {flag : Bool} {n : ℕ} (h : n < 2 ^ 31)

include h

theorem flagged_lt : flagged flag n < 2 ^ 32 := by
  unfold flagged
  split <;> omega

theorem toNat_flagged : ((flagged flag n).toUInt32).toNat = flagged flag n := by
  rw [Nat.toUInt32_eq, UInt32.toNat_ofNat', Nat.mod_eq_of_lt (flagged_lt h)]

theorem flagged_and_mask : (flagged flag n).toUInt32 &&& 0x7FFFFFFF = n.toUInt32 := by
  refine UInt32.toNat_inj.mp ?_
  have hmask : (0x7FFFFFFF : UInt32).toNat = 2 ^ 31 - 1 := rfl
  rw [UInt32.toNat_and, toNat_flagged h, hmask, Nat.and_two_pow_sub_one_eq_mod, Nat.toUInt32_eq,
    UInt32.toNat_ofNat', Nat.mod_eq_of_lt (by omega : n < 2 ^ 32), flagged]
  split <;> omega

theorem flagged_and_flag : (flagged flag n).toUInt32 &&& 0x80000000 ≠ 0 ↔ flag = true := by
  have hflag : (0x80000000 : UInt32).toNat = 2 ^ 31 := rfl
  rw [ne_eq, ← UInt32.toNat_inj, UInt32.toNat_and, toNat_flagged h, hflag, UInt32.toNat_zero]
  refine (and_two_pow_ne_zero_iff (flagged_lt h)).trans ?_
  unfold flagged
  cases flag with
  | false => simpa using h
  | true => simp

end Flags

/-- An entry as it is read. -/
def ResourceEntry.read {α : Type} (directories : Bool) (e : ResourceEntry α) : PEFile.Entry where
  id := e.key.toId
  name := e.key.text
  offset := e.offset.toUInt32
  directory := e.child.isSome == directories

namespace PEFile

variable {pe : PEFile} {base : UInt32} {blob : Bytes} (hsize : pe.data.length ≤ maxFileSize)
  (hblob : HoldsAt pe.data base.toNat blob)

include hsize hblob

/-- The sum of the base and an offset does not wrap. -/
theorem holdsAt_base {offset : ℕ} {bs : Bytes} (h : HoldsAt blob offset bs) (hne : bs ≠ []) :
    (base + offset.toUInt32).toNat = base.toNat + offset
      ∧ HoldsAt pe.data (base.toNat + offset) bs := by
  have hinside := h.add_length_le hne
  have hpos := List.length_pos_iff.mpr hne
  have hfile := hblob.add_length_le (List.length_pos_iff.mp (by omega))
  unfold maxFileSize at hsize
  refine ⟨?_, hblob.trans h (by omega)⟩
  rw [UInt32.toNat_add, Nat.toUInt32_eq, UInt32.toNat_ofNat', Nat.mod_eq_of_lt (by omega : offset < _),
    Nat.mod_eq_of_lt (by omega)]

theorem value_readEntryName {offset : ℕ} {text : WString}
    (h : (ResourceKey.name offset text).Laid blob) :
    (pe.readEntryName base offset.toUInt32).value = text := by
  obtain ⟨⟨-, hlength⟩, hholds⟩ := h
  obtain ⟨hsum, hdata⟩ := holdsAt_base hsize hblob hholds (by simp [leBytes])
  have hle := hdata.add_length_le (by simp [leBytes])
  have hchars := hdata.right
  rw [length_leBytes] at hchars
  rw [List.length_append, length_leBytes, length_wideBytes] at hle
  have hcount : (u16At (leBytes 2 text.length) 0).toNat = text.length := by
    simpa using toNat_u16At_append hlength []
  unfold maxFileSize at hsize
  have hsmall (n : ℕ) (hn : n ≤ pe.data.length) : sizeT n = n := Nat.mod_eq_of_lt (by omega)
  rw [readEntryName, value_bind, hsum,
    value_atOffset_of_holdsAt hsize hdata.left (length_leBytes _ _) (by decide)]
  simp only [hcount]
  rw [hsmall (base.toNat + offset + 2) (by omega),
    hsmall (base.toNat + offset + 2 + text.length * 2) (by omega), if_pos (by omega), value_bind,
    value_raw, value_pure]
  have htake := hchars.take_eq
  rw [length_wideBytes, Nat.mul_comm] at htake
  rw [htake, units_wideBytes]

theorem value_readEntry {α : Type} {directories : Bool} {e : ResourceEntry α} {offset i : ℕ}
    {at' : UInt32} (hat : HoldsAt blob (offset + 16 + i * 8) (e.encode directories))
    (hsum : (base + at').toNat = base.toNat + offset) (hkey : e.key.Laid blob)
    (hoffset : e.offset < 2 ^ 31) :
    (pe.readEntry base at' i).value = .add (e.read directories) := by
  have hlength : (e.encode directories).length = 8 := by simp [ResourceEntry.encode]
  obtain ⟨-, hdata⟩ := holdsAt_base hsize hblob hat (List.length_pos_iff.mp (by omega))
  rw [← Nat.add_assoc, ← Nat.add_assoc, ← hsum] at hdata
  have hleads : u32At (e.encode directories) 4
      = (flagged (e.child.isSome == directories) e.offset).toUInt32 := by
    rw [ResourceEntry.encode, u32At_leBytes_append _ _ (le_refl 4), Nat.sub_self,
      u32At_leBytes_nat (flagged_lt hoffset)]
  rw [readEntry, value_bind, value_atOffset_of_holdsAt hsize hdata hlength (by decide)]
  simp only [hleads, flagged_and_mask hoffset, flagged_and_flag hoffset, Bool.decide_eq_true]
  obtain ⟨key, target, child⟩ := e
  cases key with
  | id n =>
    have hn := n.toNat_lt
    have hid : u32At (ResourceEntry.encode directories ⟨.id n, target, child⟩) 0
        = (flagged false n.toNat).toUInt32 :=
      u32At_append_nat (flagged_lt (by omega)) _
    have hlow : u16At (ResourceEntry.encode directories ⟨.id n, target, child⟩) 0 = n := by
      rw [ResourceEntry.encode, ResourceKey.field, flagged, if_neg Bool.false_ne_true, Nat.zero_add]
      exact u16At_dword n _
    have hnot :
        ¬(u32At (ResourceEntry.encode directories ⟨.id n, target, child⟩) 0 &&& 0x80000000 ≠ 0) := by
      rw [hid, flagged_and_flag (by omega)]
      exact Bool.false_ne_true
    rw [if_neg hnot, hlow]
    rfl
  | name nameOffset text =>
    have hfield : u32At (ResourceEntry.encode directories ⟨.name nameOffset text, target, child⟩) 0
        = (flagged true nameOffset).toUInt32 :=
      u32At_append_nat (flagged_lt hkey.1.1) _
    have hname : u32At (ResourceEntry.encode directories ⟨.name nameOffset text, target, child⟩) 0
        &&& 0x80000000 ≠ 0 := by
      rw [hfield, flagged_and_flag hkey.1.1]
    rw [if_pos hname, value_bind, hfield, flagged_and_mask hkey.1.1,
      value_readEntryName hsize hblob hkey]
    rfl

/-- The entries of a directory, as they are read. -/
theorem value_entries {α : Type} {directories : Bool} {childAt : ℕ → α → Prop} {offset : ℕ}
    {es : List (ResourceEntry α)} (h : DirectoryAt blob directories childAt offset es) :
    (pe.entries base offset.toUInt32).value = es.map (ResourceEntry.read directories) := by
  obtain ⟨head, named, ids, hhead, hcount, hholds⟩ := h.bytes
  have hle := h.length_le
  unfold maxEntries at hle
  have hlength : (head ++ (leBytes 2 named ++ leBytes 2 ids)).length = 16 := by simp [hhead]
  obtain ⟨hsum, hdata⟩ := holdsAt_base hsize hblob hholds.left (List.length_pos_iff.mp (by omega))
  have hentries := hholds.right
  rw [hlength] at hentries
  have hnamed : (u16At (head ++ (leBytes 2 named ++ leBytes 2 ids)) 12).toNat = named := by
    rw [u16At_append_right _ hhead.le, hhead, Nat.sub_self]
    exact toNat_u16At_append (by omega) _
  have hids : (u16At (head ++ (leBytes 2 named ++ leBytes 2 ids)) 14).toNat = ids := by
    rw [u16At_append_right _ (by omega), hhead, u16At_leBytes_append _ _ (le_refl 2)]
    simpa using toNat_u16At_append (by omega : ids < 2 ^ 16) []
  rw [entries, value_bind, hsum, value_atOffset_of_holdsAt hsize hdata hlength (by decide)]
  simp only [hnamed, hids, hcount]
  refine value_collect_map (by omega) (fun j hj => ?_) fun hlt => absurd hlt (by omega)
  rw [Nat.zero_add]
  have hmem := List.getElem_mem hj
  exact value_readEntry hsize hblob
    (hentries.getElem (fun _ => by simp [ResourceEntry.encode]) hj) hsum (h.key _ hmem)
    (h.offset_lt _ hmem)

theorem value_addLanguage {type name : PEFile.Entry} {typeKey nameKey : ResourceKey}
    (htype : type.id = typeKey.toId ∧ type.name = typeKey.text)
    (hname : name.id = nameKey.toId ∧ name.name = nameKey.text)
    {resources : List PEResource} {e : ResourceEntry ResourceData}
    (h : ∀ d ∈ e.child, DataAt blob e.offset d)
    (hcap : (resources ++ (e.child.map (leaf typeKey nameKey e.key)).toList).length ≤ maxResources) :
    (pe.addLanguage base type name resources (e.read false)).value
      = resources ++ (e.child.map (leaf typeKey nameKey e.key)).toList := by
  obtain ⟨key, offset, child⟩ := e
  cases child with
  | none =>
    rw [addLanguage, if_pos (.inl rfl)]
    exact (List.append_nil _).symm
  | some d =>
    have hfits : ¬((ResourceEntry.read false ⟨key, offset, some d⟩).directory = true
        ∨ resources.length ≥ maxResources) := by
      rw [Option.map_some, Option.toList_some, List.length_append, List.length_singleton] at hcap
      rintro (hdirectory | hfull)
      · cases hdirectory
      · omega
    have hlength : d.encode.length = 16 := by simp [ResourceData.encode]
    obtain ⟨hsum, hdata⟩ := holdsAt_base hsize hblob (h d rfl) (List.length_pos_iff.mp (by omega))
    rw [← hsum] at hdata
    have hread := value_atOffset_of_holdsAt hsize hdata hlength (by decide)
    rw [addLanguage, if_neg hfits, value_bind, ResourceEntry.read, hread]
    simp [ResourceData.encode, leaf, htype, hname]

theorem value_addName {type : PEFile.Entry} {typeKey : ResourceKey}
    (htype : type.id = typeKey.toId ∧ type.name = typeKey.text)
    {resources : List PEResource} {e : ResourceEntry Languages}
    (h : ∀ languages ∈ e.child, LanguagesAt blob e.offset languages)
    (hcap : (resources ++ (e.child.map (Languages.resources typeKey e.key)).getD []).length
      ≤ maxResources) :
    (pe.addName base type resources (e.read true)).value
      = resources ++ (e.child.map (Languages.resources typeKey e.key)).getD [] := by
  obtain ⟨key, offset, child⟩ := e
  cases child with
  | none =>
    rw [addName, if_neg (by simp [ResourceEntry.read])]
    exact (List.append_nil _).symm
  | some languages =>
    have hlanguages := h languages rfl
    have hdirectory : (ResourceEntry.read true ⟨key, offset, some languages⟩).directory = true := rfl
    rw [addName, if_pos hdirectory, value_bind]
    simp only [ResourceEntry.read]
    rw [value_entries hsize hblob hlanguages, List.foldlM_map]
    refine value_foldlM_append
      (g := fun e : ResourceEntry ResourceData => (e.child.map (leaf typeKey key e.key)).toList)
      (fun resources e he hfits => ?_) hcap
    exact value_addLanguage hsize hblob htype ⟨rfl, rfl⟩ (hlanguages.child e he) hfits

theorem value_addType {resources : List PEResource} {e : ResourceEntry Names}
    (h : ∀ names ∈ e.child, NamesAt blob e.offset names)
    (hcap : (resources ++ (e.child.map (Names.resources e.key)).getD []).length ≤ maxResources) :
    (pe.addType base resources (e.read true)).value
      = resources ++ (e.child.map (Names.resources e.key)).getD [] := by
  obtain ⟨key, offset, child⟩ := e
  cases child with
  | none =>
    rw [addType, if_neg (by simp [ResourceEntry.read])]
    exact (List.append_nil _).symm
  | some names =>
    have hnames := h names rfl
    have hdirectory : (ResourceEntry.read true ⟨key, offset, some names⟩).directory = true := rfl
    rw [addType, if_pos hdirectory, value_bind]
    simp only [ResourceEntry.read]
    rw [value_entries hsize hblob hnames, List.foldlM_map]
    refine value_foldlM_append
      (g := fun e : ResourceEntry Languages => (e.child.map (Languages.resources key e.key)).getD [])
      (fun resources e he hfits => ?_) hcap
    exact value_addName hsize hblob ⟨rfl, rfl⟩ (hnames.child e he) hfits

end PEFile

/-- The leaves of the tree are read in its order, each with its path, and their data. -/
theorem getResources_eq {data : Bytes} {pe : PEFile} (hload : (load data).value = some pe)
    {dir : PEDataDirectory} (hdir : pe.directory imageDirectoryEntryResource = some dir)
    {blob : Bytes} (hblob : Placed pe dir.rva blob) {types : Types} (h : TreeAt blob types)
    (hcount : types.resources.length ≤ maxResources) :
    pe.getResources.value = types.resources ∧
      ∀ r ∈ types.resources, ∀ bytes, Placed pe r.rva bytes → bytes.length = r.size.toNat →
        (pe.getResourceData r).value = bytes := by
  have hsize := (load_eq_some hload).2
  have hne : blob ≠ [] := by
    obtain ⟨head, named, ids, hhead, -, hholds⟩ := h.bytes
    have hinside := hholds.add_length_le (List.length_pos_iff.mp (by simp))
    exact List.length_pos_iff.mp (by simp at hinside; omega)
  constructor
  · obtain ⟨base, hbase, hholds⟩ := hblob.exists_offset hne hsize
    have hentries := value_entries hsize hholds h
    rw [getResources]
    simp only [hdir, hbase, value_bind]
    rw [show (0 : UInt32) = (0 : ℕ).toUInt32 from rfl, hentries, List.foldlM_map]
    refine value_foldlM_append
      (g := fun e : ResourceEntry Names => (e.child.map (Names.resources e.key)).getD [])
      (fun resources e he hfits => ?_) hcount
    exact value_addType hsize hholds (h.child e he) hfits
  · intro r _ bytes hbytes hlength
    unfold getResourceData
    by_cases hempty : r.size = 0
    · obtain rfl : bytes = [] := List.length_eq_zero_iff.mp (by rw [hlength, hempty]; rfl)
      cases pe.rvaToOffset r.rva with
      | none => rfl
      | some offset => simp only [if_pos (Or.inl hempty), value_pure]
    · have hne : bytes ≠ [] := by
        rintro rfl
        exact hempty (UInt32.toNat_inj.mp hlength.symm)
      obtain ⟨offset, hoffset, hholds⟩ := hbytes.exists_offset hne hsize
      have hinside := hholds.add_length_le hne
      rw [hoffset]
      simp only
      rw [if_neg (by simp only [hempty, false_or]; omega), value_raw, ← hlength, hholds.take_eq]

/-- A directory with none of its entries counted as named. -/
def directoryBytes {α : Type} (directories : Bool) (es : List (ResourceEntry α)) : Bytes :=
  List.replicate 12 0 ++ (leBytes 2 0 ++ leBytes 2 es.length)
    ++ es.flatMap (ResourceEntry.encode directories)

def english : Languages := [⟨.id 0x409, 84, some ⟨0x1064, 2, 0, 0⟩⟩]

def nameA : Names := [⟨.name 80 (wide "A"), 56, some english⟩]

/-- The second entry is a leaf at the first level. -/
def icons : Types := [⟨.id 3, 32, some nameA⟩, ⟨.id 9, 0, none⟩]

def iconBlob : Bytes :=
  directoryBytes true icons ++ directoryBytes true nameA ++ directoryBytes false english
    ++ (leBytes 2 1 ++ wideBytes (wide "A")) ++ (⟨0x1064, 2, 0, 0⟩ : ResourceData).encode ++ [1, 2]

theorem treeAt_icons : TreeAt iconBlob icons := by
  have hlanguages : LanguagesAt iconBlob 56 english := {
    length_le := by decide
    bytes := ⟨List.replicate 12 0, 0, 1, rfl, rfl, by decide +kernel⟩
    key := by decide
    offset_lt := by decide
    child := List.forall_mem_singleton.mpr fun d hd => by
      obtain rfl := Option.mem_some_iff.mp hd
      have hdata : HoldsAt iconBlob 84 (⟨0x1064, 2, 0, 0⟩ : ResourceData).encode := by decide +kernel
      exact hdata }
  have hnames : NamesAt iconBlob 32 nameA := {
    length_le := by decide
    bytes := ⟨List.replicate 12 0, 0, 1, rfl, rfl, by decide +kernel⟩
    key := by decide +kernel
    offset_lt := by decide
    child := List.forall_mem_singleton.mpr fun languages hl => by
      obtain rfl := Option.mem_some_iff.mp hl
      exact hlanguages }
  exact {
    length_le := by decide
    bytes := ⟨List.replicate 12 0, 0, 2, rfl, rfl, by decide +kernel⟩
    key := by decide
    offset_lt := by decide
    child := by
      rintro e he names hn
      simp only [icons, List.mem_cons, List.not_mem_nil, or_false] at he
      obtain rfl | rfl := he
      · obtain rfl := Option.mem_some_iff.mp hn
        exact hnames
      · cases hn }

/-- One leaf under a type's ID and a name, with its two bytes. -/
theorem getResources_eq_icons : ∃ pe r, (load (imageOf [⟨0, 0⟩, ⟨0, 0⟩, ⟨0x1000, 102⟩] iconBlob)).value
      = some pe ∧ pe.getResources.value = [r] ∧ (pe.getResourceData r).value = [1, 2] := by
  have hall : ∃ pe ∈ (load (imageOf [⟨0, 0⟩, ⟨0, 0⟩, ⟨0x1000, 102⟩] iconBlob)).value,
      pe.directory imageDirectoryEntryResource = some ⟨0x1000, 102⟩ ∧ Placed pe 0x1000 iconBlob
        ∧ Placed pe 0x1064 [1, 2] := by
    decide +kernel
  obtain ⟨pe, hload, hdir, hblob, hbytes⟩ := hall
  obtain ⟨hresources, hdata⟩ := getResources_eq hload hdir hblob treeAt_icons (by decide)
  exact ⟨pe, _, hload, hresources, hdata _ List.mem_cons_self _ hbytes rfl⟩

end WinSys.PE
