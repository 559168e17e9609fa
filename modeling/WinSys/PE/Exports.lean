import Mathlib.Data.List.GetD
import WinSys.PE.Placed

/-!
# The exports of a PE image

`GetExports` joins three tables: the functions by slot, the names, and for each name the slot it
points to.

* `ExportTables`, `ExportTables.Laid`: the tables, and where they are in a file
* `ExportTables.Joins`: what is listed when every name is
* `getExports_eq`, `getExports_iff`: what is listed; a slot keeps one name
-/

namespace WinSys.PE

open Infra Reads PEFile

/-! ## the tables -/

/-- A name of the name table, with the slot at its place in the ordinal table. -/
structure ExportName where
  rva : UInt32
  name : Bytes
  index : UInt16

/-- The tables and where they are. A slot of 0 is a gap in the ordinals. -/
structure ExportTables where
  head : Bytes
  libraryRva : UInt32
  base : UInt32
  functionsRva : UInt32
  slots : List UInt32
  namesRva : UInt32
  ordinalsRva : UInt32
  names : List ExportName
  /-- The strings of the forwarders, by their RVAs. -/
  forwarders : UInt32 → Bytes

/-- The RVA lies in the directory's `[Rva, Rva + Size)`. -/
def PEDataDirectory.Has (dir : PEDataDirectory) (rva : UInt32) : Prop :=
  dir.rva.toNat ≤ rva.toNat ∧ rva.toNat < dir.rva.toNat + dir.size.toNat

instance (dir : PEDataDirectory) (rva : UInt32) : Decidable (dir.Has rva) :=
  inferInstanceAs (Decidable (_ ∧ _))

namespace ExportTables

variable (t : ExportTables)

/-- `IMAGE_EXPORT_DIRECTORY`: the characteristics, the time stamp and the versions come first. -/
def encode : Bytes :=
  t.head ++ (leBytes 4 t.libraryRva.toNat ++ (leBytes 4 t.base.toNat ++ (leBytes 4 t.slots.length
    ++ (leBytes 4 t.names.length ++ (leBytes 4 t.functionsRva.toNat ++ (leBytes 4 t.namesRva.toNat
      ++ leBytes 4 t.ordinalsRva.toNat))))))

/-- The tables are in sections' raw data. -/
structure Laid (pe : PEFile) (dir : PEDataDirectory) : Prop where
  head_length : t.head.length = 12
  slots_le : t.slots.length ≤ maxExports
  names_le : t.names.length ≤ maxExports
  directory : Placed pe dir.rva t.encode
  functionTable : Placed pe t.functionsRva (t.slots.flatMap fun rva => leBytes 4 rva.toNat)
  nameTable : Placed pe t.namesRva (t.names.flatMap fun n => leBytes 4 n.rva.toNat)
  ordinalTable : Placed pe t.ordinalsRva (t.names.flatMap fun n => leBytes 2 n.index.toNat)
  name : ∀ n ∈ t.names, NameAt pe n.rva n.name
  forwarder : ∀ rva ∈ t.slots, dir.Has rva → NameAt pe rva (t.forwarders rva)

/-- A slot's RVA, 0 for none. -/
def slot (i : ℕ) : UInt32 := t.slots.getD i 0

/-- A slot as a function of a name. -/
def exported (dir : PEDataDirectory) (e : ℕ × Bytes) : PEExportedFunction where
  name := e.2
  ordinal := t.base + e.1.toUInt32
  rva := t.slot e.1
  forwarder := if dir.Has (t.slot e.1) then t.forwarders (t.slot e.1) else []

/-- The join of the tables: slots with their names, in the order of the slots. -/
structure Joins (listing : List (ℕ × Bytes)) : Prop where
  ordered : listing.Pairwise (·.1 ≤ ·.1)
  slot_ne_zero : ∀ e ∈ listing, t.slot e.1 ≠ 0
  every_slot : ∀ i, t.slot i ≠ 0 → ∃ name, (i, name) ∈ listing
  every_name : ∀ n ∈ t.names, t.slot n.index.toNat ≠ 0 → (n.index.toNat, n.name) ∈ listing
  only_names : ∀ e ∈ listing, (∃ n ∈ t.names, n.index.toNat = e.1) →
    ∃ n ∈ t.names, n.index.toNat = e.1 ∧ n.name = e.2
  unnamed_once : ∀ i, t.slot i ≠ 0 → (∀ n ∈ t.names, n.index.toNat ≠ i) →
    listing.filter (·.1 = i) = [(i, [])]

/-! ## what is listed -/

/-- The last name that points to a slot. -/
def nameOf (i : ℕ) : Bytes :=
  t.names.foldl (fun name n => if n.index.toNat = i then n.name else name) []

/-- The slots that are no gaps, each with its last name. -/
def listing : List (ℕ × Bytes) :=
  (List.range t.slots.length).filterMap fun i =>
    if t.slot i = 0 then none else some (i, t.nameOf i)

end ExportTables

namespace PEFile

variable {pe : PEFile} {dir : PEDataDirectory} {t : ExportTables}

theorem value_readNames {namesOffset ordinalsOffset : ℕ} (hsize : pe.data.length ≤ maxFileSize)
    (hnames : HoldsAt pe.data namesOffset (t.names.flatMap fun n => leBytes 4 n.rva.toNat))
    (hordinals : HoldsAt pe.data ordinalsOffset (t.names.flatMap fun n => leBytes 2 n.index.toNat))
    (hname : ∀ n ∈ t.names, NameAt pe n.rva n.name) {turns i : ℕ}
    (hturns : i + turns = t.names.length) (names : List Bytes) :
    (pe.readNames namesOffset ordinalsOffset turns i names).value
      = (t.names.drop i).foldl (fun names n => names.set n.index.toNat n.name) names := by
  induction turns generalizing i names with
  | zero =>
    rw [List.drop_eq_nil_of_le (by omega)]
    rfl
  | succ turns ih =>
    have hi : i < t.names.length := by omega
    have hrva := value_atOffset_of_holdsAt hsize (hnames.getElem (fun _ => length_leBytes _ _) hi)
      (length_leBytes _ _) (by decide)
    have hindex := value_atOffset_of_holdsAt hsize
      (hordinals.getElem (fun _ => length_leBytes _ _) hi) (length_leBytes _ _) (by decide)
    have hrest := @ih (i + 1) (by omega)
    rw [List.drop_eq_getElem_cons hi, List.foldl_cons, readNames, value_bind, hrva, value_bind, hindex]
    simp only [u16At_leBytes, u32At_leBytes]
    split
    · rw [value_bind, (hname _ (List.getElem_mem hi)).value_stringAtRva hsize]
      exact hrest _
    · next hlarge =>
      rw [List.set_eq_of_length_le (not_lt.mp hlarge)]
      exact hrest _

/-- A slot of the names is what was last put there. -/
theorem getD_foldl_set (ns : List ExportName) (names : List Bytes) {i : ℕ} (hi : i < names.length) :
    (ns.foldl (fun names n => names.set n.index.toNat n.name) names).getD i []
      = ns.foldl (fun name n => if n.index.toNat = i then n.name else name) (names.getD i []) := by
  induction ns generalizing names with
  | nil => rfl
  | cons n ns ih =>
    have hset : (names.set n.index.toNat n.name).getD i []
        = if n.index.toNat = i then n.name else names.getD i [] := by
      rw [List.getD_eq_getElem _ _ (by simpa using hi), List.getElem_set,
        List.getD_eq_getElem _ _ hi]
    rw [List.foldl_cons, List.foldl_cons, ih _ (by simpa using hi), hset]

/-- What the fields of the export directory are. -/
structure Fields (t : ExportTables) (e : Bytes) : Prop where
  base : u32At e 16 = t.base
  slots : (u32At e 20).toNat = t.slots.length
  names : (u32At e 24).toNat = t.names.length
  functionsRva : u32At e 28 = t.functionsRva
  namesRva : u32At e 32 = t.namesRva
  ordinalsRva : u32At e 36 = t.ordinalsRva

variable (hsize : pe.data.length ≤ maxFileSize) (h : t.Laid pe dir)

include h

theorem fields_encode : Fields t t.encode := by
  have hhead := h.head_length
  have hslots := h.slots_le
  have hnames := h.names_le
  unfold maxExports at hslots hnames
  have hskip (offset : ℕ) (hle : 12 ≤ offset) :
      u32At t.encode offset = u32At (t.encode.drop 12) (offset - 12) := by
    rw [ExportTables.encode, u32At_append_right _ (by omega), ← hhead, List.drop_left]
  have hrest : t.encode.drop 12 = leBytes 4 t.libraryRva.toNat ++ (leBytes 4 t.base.toNat
      ++ (leBytes 4 t.slots.length ++ (leBytes 4 t.names.length
        ++ (leBytes 4 t.functionsRva.toNat ++ (leBytes 4 t.namesRva.toNat
          ++ leBytes 4 t.ordinalsRva.toNat))))) := by
    rw [ExportTables.encode, ← hhead, List.drop_left]
  constructor <;> rw [hskip _ (by decide), hrest]
  case slots =>
    simp only [Nat.reduceSub, Nat.reduceLeDiff, u32At_leBytes_append]
    exact toNat_u32At_append (by omega) _
  case names =>
    simp only [Nat.reduceSub, Nat.reduceLeDiff, u32At_leBytes_append]
    exact toNat_u32At_append (by omega) _
  all_goals simp

include hsize

/-- The export directory is read. -/
theorem value_exportDirectory : ∃ offset, pe.rvaToOffset dir.rva = some offset
    ∧ (atOffset pe.data 40 offset.toNat).value = some t.encode := by
  have hlength : t.encode.length = 40 := by simp [ExportTables.encode, h.head_length]
  obtain ⟨offset, hoffset, hholds⟩ :=
    h.directory.exists_offset (List.length_pos_iff.mp (by omega)) hsize
  exact ⟨offset, hoffset, value_atOffset_of_holdsAt hsize hholds hlength (by decide)⟩

theorem getD_exportNames {i : ℕ} (hi : i < t.slots.length) :
    ((pe.exportNames t.encode t.slots.length).value).getD i [] = t.nameOf i := by
  have hfields := fields_encode h
  have hnone : (List.replicate t.slots.length ([] : Bytes)).getD i [] = [] := by
    simp [List.getD_eq_getElem?_getD, hi]
  unfold exportNames
  rw [hfields.namesRva, hfields.ordinalsRva, hfields.names, Nat.min_eq_left h.names_le]
  by_cases hempty : t.names = []
  · have hall : t.nameOf i = [] := by rw [ExportTables.nameOf, hempty, List.foldl_nil]
    rw [hall, hempty]
    split <;> exact hnone
  · have hne {width : ℕ} {f : ExportName → ℕ} (hwidth : 0 < width) :
        (t.names.flatMap fun n => leBytes width (f n)) ≠ [] := by
      obtain ⟨n, hn⟩ := List.exists_mem_of_ne_nil _ hempty
      refine fun hnil => ?_
      have hzero := congrArg List.length (List.flatMap_eq_nil_iff.mp hnil n hn)
      rw [length_leBytes] at hzero
      exact hwidth.ne' hzero
    obtain ⟨namesOffset, hnamesOffset, hnames⟩ :=
      h.nameTable.exists_offset (hne (by decide)) hsize
    obtain ⟨ordinalsOffset, hordinalsOffset, hordinals⟩ :=
      h.ordinalTable.exists_offset (hne (by decide)) hsize
    rw [hnamesOffset, hordinalsOffset]
    simp only
    rw [value_readNames hsize hnames hordinals h.name (Nat.zero_add _), List.drop_zero,
      getD_foldl_set _ _ (by simpa using hi), hnone, ExportTables.nameOf]

theorem value_forwarder {i : ℕ} (hi : i < t.slots.length) :
    (pe.forwarder dir (t.slot i)).value
      = if dir.Has (t.slot i) then t.forwarders (t.slot i) else [] := by
  have hslot : t.slot i ∈ t.slots := by
    rw [ExportTables.slot, List.getD_eq_getElem _ _ hi]
    exact List.getElem_mem hi
  have hhas : (t.slot i ≥ dir.rva ∧ t.slot i - dir.rva < dir.size) ↔ dir.Has (t.slot i) := by
    unfold PEDataDirectory.Has
    rw [ge_iff_le, UInt32.le_iff_toNat_le, UInt32.lt_iff_toNat_lt]
    refine and_congr_right fun hle => ?_
    rw [UInt32.toNat_sub_of_le _ _ (UInt32.le_iff_toNat_le.mpr hle)]
    omega
  unfold PEFile.forwarder
  by_cases hin : dir.Has (t.slot i)
  · rw [if_pos (hhas.mpr hin), if_pos hin]
    exact (h.forwarder _ hslot hin).value_stringAtRva hsize
  · rw [if_neg (mt hhas.mp hin), if_neg hin]
    rfl

/-- A turn over the functions lists the slot with its last name, unless it is a gap. -/
theorem value_readExport {functionsOffset : ℕ}
    (hfunctions : HoldsAt pe.data functionsOffset (t.slots.flatMap fun rva => leBytes 4 rva.toNat))
    {i : ℕ} (hi : i < t.slots.length) :
    (pe.readExport dir t.base functionsOffset (pe.exportNames t.encode t.slots.length).value i).value
      = .ofOption (if t.slot i = 0 then none else some (t.exported dir (i, t.nameOf i))) := by
  have hrva := value_atOffset_of_holdsAt hsize
    (hfunctions.getElem (fun _ => length_leBytes _ _) hi) (length_leBytes _ _) (by decide)
  have hslot : t.slots[i] = t.slot i := (List.getD_eq_getElem _ _ hi).symm
  have hname : (((pe.exportNames t.encode t.slots.length).value.drop i).take 1).headD []
      = t.nameOf i := by
    rw [← getD_exportNames hsize h hi, List.getD_eq_getElem?_getD, ← List.head?_drop]
    cases (pe.exportNames t.encode t.slots.length).value.drop i <;> rfl
  rw [readExport, value_bind, hrva, hslot]
  simp only [u32At_leBytes]
  split
  · rfl
  · rw [value_bind, value_bind, value_raw, hname, value_forwarder hsize h hi]
    rfl

/-- What is listed: the slots that are no gaps, each with its last name. -/
theorem getExports_eq (hdir : pe.directory imageDirectoryEntryExport = some dir) :
    ∃ exports, pe.getExports.value = some exports ∧ exports.base = t.base
      ∧ exports.functions = t.listing.map (t.exported dir) := by
  have hfields := fields_encode h
  obtain ⟨offset, hoffset, hread⟩ := value_exportDirectory hsize h
  have hlisting : t.listing.map (t.exported dir) = (List.range t.slots.length).filterMap
      fun i => if t.slot i = 0 then none else some (t.exported dir (i, t.nameOf i)) := by
    rw [ExportTables.listing, List.map_filterMap]
    refine List.filterMap_congr fun i _ => ?_
    split <;> rfl
  unfold getExports
  simp only [hdir, hoffset, value_bind, hread]
  refine ⟨_, rfl, ?_⟩
  unfold readExports
  rw [value_bind, hfields.slots, Nat.min_eq_left h.slots_le, hfields.functionsRva, hfields.base,
    hlisting]
  by_cases hempty : t.slots = []
  · rw [hempty]
    split <;> exact ⟨rfl, rfl⟩
  · have hne : (t.slots.flatMap fun rva => leBytes 4 rva.toNat) ≠ [] := by
      obtain ⟨rva, hrva⟩ := List.exists_mem_of_ne_nil _ hempty
      exact fun hnil => absurd (congrArg List.length (List.flatMap_eq_nil_iff.mp hnil rva hrva))
        (by simp)
    obtain ⟨functionsOffset, hfunctionsOffset, hfunctions⟩ :=
      h.functionTable.exists_offset hne hsize
    rw [hfunctionsOffset]
    exact ⟨rfl, value_collect_range (Nat.le_refl _)
      (fun i hi => value_readExport hsize h hfunctions hi) fun hlt => absurd hlt (lt_irrefl _)⟩

end PEFile

/-! ## the join -/

namespace ExportTables

variable {t : ExportTables} {dir : PEDataDirectory}

theorem lt_of_slot_ne_zero {i : ℕ} (h : t.slot i ≠ 0) : i < t.slots.length := by
  by_contra hge
  exact h (List.getD_eq_default _ _ (not_lt.mp hge))

/-- The name of a slot is one that points to it, if any does. -/
theorem nameOf_cases (t : ExportTables) (i : ℕ) :
    (∃ n ∈ t.names, n.index.toNat = i ∧ n.name = t.nameOf i)
      ∨ (∀ n ∈ t.names, n.index.toNat ≠ i) ∧ t.nameOf i = [] := by
  have hfold (ns : List ExportName) (first : Bytes) :
      let last := ns.foldl (fun name n => if n.index.toNat = i then n.name else name) first
      (∃ n ∈ ns, n.index.toNat = i ∧ n.name = last) ∨ (∀ n ∈ ns, n.index.toNat ≠ i) ∧ last = first := by
    induction ns generalizing first with
    | nil => exact .inr ⟨by simp, rfl⟩
    | cons n ns ih =>
      simp only [List.foldl_cons, List.forall_mem_cons, List.exists_mem_cons_iff]
      split
      · next hn =>
        obtain hlater | ⟨-, hfirst⟩ := ih n.name
        · exact .inl (.inr hlater)
        · exact .inl (.inl ⟨hn, hfirst.symm⟩)
      · next hn =>
        obtain hlater | ⟨hnone, hfirst⟩ := ih first
        · exact .inl (.inr hlater)
        · exact .inr ⟨⟨hn, hnone⟩, hfirst⟩
  exact hfold t.names []

theorem mem_listing {e : ℕ × Bytes} :
    e ∈ t.listing ↔ t.slot e.1 ≠ 0 ∧ e.2 = t.nameOf e.1 := by
  obtain ⟨i, name⟩ := e
  simp only [listing, List.mem_filterMap, List.mem_range]
  constructor
  · rintro ⟨j, -, hj⟩
    split at hj
    · cases hj
    · next hslot =>
      cases hj
      exact ⟨hslot, rfl⟩
  · rintro ⟨hslot, rfl⟩
    exact ⟨i, lt_of_slot_ne_zero hslot, if_neg hslot⟩

theorem listing_pairwise (t : ExportTables) : t.listing.Pairwise (·.1 < ·.1) := by
  refine List.Pairwise.filterMap _ (fun i j hlt e he e' he' => ?_) List.pairwise_lt_range
  split at he
  · cases he
  · split at he'
    · cases he'
    · cases he
      cases he'
      exact hlt

/-- One name a slot is the join when all names of a slot are the same. -/
theorem joins_listing (h : ∀ a ∈ t.names, ∀ b ∈ t.names, a.index = b.index →
    t.slot a.index.toNat ≠ 0 → a.name = b.name) : t.Joins t.listing where
  ordered := t.listing_pairwise.imp fun hlt => hlt.le
  slot_ne_zero e he := (mem_listing.mp he).1
  every_slot i hi := ⟨t.nameOf i, mem_listing.mpr ⟨hi, rfl⟩⟩
  every_name n hn hslot := by
    refine mem_listing.mpr ⟨hslot, ?_⟩
    obtain ⟨n', hn', hindex, hname⟩ | ⟨hnone, -⟩ := t.nameOf_cases n.index.toNat
    · exact (h n hn n' hn' (UInt16.toNat_inj.mp hindex).symm hslot).trans hname
    · exact absurd rfl (hnone n hn)
  only_names e he := by
    rintro ⟨n, hn, hindex⟩
    obtain hnamed | ⟨hnone, -⟩ := t.nameOf_cases e.1
    · rwa [(mem_listing.mp he).2]
    · exact absurd hindex (hnone n hn)
  unnamed_once i hi hnone := by
    have hnil : t.nameOf i = [] := by
      obtain ⟨n, hn, hindex, -⟩ | ⟨-, hnil⟩ := t.nameOf_cases i
      · exact absurd hindex (hnone n hn)
      · exact hnil
    have hnodup : t.listing.Nodup :=
      t.listing_pairwise.imp fun hlt heq => (heq ▸ hlt).false
    refine List.perm_singleton.mp
      ((List.perm_ext_iff_of_nodup (hnodup.filter _) (List.nodup_singleton _)).mpr fun e => ?_)
    rw [List.mem_filter, decide_eq_true_eq, List.mem_singleton, mem_listing]
    constructor
    · rintro ⟨⟨-, hname⟩, rfl⟩
      exact Prod.ext rfl (hname.trans hnil)
    · rintro rfl
      exact ⟨⟨hi, hnil.symm⟩, rfl⟩

/-- Functions of different slots have different ordinals. -/
theorem exported_inj (hle : t.slots.length ≤ maxExports) {e e' : ℕ × Bytes}
    (he : t.slot e.1 ≠ 0) (he' : t.slot e'.1 ≠ 0) (h : t.exported dir e = t.exported dir e') :
    e = e' := by
  have hlt := lt_of_slot_ne_zero he
  have hlt' := lt_of_slot_ne_zero he'
  unfold maxExports at hle
  have hordinal : e.1.toUInt32 = e'.1.toUInt32 :=
    add_left_cancel (congrArg PEExportedFunction.ordinal h)
  have hindex := congrArg UInt32.toNat hordinal
  rw [Nat.toUInt32_eq, Nat.toUInt32_eq, UInt32.toNat_ofNat', UInt32.toNat_ofNat',
    Nat.mod_eq_of_lt (by omega), Nat.mod_eq_of_lt (by omega)] at hindex
  exact Prod.ext hindex (congrArg PEExportedFunction.name h)

/-- The functions with one name a slot are a join only if all names of a slot are the same. -/
theorem joins_iff (hle : t.slots.length ≤ maxExports) :
    (∃ listing, t.Joins listing ∧ t.listing.map (t.exported dir) = listing.map (t.exported dir))
      ↔ ∀ a ∈ t.names, ∀ b ∈ t.names, a.index = b.index → t.slot a.index.toNat ≠ 0 →
        a.name = b.name := by
  constructor
  · rintro ⟨listing, hjoins, hmap⟩ a ha b hb hindex hslot
    have honly {n : ExportName} (hn : n ∈ t.names) (hne : t.slot n.index.toNat ≠ 0) :
        n.name = t.nameOf n.index.toNat := by
      have hmem := List.mem_map_of_mem (f := t.exported dir) (hjoins.every_name n hn hne)
      rw [← hmap] at hmem
      obtain ⟨e, he, heq⟩ := List.mem_map.mp hmem
      obtain ⟨hslot, hname⟩ := mem_listing.mp he
      obtain rfl := exported_inj hle hslot hne heq
      exact hname
    rw [honly ha hslot, honly hb (hindex ▸ hslot), hindex]
  · exact fun h => ⟨t.listing, joins_listing h, rfl⟩

end ExportTables

/-- Every name is listed with its slot unless a slot has two: it keeps the last. -/
theorem getExports_iff {data : Bytes} {pe : PEFile} (hload : (load data).value = some pe)
    {dir : PEDataDirectory} (hdir : pe.directory imageDirectoryEntryExport = some dir)
    {t : ExportTables} (h : t.Laid pe dir) :
    ∃ exports, pe.getExports.value = some exports ∧ exports.base = t.base ∧
      ((∃ listing, t.Joins listing ∧ exports.functions = listing.map (t.exported dir))
        ↔ ∀ a ∈ t.names, ∀ b ∈ t.names, a.index = b.index → t.slot a.index.toNat ≠ 0 →
          a.name = b.name) := by
  obtain ⟨exports, hexports, hbase, hfunctions⟩ := getExports_eq (load_eq_some hload).2 h hdir
  refine ⟨exports, hexports, hbase, ?_⟩
  rw [hfunctions]
  exact ExportTables.joins_iff h.slots_le

/-- Two functions with a gap between them, the second a forwarder, and two names: the first one's
and a slot's. -/
def twoNames (index : UInt16) : ExportTables where
  head := List.replicate 12 0
  libraryRva := 0x1050
  base := 5
  functionsRva := 0x1028
  slots := [0x2000, 0, 0x1056]
  namesRva := 0x1034
  ordinalsRva := 0x103C
  names := [⟨0x1050, [0x41], 0⟩, ⟨0x1052, [0x42], index⟩]
  forwarders _ := [0x4E, 0x2E, 0x46]

/-- The tables one after the other, then the strings. -/
def exportImage (t : ExportTables) : Bytes :=
  imageOf [⟨0x1000, 0x60⟩] (t.encode ++ t.slots.flatMap (fun rva => leBytes 4 rva.toNat)
    ++ t.names.flatMap (fun n => leBytes 4 n.rva.toNat)
    ++ t.names.flatMap (fun n => leBytes 2 n.index.toNat) ++ List.replicate 16 0
    ++ [0x41, 0, 0x42, 0, 0, 0, 0x4E, 0x2E, 0x46, 0])

theorem laid_twoNames (index : UInt16) (h : index = 0 ∨ index = 2) :
    ∃ pe, (load (exportImage (twoNames index))).value = some pe
      ∧ pe.directory imageDirectoryEntryExport = some ⟨0x1000, 0x60⟩
      ∧ (twoNames index).Laid pe ⟨0x1000, 0x60⟩ := by
  have hall : ∃ pe ∈ (load (exportImage (twoNames index))).value,
      pe.directory imageDirectoryEntryExport = some ⟨0x1000, 0x60⟩
        ∧ Placed pe 0x1000 (twoNames index).encode
        ∧ Placed pe 0x1028 ((twoNames index).slots.flatMap fun rva => leBytes 4 rva.toNat)
        ∧ Placed pe 0x1034 ((twoNames index).names.flatMap fun n => leBytes 4 n.rva.toNat)
        ∧ Placed pe 0x103C ((twoNames index).names.flatMap fun n => leBytes 2 n.index.toNat)
        ∧ (∀ n ∈ (twoNames index).names, NameAt pe n.rva n.name)
        ∧ NameAt pe 0x1056 [0x4E, 0x2E, 0x46] := by
    obtain rfl | rfl := h <;> decide +kernel
  obtain ⟨pe, hload, hdir, hdirectory, hfunctions, hnames, hordinals, hname, hforwarder⟩ := hall
  have hslot : ∀ rva ∈ (twoNames index).slots, PEDataDirectory.Has ⟨0x1000, 0x60⟩ rva →
      rva = 0x1056 := by
    obtain rfl | rfl := h <;> decide
  exact ⟨pe, hload, hdir, rfl, by simp [twoNames, maxExports], by simp [twoNames, maxExports],
    hdirectory, hfunctions, hnames, hordinals, hname,
    fun rva hrva hhas => hslot rva hrva hhas ▸ hforwarder⟩

/-- Two names of two functions are both listed. -/
theorem getExports_iff_twoNames : ∃ pe exports, (load (exportImage (twoNames 2))).value = some pe
    ∧ pe.getExports.value = some exports
    ∧ ∃ listing, (twoNames 2).Joins listing
      ∧ exports.functions = listing.map ((twoNames 2).exported ⟨0x1000, 0x60⟩) := by
  obtain ⟨pe, hload, hdir, hlaid⟩ := laid_twoNames 2 (.inr rfl)
  obtain ⟨exports, hexports, -, hiff⟩ := getExports_iff hload hdir hlaid
  exact ⟨pe, exports, hload, hexports, hiff.mpr (by decide)⟩

/-- Of two names of one function the first is lost. -/
theorem alias_lost : ∃ pe exports, (load (exportImage (twoNames 0))).value = some pe
    ∧ pe.directory imageDirectoryEntryExport = some ⟨0x1000, 0x60⟩
    ∧ (twoNames 0).Laid pe ⟨0x1000, 0x60⟩ ∧ pe.getExports.value = some exports
    ∧ ¬∃ listing, (twoNames 0).Joins listing
      ∧ exports.functions = listing.map ((twoNames 0).exported ⟨0x1000, 0x60⟩) := by
  obtain ⟨pe, hload, hdir, hlaid⟩ := laid_twoNames 0 (.inl rfl)
  obtain ⟨exports, hexports, -, hfunctions⟩ := getExports_eq (load_eq_some hload).2 hlaid hdir
  refine ⟨pe, exports, hload, hdir, hlaid, hexports, ?_⟩
  rw [hfunctions, ExportTables.joins_iff hlaid.slots_le]
  decide

end WinSys.PE
