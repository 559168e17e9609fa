import WinSys.PE.Placed

/-!
# The imports of a PE image

`GetImports` reads the import directory's descriptors, then the delay import directory's, and for
each the name and the table of thunks it points to. Both end with a zero entry.

* `Thunk`, `ImportDescriptor`, `DelayDescriptor`: the tables and where they are
* `value_readThunks`, `value_readLibraries`: a table of each kind
* `getImports_eq`: what was encoded is read
-/

namespace WinSys.PE

open Infra Reads PEFile

/-! ## thunks -/

/-- A function's thunk: the RVA of its hint and name, or its ordinal. -/
inductive Thunk where
  | byName (rva : UInt32) (hint : UInt16) (name : Bytes)
  | byOrdinal (ordinal : UInt16)

namespace Thunk

def size (is64 : Bool) : ℕ := if is64 then 8 else 4

/-- The top bit of a thunk is the flag of an ordinal. -/
def flag (is64 : Bool) : ℕ := if is64 then 2 ^ 63 else 2 ^ 31

def value (is64 : Bool) : Thunk → ℕ
  | .byName rva _ _ => rva.toNat
  | .byOrdinal n => flag is64 + n.toNat

def encode (is64 : Bool) (thunk : Thunk) : Bytes := leBytes (size is64) (thunk.value is64)

def function : Thunk → PEImportedFunction
  | .byName _ hint name => { hint := hint, name := name }
  | .byOrdinal n => { byOrdinal := true, ordinal := n }

/-- A name's thunk is an RVA that is neither the end's nor an ordinal's, with the hint and the name
there. -/
def Laid (pe : PEFile) : Thunk → Prop
  | .byName rva hint name => (rva ≠ 0 ∧ rva.toNat < flag pe.headers.is64)
      ∧ (0 ∉ name ∧ name.length ≤ maxString)
      ∧ Placed pe rva (leBytes 2 hint.toNat ++ (name ++ [0]))
  | .byOrdinal _ => True

instance (pe : PEFile) : DecidablePred (Laid pe)
  | .byName _ _ _ => inferInstanceAs (Decidable (_ ∧ _))
  | .byOrdinal _ => inferInstanceAs (Decidable True)

end Thunk

/-- A table of thunks and its end are at an RVA. -/
structure ThunksAt (pe : PEFile) (rva : UInt32) (thunks : List Thunk) : Prop where
  length_le : thunks.length ≤ maxThunks
  table : Placed pe rva (thunks.flatMap (Thunk.encode pe.headers.is64)
    ++ List.replicate (Thunk.size pe.headers.is64) 0)
  thunk : ∀ thunk ∈ thunks, thunk.Laid pe

theorem Thunk.flag_pos (is64 : Bool) : 0 < Thunk.flag is64 := by unfold Thunk.flag; split <;> decide

namespace PEFile

variable {pe : PEFile} {is64 : Bool} {thunk : Thunk}

theorem value_lt (h : thunk.Laid pe) :
    thunk.value pe.headers.is64 < 2 * Thunk.flag pe.headers.is64 := by
  cases thunk with
  | byName rva hint name =>
    have hlt := h.1.2
    rw [Thunk.value]
    omega
  | byOrdinal n =>
    have hlt := n.toNat_lt
    have hflag : 2 ^ 16 ≤ Thunk.flag pe.headers.is64 := by unfold Thunk.flag; split <;> decide
    rw [Thunk.value]
    omega

/-- A thunk that is in the table is read. -/
theorem value_readThunk (hsize : pe.data.length ≤ maxFileSize) {offset i n : ℕ}
    (hn : n < 2 * Thunk.flag pe.headers.is64)
    (h : HoldsAt pe.data (offset + i * Thunk.size pe.headers.is64)
      (leBytes (Thunk.size pe.headers.is64) n)) :
    (pe.readThunk offset i).value = some n.toUInt64 := by
  unfold readThunk
  unfold Thunk.size at h
  unfold Thunk.flag at hn
  split
  · next h64 =>
    rw [if_pos h64] at h hn
    rw [value_bind, value_atOffset_of_holdsAt hsize h (length_leBytes _ _) (by decide), value_pure,
      Option.map_some, u64At_leBytes_nat (by omega)]
  · next h64 =>
    rw [if_neg h64] at h hn
    have hwide : (n.toUInt32).toUInt64 = n.toUInt64 := by
      refine UInt64.toNat_inj.mp ?_
      rw [UInt32.toNat_toUInt64, Nat.toUInt32_eq, UInt32.toNat_ofNat', Nat.toUInt64_eq,
        UInt64.toNat_ofNat', Nat.mod_eq_of_lt (by omega), Nat.mod_eq_of_lt (by omega)]
    rw [value_bind, value_atOffset_of_holdsAt hsize h (length_leBytes _ _) (by decide), value_pure,
      Option.map_some, u32At_leBytes_nat (by omega), hwide]

/-- The flag of an ordinal is a number's top bit. -/
theorem byOrdinal_iff {n : ℕ} (hn : n < 2 * Thunk.flag pe.headers.is64) :
    pe.byOrdinal n.toUInt64 = true ↔ Thunk.flag pe.headers.is64 ≤ n := by
  have hbit (k : ℕ) (hk : k < 64) (hlt : n < 2 * 2 ^ k) :
      n.toUInt64 &&& (2 ^ k).toUInt64 ≠ 0 ↔ 2 ^ k ≤ n := by
    have hpow : 2 * 2 ^ k ≤ 2 ^ 64 := by
      rw [← Nat.pow_succ']
      exact Nat.pow_le_pow_right (by decide) hk
    have hpos := Nat.two_pow_pos k
    rw [ne_eq, ← UInt64.toNat_inj, UInt64.toNat_and, Nat.toUInt64_eq, UInt64.toNat_ofNat',
      Nat.mod_eq_of_lt (by omega), Nat.toUInt64_eq, UInt64.toNat_ofNat', Nat.mod_eq_of_lt (by omega),
      UInt64.toNat_zero]
    exact and_two_pow_ne_zero_iff hlt
  unfold PEFile.byOrdinal
  unfold Thunk.flag at hn ⊢
  split
  · next h64 =>
    rw [if_pos h64] at hn
    exact decide_eq_true_iff.trans (hbit 63 (by decide) hn)
  · next h64 =>
    rw [if_neg h64] at hn
    exact decide_eq_true_iff.trans (hbit 31 (by decide) hn)

variable (hsize : pe.data.length ≤ maxFileSize)

include hsize

theorem value_importByName {rva : UInt32} {hint : UInt16} {name : Bytes}
    (h : (Thunk.byName rva hint name).Laid pe) :
    (pe.importByName rva).value = { hint := hint, name := name } := by
  obtain ⟨-, ⟨hnul, hle⟩, hplaced⟩ := h
  obtain ⟨offset, hoffset, hholds⟩ := hplaced.exists_offset (by simp [leBytes]) hsize
  have hname := hholds.right
  rw [length_leBytes] at hname
  unfold importByName
  rw [hoffset]
  simp only [value_bind, value_pure,
    value_atOffset_of_holdsAt hsize hholds.left (length_leBytes _ _) (by decide : 0 < 2),
    value_stringAt_of_holdsAt hsize hnul hle hname, u16At_leBytes]

theorem value_readThunks_turn {offset i : ℕ}
    (hat : HoldsAt pe.data (offset + i * Thunk.size pe.headers.is64)
      (thunk.encode pe.headers.is64)) (h : thunk.Laid pe) :
    (readThunks.turn pe offset i).value = .add thunk.function := by
  have hlt := value_lt h
  rw [readThunks.turn, value_bind, value_readThunk hsize hlt hat]
  have hmax : 2 * Thunk.flag pe.headers.is64 ≤ 2 ^ 64 := by unfold Thunk.flag; split <;> decide
  have htoNat : ((thunk.value pe.headers.is64).toUInt64).toNat = thunk.value pe.headers.is64 := by
    rw [Nat.toUInt64_eq, UInt64.toNat_ofNat', Nat.mod_eq_of_lt (by omega)]
  have hne : (thunk.value pe.headers.is64).toUInt64 ≠ 0 := by
    rw [ne_eq, ← UInt64.toNat_inj, htoNat]
    cases thunk with
    | byName rva hint name => exact fun hzero => h.1.1 (UInt32.toNat_inj.mp hzero)
    | byOrdinal n =>
      rw [Thunk.value]
      exact (Nat.add_pos_left (Thunk.flag_pos _) _).ne'
  simp only [if_neg hne]
  cases thunk with
  | byName rva hint name =>
    have hname : ¬pe.byOrdinal (rva.toNat.toUInt64) = true :=
      mt (byOrdinal_iff hlt).mp (not_le.mpr h.1.2)
    have hrva : (rva.toNat.toUInt64).toUInt32 = rva := by
      refine UInt32.toNat_inj.mp ?_
      rw [UInt64.toNat_toUInt32]
      exact (congrArg (· % 2 ^ 32) htoNat).trans (Nat.mod_eq_of_lt rva.toNat_lt)
    rw [Thunk.value, if_neg hname, hrva, value_bind, value_importByName hsize h]
    rfl
  | byOrdinal n =>
    have hordinal : ((Thunk.flag pe.headers.is64 + n.toNat).toUInt64).toUInt16 = n := by
      refine UInt16.toNat_inj.mp ?_
      have hdvd : Thunk.flag pe.headers.is64 % 2 ^ 16 = 0 := by unfold Thunk.flag; split <;> decide
      have hn := n.toNat_lt
      rw [UInt64.toNat_toUInt16]
      refine (congrArg (· % 2 ^ 16) htoNat).trans ?_
      simp only [Thunk.value]
      omega
    have hflag : pe.byOrdinal ((Thunk.flag pe.headers.is64 + n.toNat).toUInt64) = true :=
      (byOrdinal_iff hlt).mpr (Nat.le_add_right _ _)
    rw [Thunk.value, if_pos hflag, hordinal]
    rfl

/-- The functions of a table of thunks, up to its end. -/
theorem value_readThunks {rva : UInt32} {thunks : List Thunk} (h : ThunksAt pe rva thunks) :
    (pe.readThunks rva).value = thunks.map Thunk.function := by
  have hwidth (thunk : Thunk) :
      (thunk.encode pe.headers.is64).length = Thunk.size pe.headers.is64 := length_leBytes _ _
  have hpos : 0 < Thunk.size pe.headers.is64 := by unfold Thunk.size; split <;> decide
  have hend : List.replicate (Thunk.size pe.headers.is64) (0 : UInt8)
      = leBytes (Thunk.size pe.headers.is64) 0 := by unfold Thunk.size; split <;> rfl
  have hplaced := h.table
  rw [hend] at hplaced
  obtain ⟨offset, hoffset, hholds⟩ := hplaced.exists_offset
    (List.append_ne_nil_of_right_ne_nil _ (List.length_pos_iff.mp (by simpa using hpos))) hsize
  rw [readThunks, hoffset]
  refine value_collect_map h.length_le (fun j hj => ?_) fun _ => ?_
  · rw [Nat.zero_add]
    exact value_readThunks_turn hsize (hholds.left.getElem hwidth hj) (h.thunk _ (List.getElem_mem hj))
  · have hzero := value_readThunk hsize (Nat.mul_pos Nat.two_pos (Thunk.flag_pos _))
      (hholds.after hwidth)
    rw [Nat.zero_add, readThunks.turn, value_bind, hzero]
    rfl

end PEFile

/-! ## libraries -/

/-- `IMAGE_IMPORT_DESCRIPTOR`, with the library's name and functions. Its lookup table is at
`OriginalFirstThunk`; without one the address table holds the same. -/
structure ImportDescriptor where
  originalFirstThunk : UInt32
  timeDateStamp : UInt32
  forwarderChain : UInt32
  nameRva : UInt32
  firstThunk : UInt32
  name : Bytes
  thunks : List Thunk

namespace ImportDescriptor

variable (d : ImportDescriptor)

def encode : Bytes :=
  leBytes 4 d.originalFirstThunk.toNat ++ (leBytes 4 d.timeDateStamp.toNat
    ++ (leBytes 4 d.forwarderChain.toNat ++ (leBytes 4 d.nameRva.toNat
      ++ leBytes 4 d.firstThunk.toNat)))

def table : UInt32 := if d.originalFirstThunk ≠ 0 then d.originalFirstThunk else d.firstThunk

def library : PEImportedLibrary where
  name := d.name
  functions := d.thunks.map Thunk.function

/-- The descriptor is not the end's; its name and table are where it says. -/
structure Laid (pe : PEFile) : Prop where
  not_end : ¬(d.nameRva = 0 ∧ d.firstThunk = 0)
  name : NameAt pe d.nameRva d.name
  thunks : ThunksAt pe d.table d.thunks

end ImportDescriptor

/-- `IMAGE_DELAYLOAD_DESCRIPTOR`, with the library's name and functions, and the RVAs of these. -/
structure DelayDescriptor where
  attributes : UInt32
  dllName : UInt32
  moduleHandle : UInt32
  importAddressTable : UInt32
  importNameTable : UInt32
  boundImportAddressTable : UInt32
  unloadInformationTable : UInt32
  timeDateStamp : UInt32
  nameRva : UInt32
  tableRva : UInt32
  name : Bytes
  thunks : List Thunk

namespace DelayDescriptor

variable (d : DelayDescriptor)

def encode : Bytes :=
  leBytes 4 d.attributes.toNat ++ (leBytes 4 d.dllName.toNat ++ (leBytes 4 d.moduleHandle.toNat
    ++ (leBytes 4 d.importAddressTable.toNat ++ (leBytes 4 d.importNameTable.toNat
      ++ (leBytes 4 d.boundImportAddressTable.toNat ++ (leBytes 4 d.unloadInformationTable.toNat
        ++ leBytes 4 d.timeDateStamp.toNat))))))

/-- A field of the descriptor points to an RVA: it is the RVA, or its address. -/
def Points (pe : PEFile) (field rva : UInt32) : Prop :=
  if d.attributes &&& 1 ≠ 0 then field = rva
  else field.toNat = pe.headers.imageBase.toNat + rva.toNat

instance (pe : PEFile) (field rva : UInt32) : Decidable (d.Points pe field rva) :=
  inferInstanceAs (Decidable (if d.attributes &&& 1 ≠ 0 then field = rva
    else field.toNat = pe.headers.imageBase.toNat + rva.toNat))

def library : PEImportedLibrary where
  name := d.name
  delayed := true
  functions := d.thunks.map Thunk.function

structure Laid (pe : PEFile) : Prop where
  not_end : d.dllName ≠ 0
  points_name : d.Points pe d.dllName d.nameRva
  points_table : d.Points pe d.importNameTable d.tableRva
  name : NameAt pe d.nameRva d.name
  thunks : ThunksAt pe d.tableRva d.thunks

end DelayDescriptor

/-- The descriptors of a directory, and an end of zeros, are at its RVA. Without libraries there may
be no directory. -/
def DescriptorsAt {α : Type} (pe : PEFile) (index : ℕ) (encode : α → Bytes) (size : ℕ)
    (ds : List α) : Prop :=
  (pe.directory index = none ∧ ds = []) ∨
    ∃ dir, pe.directory index = some dir ∧ ds.length ≤ maxLibraries
      ∧ Placed pe dir.rva (ds.flatMap encode ++ List.replicate size 0)

namespace PEFile

variable {pe : PEFile}

/-- What a field of a delay descriptor points to. -/
theorem toRva_eq {d : DelayDescriptor} {field rva : UInt32} (h : d.Points pe field rva) :
    pe.toRva d.encode field = rva := by
  have hattributes : u32At d.encode 0 = d.attributes := by simp [DelayDescriptor.encode]
  unfold DelayDescriptor.Points at h
  rw [toRva, hattributes]
  split at h
  · next hrva => rw [if_pos (.inl hrva), h]
  · next haddress =>
    split
    · next hzero =>
      obtain rfl := hzero.resolve_left haddress
      rw [UInt32.toNat_zero] at h
      exact UInt32.toNat_inj.mp (by rw [UInt32.toNat_zero]; omega)
    · have hle : pe.headers.imageBase ≤ field.toUInt64 := by
        rw [UInt64.le_iff_toNat_le, UInt32.toNat_toUInt64]
        omega
      rw [if_pos hle]
      refine UInt32.toNat_inj.mp ?_
      have hlt := rva.toNat_lt
      rw [UInt64.toNat_toUInt32, UInt64.toNat_sub_of_le _ _ hle, UInt32.toNat_toUInt64]
      omega

variable (hsize : pe.data.length ≤ maxFileSize)

include hsize

/-- The libraries of a directory whose descriptors are each read, up to the end. -/
theorem value_readLibraries {α : Type} {index : ℕ} {encode : α → Bytes} {size : ℕ} {ds : List α}
    {library : α → PEImportedLibrary} {read : ℕ → ℕ → Reads (Turn PEImportedLibrary)}
    (hpos : 0 < size) (hwidth : ∀ d, (encode d).length = size)
    (hread : ∀ d ∈ ds, ∀ offset i, HoldsAt pe.data (offset + i * size) (encode d) →
      (read offset i).value = .add (library d))
    (hend : ∀ offset i, HoldsAt pe.data (offset + i * size) (List.replicate size 0) →
      (read offset i).value = .stop)
    (h : DescriptorsAt pe index encode size ds) :
    (pe.readLibraries index read).value = ds.map library := by
  unfold readLibraries
  obtain ⟨hdir, rfl⟩ | ⟨dir, hdir, hle, hplaced⟩ := h
  · rw [hdir]
    rfl
  · obtain ⟨offset, hoffset, hholds⟩ := hplaced.exists_offset
      (List.append_ne_nil_of_right_ne_nil _ (List.length_pos_iff.mp (by simpa using hpos))) hsize
    rw [hdir, Option.bind_some, hoffset]
    refine value_collect_map hle (fun j hj => ?_) fun _ => ?_
    · rw [Nat.zero_add]
      exact hread _ (List.getElem_mem hj) _ _ (hholds.left.getElem hwidth hj)
    · rw [Nat.zero_add]
      exact hend _ _ (hholds.after hwidth)

theorem value_readImport {d : ImportDescriptor} (h : d.Laid pe) {offset i : ℕ}
    (hat : HoldsAt pe.data (offset + i * 20) d.encode) :
    (pe.readImport offset i).value = .add d.library := by
  have hlength : d.encode.length = 20 := by simp [ImportDescriptor.encode]
  have hname : u32At d.encode 12 = d.nameRva := by simp [ImportDescriptor.encode]
  have hfirst : u32At d.encode 16 = d.firstThunk := by simp [ImportDescriptor.encode]
  have horiginal : u32At d.encode 0 = d.originalFirstThunk := by simp [ImportDescriptor.encode]
  rw [readImport, value_bind, value_atOffset_of_holdsAt hsize hat hlength (by decide)]
  simp only [hname, hfirst, horiginal, if_neg h.not_end, value_bind]
  rw [h.name.value_stringAtRva hsize]
  have hthunks := value_readThunks hsize h.thunks
  unfold ImportDescriptor.table at hthunks
  rw [hthunks]
  rfl

theorem value_readDelayImport {d : DelayDescriptor} (h : d.Laid pe) {offset i : ℕ}
    (hat : HoldsAt pe.data (offset + i * 32) d.encode) :
    (pe.readDelayImport offset i).value = .add d.library := by
  have hlength : d.encode.length = 32 := by simp [DelayDescriptor.encode]
  have hname : u32At d.encode 4 = d.dllName := by simp [DelayDescriptor.encode]
  have htable : u32At d.encode 16 = d.importNameTable := by simp [DelayDescriptor.encode]
  rw [readDelayImport, value_bind, value_atOffset_of_holdsAt hsize hat hlength (by decide)]
  simp only [hname, htable, if_neg h.not_end, value_bind, toRva_eq h.points_name,
    toRva_eq h.points_table]
  rw [h.name.value_stringAtRva hsize, value_readThunks hsize h.thunks]
  rfl

end PEFile

def libraryA : ImportDescriptor where
  originalFirstThunk := 0x1068
  timeDateStamp := 0
  forwarderChain := 0
  nameRva := 0x107C
  firstThunk := 0x2000
  name := [0x41]
  thunks := [.byName 0x1080 3 [0x66], .byOrdinal 7]

def libraryB : DelayDescriptor where
  attributes := 0
  dllName := 0x107E
  moduleHandle := 0
  importAddressTable := 0x2000
  importNameTable := 0x1074
  boundImportAddressTable := 0
  unloadInformationTable := 0
  timeDateStamp := 0
  nameRva := 0x107E
  tableRva := 0x1074
  name := [0x42]
  thunks := [.byOrdinal 9]

/-- The descriptors, the tables, the names, then the hint and the name of a function. -/
def importImage : Bytes :=
  imageOf ([⟨0, 0⟩, ⟨0x1000, 40⟩] ++ List.replicate 11 ⟨0, 0⟩ ++ [⟨0x1028, 64⟩])
    (libraryA.encode ++ List.replicate 20 0 ++ libraryB.encode ++ List.replicate 32 0
      ++ libraryA.thunks.flatMap (Thunk.encode false) ++ List.replicate 4 0
      ++ libraryB.thunks.flatMap (Thunk.encode false) ++ List.replicate 4 0
      ++ [0x41, 0, 0x42, 0, 3, 0, 0x66, 0])

end WinSys.PE
