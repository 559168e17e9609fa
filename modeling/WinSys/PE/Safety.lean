import WinSys.Infra.Layout
import WinSys.PE.Directories

/-!
# No read outside the file

What `At` gives was checked against the file, whatever offset it was asked for. The accesses that
do not go through it are the directories, inside the optional header; a string up to its NUL; a
resource name, a resource's data and its icons, each behind a check of its own.

* `parse_safe`, `parsed`: the headers, and what a file that is parsed has
* `Contained`, `parse_contained`: what is read of it stays inside it and is bounded
-/

namespace WinSys.PE

open Infra Reads

/-! ## checked reads -/

section Bytes

variable {data : Bytes}

@[simp] theorem safe_atOffset (size offset : ℕ) : (atOffset data size offset).Safe := by
  unfold atOffset
  refine Safe.ite (fun _ => safe_pure _) fun h => ?_
  rw [not_or, Nat.not_lt, Nat.not_lt] at h
  refine (safe_bind _ _).mpr ⟨(safe_raw _ _ _).mpr ?_, safe_pure _⟩
  omega

theorem atOffset_eq_some {size offset : ℕ} {bs : Bytes}
    (h : (atOffset data size offset).value = some bs) :
    sizeT offset + size ≤ data.length ∧ bs = (data.drop (sizeT offset)).take size := by
  unfold atOffset at h
  split at h
  · cases h
  · next hinside =>
    cases h
    exact ⟨by omega, rfl⟩

@[simp] theorem safe_strnlen {offset count : ℕ} :
    (strnlen data offset count).Safe ↔ offset + min ((strnlen data offset count).value + 1) count
      ≤ data.length := by
  simp [strnlen]

/-- What is inside the file is found. -/
theorem value_atOffset {size offset : ℕ} (h : sizeT offset + size ≤ data.length) :
    (atOffset data size offset).value = some ((data.drop (sizeT offset)).take size) := by
  unfold atOffset
  rw [if_neg (by omega)]
  rfl

theorem strnlen_le (offset count : ℕ) : (strnlen data offset count).value ≤ count := by
  exact (List.takeWhile_prefix _).length_le.trans (List.length_take_le _ _)

@[simp] theorem safe_stringAt (offset maxLength : ℕ) : (stringAt data offset maxLength).Safe := by
  unfold stringAt
  refine Safe.ite (fun _ => safe_pure _) fun h => ?_
  have hle := @strnlen_le data (sizeT offset) (min (data.length - sizeT offset) maxLength)
  refine (safe_bind _ _).mpr ⟨safe_strnlen.mpr (by omega), ?_⟩
  refine Safe.ite (fun _ => safe_pure _) fun _ => (safe_raw _ _ _).mpr ?_
  omega

end Bytes

/-! ## the headers -/

theorem directoryCount_le (l : OptionalLayout) (o : Bytes) (optionalSize : ℕ) :
    directoryCount l o optionalSize ≤ 16 := Nat.min_le_right _ _

theorem safe_readSection (data : Bytes) (sectionOffset i : ℕ) :
    (readSection data sectionOffset i).Safe := by
  refine (safe_bind _ _).mpr ⟨safe_atOffset _ _, ?_⟩
  split <;> exact safe_pure _

/-- The layouts leave room for 16 directories. -/
def OptionalLayout.Roomy (l : OptionalLayout) : Prop := l.dataDirectory + 16 * 8 ≤ l.size

theorem safe_parseOptional (data : Bytes) {l : OptionalLayout} (hl : l.Roomy) (fileHeader : Bytes)
    {optionalOffset : ℕ} (hlt : optionalOffset < 2 ^ 64) :
    (parseOptional data l fileHeader optionalOffset).Safe := by
  refine (safe_bind _ _).mpr ⟨safe_atOffset _ _, ?_⟩
  cases ho : (atOffset data l.size optionalOffset).value with
  | none => exact safe_pure _
  | some o =>
    obtain ⟨hinside, -⟩ := atOffset_eq_some ho
    rw [sizeT, Nat.mod_eq_of_lt hlt] at hinside
    refine (safe_bind _ _).mpr ⟨Safe.collect fun j hj => ?_, ?_⟩
    · have hcount := directoryCount_le l o (u16At fileHeader 16).toNat
      refine (safe_bind _ _).mpr ⟨(safe_raw _ _ _).mpr ?_, safe_pure _⟩
      unfold OptionalLayout.Roomy at hl
      omega
    · exact (safe_bind _ _).mpr
        ⟨Safe.collect fun j _ => safe_readSection data _ j, safe_pure _⟩

/-- The optional headers that `parse` knows. -/
def layouts : List OptionalLayout := [optionalHeader32, optionalHeader64]

theorem roomy {l : OptionalLayout} (h : l ∈ layouts) : l.Roomy := by
  simp only [layouts, List.mem_cons, List.not_mem_nil, or_false] at h
  obtain rfl | rfl := h <;> exact Nat.le_refl _

theorem parse_safe (data : Bytes) : (parse data).Safe := by
  refine (safe_bind _ _).mpr ⟨safe_atOffset _ _, ?_⟩
  cases (atOffset data sizeOfDosHeader 0).value with
  | none => exact safe_pure _
  | some dos =>
  refine Safe.ite (fun _ => safe_pure _) fun _ => ?_
  refine (safe_bind _ _).mpr ⟨safe_atOffset _ _, (safe_bind _ _).mpr ⟨safe_atOffset _ _, ?_⟩⟩
  cases (atOffset data 4 (u32At dos 0x3C).toNat).value with
  | none => exact safe_pure _
  | some signature =>
  refine Safe.ite (fun _ => safe_pure _) fun _ => ?_
  cases (atOffset data sizeOfFileHeader ((u32At dos 0x3C).toNat + 4)).value with
  | none => exact safe_pure _
  | some fileHeader =>
  have hlt : (u32At dos 0x3C).toNat + 4 + sizeOfFileHeader < 2 ^ 64 := by
    have hlfanew := (u32At dos 0x3C).toNat_lt
    unfold sizeOfFileHeader
    omega
  refine (safe_bind _ _).mpr ⟨safe_atOffset _ _, ?_⟩
  cases (atOffset data 2 ((u32At dos 0x3C).toNat + 4 + sizeOfFileHeader)).value with
  | none => exact safe_pure _
  | some magic =>
  refine Safe.ite (fun _ => ?_) fun _ => Safe.ite (fun _ => ?_) fun _ => safe_pure _
  · exact safe_parseOptional data (roomy (by simp [layouts])) fileHeader hlt
  · exact safe_parseOptional data (roomy (by simp [layouts])) fileHeader hlt

/-- What a file that is parsed is known to have. -/
structure Parsed (data : Bytes) (pe : PEFile) : Prop where
  data_eq : pe.data = data
  signature : u16At data 0 = imageDosSignature
  checksumOffset_eq : pe.checksumOffset = (u32At data 0x3C).toNat + 88
  inside : pe.checksumOffset + 160 ≤ data.length
  sections_le : pe.sections.length ≤ maxSections

theorem parseOptional_eq_some {data fileHeader : Bytes} {l : OptionalLayout} {optionalOffset : ℕ}
    {pe : PEFile} (h : (parseOptional data l fileHeader optionalOffset).value = some pe) :
    pe.data = data ∧ pe.checksumOffset = optionalOffset + offsetOfCheckSum
      ∧ sizeT optionalOffset + l.size ≤ data.length ∧ pe.sections.length ≤ maxSections := by
  unfold parseOptional at h
  rw [value_bind] at h
  cases ho : (atOffset data l.size optionalOffset).value with
  | none =>
    rw [ho] at h
    cases h
  | some o =>
    rw [ho] at h
    cases h
    refine ⟨rfl, rfl, (atOffset_eq_some ho).1, ?_⟩
    exact (length_collect _ _).trans (Nat.min_le_right _ _)

/-- Both optional headers have 160 bytes from the checksum on. -/
theorem size_ge {l : OptionalLayout} (h : l ∈ layouts) : offsetOfCheckSum + 160 ≤ l.size := by
  simp only [layouts, List.mem_cons, List.not_mem_nil, or_false] at h
  obtain rfl | rfl := h <;> decide

/-- The layout that a magic number stands for. -/
def layoutOf (magic : UInt16) : Option OptionalLayout :=
  if magic = imageNtOptionalHdr64Magic then some optionalHeader64
  else if magic = imageNtOptionalHdr32Magic then some optionalHeader32
  else none

theorem mem_layouts_of_layoutOf {magic : UInt16} {l : OptionalLayout} (h : layoutOf magic = some l) :
    l ∈ layouts := by
  unfold layoutOf at h
  split at h
  · cases h
    simp [layouts]
  · split at h
    · cases h
      simp [layouts]
    · cases h

/-- What is found in a file before its optional header is parsed. -/
structure Signed (data fileHeader : Bytes) (l : OptionalLayout) : Prop where
  dos : sizeOfDosHeader ≤ data.length
  dosSignature : u16At data 0 = imageDosSignature
  lfanew_lt : u32At data 0x3C < 0x80000000
  signature : ∃ signature, (atOffset data 4 (u32At data 0x3C).toNat).value = some signature
    ∧ u32At signature 0 = imageNtSignature
  fileHeader_eq : (atOffset data sizeOfFileHeader ((u32At data 0x3C).toNat + 4)).value
    = some fileHeader
  magic : ∃ magic, (atOffset data 2 ((u32At data 0x3C).toNat + 4 + sizeOfFileHeader)).value
    = some magic ∧ layoutOf (u16At magic 0) = some l

/-- A file that is parsed is parsed by one of the layouts, after its signatures were found. -/
theorem parse_eq_some_iff {data : Bytes} {pe : PEFile} :
    (parse data).value = some pe ↔ ∃ l fileHeader, Signed data fileHeader l
      ∧ (parseOptional data l fileHeader
        ((u32At data 0x3C).toNat + 4 + sizeOfFileHeader)).value = some pe := by
  constructor
  · intro h
    unfold parse at h
    rw [value_bind] at h
    cases hdos : (atOffset data sizeOfDosHeader 0).value with
    | none => simp [hdos] at h
    | some dos =>
    obtain ⟨hsize, hbytes⟩ := atOffset_eq_some hdos
    have hmagic : u16At dos 0 = u16At data 0 := hbytes ▸ u16At_take (by decide)
    have hlfanew : u32At dos 0x3C = u32At data 0x3C := hbytes ▸ u32At_take (by decide)
    simp only [hdos, hmagic, hlfanew] at h
    split at h
    · simp at h
    next hsignature =>
    rw [not_or, not_not, ge_iff_le, UInt32.not_le] at hsignature
    rw [value_bind, value_bind] at h
    cases hnt : (atOffset data 4 (u32At data 0x3C).toNat).value with
    | none => simp [hnt] at h
    | some signature =>
    simp only [hnt] at h
    split at h
    · simp at h
    next hntSignature =>
    cases hheader : (atOffset data sizeOfFileHeader ((u32At data 0x3C).toNat + 4)).value with
    | none => simp [hheader] at h
    | some fileHeader =>
    simp only [hheader, value_bind] at h
    cases hmagic : (atOffset data 2 ((u32At data 0x3C).toNat + 4 + sizeOfFileHeader)).value with
    | none => simp [hmagic] at h
    | some magic =>
    simp only [hmagic] at h
    have hsigned {l : OptionalLayout} (hl : layoutOf (u16At magic 0) = some l) :
        Signed data fileHeader l :=
      ⟨by simpa [sizeT] using hsize, hsignature.1, hsignature.2,
        ⟨signature, hnt, not_not.mp hntSignature⟩, hheader, magic, hmagic, hl⟩
    split at h
    · next h64 => exact ⟨_, fileHeader, hsigned (by simp [layoutOf, h64]), h⟩
    · split at h
      · next h64 h32 => exact ⟨_, fileHeader, hsigned (by rw [layoutOf, if_neg h64, if_pos h32]), h⟩
      · simp at h
  · rintro ⟨l, fileHeader, hsigned, h⟩
    have hdos : (atOffset data sizeOfDosHeader 0).value = some (data.take sizeOfDosHeader) :=
      value_atOffset (by simpa [sizeT] using hsigned.dos)
    have hdosMagic : u16At (data.take sizeOfDosHeader) 0 = u16At data 0 := u16At_take (by decide)
    have hlfanew : u32At (data.take sizeOfDosHeader) 0x3C = u32At data 0x3C :=
      u32At_take (by decide)
    obtain ⟨signature, hnt, hntSignature⟩ := hsigned.signature
    obtain ⟨magic, hmagic, hl⟩ := hsigned.magic
    have hok : ¬(u16At data 0 ≠ imageDosSignature ∨ u32At data 0x3C ≥ 0x80000000) := by
      rw [not_or, not_not, ge_iff_le, UInt32.not_le]
      exact ⟨hsigned.dosSignature, hsigned.lfanew_lt⟩
    unfold parse
    simp only [value_bind, hdos, hdosMagic, hlfanew, if_neg hok, hnt, hntSignature, ne_eq,
      not_true_eq_false, if_false, hsigned.fileHeader_eq, hmagic]
    unfold layoutOf at hl
    split at hl
    · next h64 =>
      cases hl
      rwa [if_pos h64]
    · next h64 =>
      split at hl
      · next h32 =>
        cases hl
        rwa [if_neg h64, if_pos h32]
      · cases hl

theorem parsed {data : Bytes} {pe : PEFile} (h : (parse data).value = some pe) :
    Parsed data pe := by
  obtain ⟨l, fileHeader, hsigned, hoptional⟩ := parse_eq_some_iff.mp h
  obtain ⟨hdata, hchecksum, hinside, hsections⟩ := parseOptional_eq_some hoptional
  obtain ⟨magic, -, hl⟩ := hsigned.magic
  have hsize := size_ge (mem_layouts_of_layoutOf hl)
  have hlt := (u32At data 0x3C).toNat_lt
  rw [sizeT, Nat.mod_eq_of_lt (by unfold sizeOfFileHeader; omega)] at hinside
  refine ⟨hdata, hsigned.dosSignature, ?_, ?_, hsections⟩
  · rw [hchecksum, sizeOfFileHeader, offsetOfCheckSum]
  · rw [hchecksum]
    omega

/-! ## imports -/

namespace PEFile

variable (pe : PEFile)

@[simp] theorem safe_stringAtRva (rva : UInt32) (maxLength : ℕ) :
    (pe.stringAtRva rva maxLength).Safe := by
  unfold stringAtRva
  split
  · exact safe_stringAt _ _
  · exact safe_pure _

theorem safe_readThunk (offset i : ℕ) : (pe.readThunk offset i).Safe :=
  Safe.ite (fun _ => by simp) fun _ => by simp

theorem safe_importByName (rva : UInt32) : (pe.importByName rva).Safe := by
  unfold importByName
  cases pe.rvaToOffset rva with
  | none => exact safe_pure _
  | some nameOffset =>
    refine (safe_bind _ _).mpr ⟨safe_atOffset _ _, ?_⟩
    cases (atOffset pe.data 2 nameOffset.toNat).value with
    | none => exact safe_pure _
    | some hint => simp

@[simp] theorem safe_readThunks (rva : UInt32) : (pe.readThunks rva).Safe := by
  unfold readThunks
  cases pe.rvaToOffset rva with
  | none => exact safe_pure _
  | some offset =>
    refine Safe.collect fun i _ => (safe_bind _ _).mpr ⟨safe_readThunk _ _ _, ?_⟩
    cases (pe.readThunk offset.toNat i).value with
    | none => exact safe_pure _
    | some thunk =>
      refine Safe.ite (fun _ => safe_pure _) fun _ => Safe.ite (fun _ => safe_pure _) fun _ => ?_
      exact (safe_bind _ _).mpr ⟨safe_importByName _ _, safe_pure _⟩

theorem length_readThunks (rva : UInt32) : (pe.readThunks rva).value.length ≤ maxThunks := by
  unfold readThunks
  cases pe.rvaToOffset rva with
  | none => exact Nat.zero_le _
  | some offset => exact length_collect _ _

theorem safe_readImport (offset i : ℕ) : (pe.readImport offset i).Safe := by
  refine (safe_bind _ _).mpr ⟨safe_atOffset _ _, ?_⟩
  cases (atOffset pe.data 20 (offset + i * 20)).value with
  | none => exact safe_pure _
  | some d => exact Safe.ite (fun _ => safe_pure _) fun _ => by simp

theorem safe_readDelayImport (offset i : ℕ) : (pe.readDelayImport offset i).Safe := by
  refine (safe_bind _ _).mpr ⟨safe_atOffset _ _, ?_⟩
  cases (atOffset pe.data 32 (offset + i * 32)).value with
  | none => exact safe_pure _
  | some d => exact Safe.ite (fun _ => safe_pure _) fun _ => by simp

/-- A library has its thunks, and says which directory it is from. -/
theorem mem_readImport {offset i : ℕ} {library : PEImportedLibrary}
    (h : (pe.readImport offset i).value = .add library) :
    library.delayed = false ∧ library.functions.length ≤ maxThunks := by
  unfold readImport at h
  rw [value_bind] at h
  cases hd : (atOffset pe.data 20 (offset + i * 20)).value with
  | none => simp [hd] at h
  | some d =>
    simp only [hd] at h
    split at h
    · cases h
    · cases h
      exact ⟨rfl, length_readThunks _ _⟩

theorem mem_readDelayImport {offset i : ℕ} {library : PEImportedLibrary}
    (h : (pe.readDelayImport offset i).value = .add library) :
    library.delayed = true ∧ library.functions.length ≤ maxThunks := by
  unfold readDelayImport at h
  rw [value_bind] at h
  cases hd : (atOffset pe.data 32 (offset + i * 32)).value with
  | none => simp [hd] at h
  | some d =>
    simp only [hd] at h
    split at h
    · cases h
    · cases h
      exact ⟨rfl, length_readThunks _ _⟩

section Libraries

variable {pe} {index : ℕ} {read : ℕ → ℕ → Reads (Turn PEImportedLibrary)}

theorem safe_readLibraries (h : ∀ offset i, (read offset i).Safe) :
    (pe.readLibraries index read).Safe := by
  unfold readLibraries
  split
  · exact safe_pure _
  · exact Safe.collect fun i _ => h _ i

theorem length_readLibraries : (pe.readLibraries index read).value.length ≤ maxLibraries := by
  unfold readLibraries
  split
  · exact Nat.zero_le _
  · exact length_collect _ _

theorem mem_readLibraries {library : PEImportedLibrary}
    (h : library ∈ (pe.readLibraries index read).value) :
    ∃ offset i, (read offset i).value = .add library := by
  unfold readLibraries at h
  split at h
  · cases h
  · exact ⟨_, mem_collect h⟩

end Libraries

theorem safe_getImports : pe.getImports.Safe :=
  (safe_bind _ _).mpr ⟨safe_readLibraries pe.safe_readImport,
    (safe_bind _ _).mpr ⟨safe_readLibraries pe.safe_readDelayImport, safe_pure _⟩⟩

/-- At most 4096 libraries of each kind, each with at most 65536 functions. -/
theorem getImports_le : (pe.getImports.value.filter (!·.delayed)).length ≤ maxLibraries
    ∧ (pe.getImports.value.filter (·.delayed)).length ≤ maxLibraries
    ∧ ∀ library ∈ pe.getImports.value, library.functions.length ≤ maxThunks := by
  have himport : ∀ library ∈ (pe.readLibraries imageDirectoryEntryImport pe.readImport).value,
      library.delayed = false ∧ library.functions.length ≤ maxThunks := fun library h =>
    have ⟨_, _, hadd⟩ := mem_readLibraries h
    pe.mem_readImport hadd
  have hdelay : ∀ library
      ∈ (pe.readLibraries imageDirectoryEntryDelayImport pe.readDelayImport).value,
      library.delayed = true ∧ library.functions.length ≤ maxThunks := fun library h =>
    have ⟨_, _, hadd⟩ := mem_readLibraries h
    pe.mem_readDelayImport hadd
  have hvalue : pe.getImports.value
      = (pe.readLibraries imageDirectoryEntryImport pe.readImport).value
        ++ (pe.readLibraries imageDirectoryEntryDelayImport pe.readDelayImport).value := rfl
  rw [hvalue, List.filter_append, List.filter_append]
  refine ⟨?_, ?_, ?_⟩
  · have hnone : (pe.readLibraries imageDirectoryEntryDelayImport pe.readDelayImport).value.filter
        (!·.delayed) = [] := List.filter_eq_nil_iff.mpr fun x hx => by simp [(hdelay x hx).1]
    rw [hnone, List.append_nil]
    exact (List.length_filter_le _ _).trans length_readLibraries
  · have hnone : (pe.readLibraries imageDirectoryEntryImport pe.readImport).value.filter
        (·.delayed) = [] := List.filter_eq_nil_iff.mpr fun x hx => by simp [(himport x hx).1]
    rw [hnone, List.nil_append]
    exact (List.length_filter_le _ _).trans length_readLibraries
  · intro library h
    obtain h | h := List.mem_append.mp h
    · exact (himport library h).2
    · exact (hdelay library h).2

/-! ## exports -/

/-- The names are read inside the file and stay as many as the functions. -/
theorem readNames_spec (namesOffset ordinalsOffset turns i : ℕ) (names : List Bytes) :
    (pe.readNames namesOffset ordinalsOffset turns i names).Safe
      ∧ (pe.readNames namesOffset ordinalsOffset turns i names).value.length = names.length := by
  induction turns generalizing i names with
  | zero => exact ⟨safe_pure _, rfl⟩
  | succ turns ih =>
    unfold readNames
    simp only [safe_bind, value_bind, safe_atOffset, true_and]
    split
    · next nameRva index _ _ =>
      split
      · have hrest := ih (i + 1) (names.set (u16At index 0).toNat
          (pe.stringAtRva (u32At nameRva 0) maxString).value)
        refine ⟨(safe_bind _ _).mpr ⟨safe_stringAtRva _ _ _, hrest.1⟩, ?_⟩
        rw [value_bind, hrest.2, List.length_set]
      · exact ih (i + 1) names
    · exact ⟨safe_pure _, rfl⟩

theorem exportNames_spec (e : Bytes) (count : ℕ) :
    (pe.exportNames e count).Safe ∧ (pe.exportNames e count).value.length = count := by
  unfold exportNames
  split
  · have hnames := pe.readNames_spec
    refine ⟨(hnames _ _ _ _ _).1, ?_⟩
    rw [(hnames _ _ _ _ _).2, List.length_replicate]
  · exact ⟨safe_pure _, List.length_replicate⟩

theorem safe_readExport (dir : PEDataDirectory) (base : UInt32) (functionsOffset : ℕ)
    {names : List Bytes} {i : ℕ} (h : i < names.length) :
    (pe.readExport dir base functionsOffset names i).Safe := by
  refine (safe_bind _ _).mpr ⟨safe_atOffset _ _, ?_⟩
  cases (atOffset pe.data 4 (functionsOffset + i * 4)).value with
  | none => exact safe_pure _
  | some rva =>
    refine Safe.ite (fun _ => safe_pure _) fun _ => ?_
    refine (safe_bind _ _).mpr ⟨(safe_raw _ _ _).mpr h, (safe_bind _ _).mpr ⟨?_, safe_pure _⟩⟩
    exact Safe.ite (fun _ => safe_stringAtRva _ _ _) fun _ => safe_pure _

theorem readExports_spec (dir : PEDataDirectory) (e : Bytes) :
    (pe.readExports dir e).Safe ∧ (pe.readExports dir e).value.functions.length ≤ maxExports := by
  unfold readExports
  simp only [safe_bind, value_bind, safe_stringAtRva, true_and]
  cases pe.rvaToOffset (u32At e 28) with
  | none => exact ⟨safe_pure _, Nat.zero_le _⟩
  | some functionsOffset =>
    obtain ⟨hsafe, hlength⟩ := pe.exportNames_spec e (min (u32At e 20).toNat maxExports)
    refine ⟨(safe_bind _ _).mpr ⟨hsafe, (safe_bind _ _).mpr ⟨Safe.collect fun i hi => ?_,
      safe_pure _⟩⟩, (length_collect _ _).trans (Nat.min_le_right _ _)⟩
    exact safe_readExport _ _ _ _ (by omega)

theorem safe_getExports : pe.getExports.Safe := by
  unfold getExports
  cases pe.directory imageDirectoryEntryExport with
  | none => exact safe_pure _
  | some dir =>
  simp only
  cases pe.rvaToOffset dir.rva with
  | none => exact safe_pure _
  | some offset =>
  refine (safe_bind _ _).mpr ⟨safe_atOffset _ _, ?_⟩
  cases (atOffset pe.data 40 offset.toNat).value with
  | none => exact safe_pure _
  | some e => exact (safe_bind _ _).mpr ⟨(readExports_spec _ _ _).1, safe_pure _⟩

theorem getExports_le {exports : PEExports} (h : pe.getExports.value = some exports) :
    exports.functions.length ≤ maxExports := by
  unfold getExports at h
  cases hdir : pe.directory imageDirectoryEntryExport with
  | none => simp [hdir] at h
  | some dir =>
  simp only [hdir] at h
  cases hoffset : pe.rvaToOffset dir.rva with
  | none => simp [hoffset] at h
  | some offset =>
  simp only [hoffset, value_bind] at h
  cases he : (atOffset pe.data 40 offset.toNat).value with
  | none => simp [he] at h
  | some e =>
    simp only [he] at h
    cases h
    exact (readExports_spec _ _ _).2

/-! ## the debug directory -/

theorem safe_getDebugEntries : pe.getDebugEntries.Safe := by
  unfold getDebugEntries
  cases pe.directory imageDirectoryEntryDebug with
  | none => exact safe_pure _
  | some dir =>
  simp only
  cases pe.rvaToOffset dir.rva with
  | none => exact safe_pure _
  | some offset =>
  refine Safe.collect fun i _ => (safe_bind _ _).mpr ⟨safe_atOffset _ _, ?_⟩
  cases (atOffset pe.data 28 (offset.toNat + i * 28)).value with
  | none => exact safe_pure _
  | some d => exact Safe.ite (fun _ => by simp) fun _ => safe_pure _

theorem getDebugEntries_le : pe.getDebugEntries.value.length ≤ maxDebugEntries := by
  unfold getDebugEntries
  cases pe.directory imageDirectoryEntryDebug with
  | none => exact Nat.zero_le _
  | some dir =>
  simp only
  cases pe.rvaToOffset dir.rva with
  | none => exact Nat.zero_le _
  | some offset => exact (length_collect _ _).trans (Nat.min_le_right _ _)

theorem safe_readCodeView (e : PEDebugEntry) : (pe.readCodeView e).Safe := by
  refine Safe.ite (fun _ => safe_pure _) fun _ => ?_
  simp only [safe_bind, safe_atOffset, true_and]
  split
  · exact Safe.ite (fun _ => safe_pure _) fun _ => by simp
  · exact safe_pure _

theorem safe_findCodeView (entries : List PEDebugEntry) : (pe.findCodeView entries).Safe := by
  induction entries with
  | nil => exact safe_pure _
  | cons e entries ih =>
    refine (safe_bind _ _).mpr ⟨safe_readCodeView _ _, ?_⟩
    cases (pe.readCodeView e).value with
    | none => exact ih
    | some cv => exact safe_pure _

theorem safe_getCodeView : pe.getCodeView.Safe :=
  (safe_bind _ _).mpr ⟨pe.safe_getDebugEntries, pe.safe_findCodeView _⟩

/-! ## resources -/

theorem safe_readEntryName (base nameOffset : UInt32) : (pe.readEntryName base nameOffset).Safe := by
  refine (safe_bind _ _).mpr ⟨safe_atOffset _ _, ?_⟩
  cases (atOffset pe.data 2 (base + nameOffset).toNat).value with
  | none => exact safe_pure _
  | some length =>
    refine Safe.ite (fun hle => (safe_bind _ _).mpr ⟨(safe_raw _ _ _).mpr ?_, safe_pure _⟩)
      fun _ => safe_pure _
    -- the check's sum does not wrap
    have hbase := (base + nameOffset).toNat_lt
    have hlength := (u16At length 0).toNat_lt
    unfold sizeT at hle ⊢
    omega

theorem safe_entries (base offset : UInt32) : (pe.entries base offset).Safe := by
  refine (safe_bind _ _).mpr ⟨safe_atOffset _ _, ?_⟩
  cases (atOffset pe.data 16 (base + offset).toNat).value with
  | none => exact safe_pure _
  | some dir =>
    refine Safe.collect fun i _ => (safe_bind _ _).mpr ⟨safe_atOffset _ _, ?_⟩
    cases (atOffset pe.data 8 ((base + offset).toNat + 16 + i * 8)).value with
    | none => exact safe_pure _
    | some e =>
      refine Safe.ite (fun _ => ?_) fun _ => safe_pure _
      exact (safe_bind _ _).mpr ⟨safe_readEntryName _ _ _, safe_pure _⟩

section Resources

variable (base : UInt32) (type name : Entry) {resources : List PEResource}

theorem addLanguage_spec (language : Entry) (h : resources.length ≤ maxResources) :
    (pe.addLanguage base type name resources language).Safe
      ∧ (pe.addLanguage base type name resources language).value.length ≤ maxResources := by
  unfold addLanguage
  split
  · exact ⟨safe_pure _, h⟩
  · next hroom =>
    simp only [safe_bind, value_bind, safe_atOffset, true_and]
    cases (atOffset pe.data 16 (base + language.offset).toNat).value with
    | none => exact ⟨safe_pure _, h⟩
    | some data =>
      refine ⟨safe_pure _, ?_⟩
      simp only [value_pure, List.length_append, List.length_singleton]
      omega

theorem addName_spec (h : resources.length ≤ maxResources) :
    (pe.addName base type resources name).Safe
      ∧ (pe.addName base type resources name).value.length ≤ maxResources := by
  unfold addName
  split
  · obtain ⟨hsafe, hle⟩ := safe_foldlM (f := pe.addLanguage base type name)
      (fun _ c _ hb => (pe.addLanguage_spec base type name c hb).1)
      (fun _ c _ hb => (pe.addLanguage_spec base type name c hb).2) h
    exact ⟨(safe_bind _ _).mpr ⟨safe_entries _ _ _, hsafe⟩, hle⟩
  · exact ⟨safe_pure _, h⟩

theorem addType_spec (h : resources.length ≤ maxResources) :
    (pe.addType base resources type).Safe
      ∧ (pe.addType base resources type).value.length ≤ maxResources := by
  unfold addType
  split
  · obtain ⟨hsafe, hle⟩ := safe_foldlM (f := pe.addName base type)
      (fun _ c _ hb => (pe.addName_spec base type c hb).1)
      (fun _ c _ hb => (pe.addName_spec base type c hb).2) h
    exact ⟨(safe_bind _ _).mpr ⟨safe_entries _ _ _, hsafe⟩, hle⟩
  · exact ⟨safe_pure _, h⟩

end Resources

theorem getResources_spec :
    pe.getResources.Safe ∧ pe.getResources.value.length ≤ maxResources := by
  unfold getResources
  cases pe.directory imageDirectoryEntryResource with
  | none => exact ⟨safe_pure _, Nat.zero_le _⟩
  | some dir =>
  simp only
  cases pe.rvaToOffset dir.rva with
  | none => exact ⟨safe_pure _, Nat.zero_le _⟩
  | some base =>
    obtain ⟨hsafe, hle⟩ := safe_foldlM (f := pe.addType base)
      (fun _ c _ hb => (pe.addType_spec base c hb).1)
      (fun _ c _ hb => (pe.addType_spec base c hb).2) (b := []) (Nat.zero_le _)
    exact ⟨(safe_bind _ _).mpr ⟨safe_entries _ _ _, hsafe⟩, hle⟩

theorem safe_getResourceData (resource : PEResource) : (pe.getResourceData resource).Safe := by
  unfold getResourceData
  split
  · exact safe_pure _
  · refine Safe.ite (fun _ => safe_pure _) fun h => (safe_raw _ _ _).mpr ?_
    rw [not_or, not_or, Nat.not_lt, Nat.not_lt] at h
    omega

/-- An entry is read when all 14 bytes of it are there. -/
theorem safe_readIcon (data : Bytes) (i : ℕ) : (readIcon data i).Safe := by
  refine Safe.ite (fun _ => safe_pure _) fun h => ?_
  simp only [word, dword, byte, safe_bind, safe_raw, safe_pure, and_true]
  omega

theorem getIconGroup_spec (group : PEResource) :
    (pe.getIconGroup group).Safe ∧ (pe.getIconGroup group).value.length ≤ maxIcons := by
  unfold getIconGroup
  split
  · exact ⟨safe_pure _, Nat.zero_le _⟩
  simp only [safe_bind, value_bind, safe_getResourceData, true_and]
  split
  · exact ⟨safe_pure _, Nat.zero_le _⟩
  next hsize =>
  have hword : ∀ offset ≤ 4, (word (pe.getResourceData group).value offset).Safe := by
    intro offset hle
    simp only [word, safe_bind, safe_raw, safe_pure, and_true]
    omega
  simp only [safe_bind, value_bind, hword 2 (by decide), true_and]
  split
  · exact ⟨safe_pure _, Nat.zero_le _⟩
  · refine ⟨(safe_bind _ _).mpr ⟨hword 4 (by decide), Safe.collect fun i _ => ?_⟩, ?_⟩
    · exact safe_readIcon _ i
    · exact (length_collect _ _).trans (Nat.min_le_right _ _)

/-! ## the CLR header -/

theorem safe_metadataVersion (rva : UInt32) : (pe.metadataVersion rva).Safe := by
  unfold metadataVersion
  cases pe.rvaToOffset rva with
  | none => exact safe_pure _
  | some root =>
  simp only [safe_bind, safe_atOffset, true_and]
  split
  · exact Safe.ite (fun _ => safe_stringAt _ _) fun _ => safe_pure _
  · exact safe_pure _

theorem safe_getDotNet : pe.getDotNet.Safe := by
  unfold getDotNet
  cases pe.directory imageDirectoryEntryComDescriptor with
  | none => exact safe_pure _
  | some dir =>
  simp only
  cases pe.rvaToOffset dir.rva with
  | none => exact safe_pure _
  | some offset =>
  refine (safe_bind _ _).mpr ⟨safe_atOffset _ _, ?_⟩
  cases (atOffset pe.data sizeOfCor20Header offset.toNat).value with
  | none => exact safe_pure _
  | some cor =>
    refine Safe.ite (fun _ => safe_pure _) fun _ => ?_
    exact (safe_bind _ _).mpr ⟨safe_metadataVersion _ _, safe_pure _⟩

/-! ## the checksum -/

theorem safe_addWord {sum i : ℕ} (h : i + 2 ≤ pe.data.length) : (pe.addWord sum i).Safe :=
  Safe.ite (fun _ => safe_pure _) fun _ => (safe_bind _ _).mpr ⟨(safe_raw _ _ _).mpr h, safe_pure _⟩

theorem safe_lastByte : pe.lastByte.Safe := by
  refine Safe.ite (fun hodd => (safe_bind _ _).mpr ⟨(safe_raw _ _ _).mpr ?_, safe_pure _⟩)
    fun _ => safe_pure _
  omega

theorem safe_computeChecksum : pe.computeChecksum.Safe := by
  have hwords : ∀ i ∈ (List.range (pe.data.length / 2)).map (2 * ·), i + 2 ≤ pe.data.length := by
    intro i hi
    obtain ⟨k, hk, rfl⟩ := List.mem_map.mp hi
    have hlt := List.mem_range.mp hk
    omega
  refine (safe_bind _ _).mpr ⟨(safe_foldlM (P := fun _ => True)
    (fun _ i hi _ => pe.safe_addWord (hwords i hi)) (fun _ _ _ _ => trivial) trivial).1, ?_⟩
  exact (safe_bind _ _).mpr ⟨pe.safe_lastByte, safe_pure _⟩

theorem rvaToOffset_lt {rva offset : UInt32} (h : pe.rvaToOffset rva = some offset) :
    offset.toNat < pe.data.length := by
  unfold rvaToOffset at h
  split at h
  · next hheaders =>
    cases h
    exact hheaders.2
  · split at h
    · simp only [Option.ite_none_right_eq_some, Option.some.injEq] at h
      obtain ⟨hlt, rfl⟩ := h
      exact (Nat.mod_le _ _).trans_lt hlt
    · cases h

end PEFile

/-! ## the whole file -/

/-- Nothing is read outside the file, nor out of a resource's data, and the results are bounded. -/
structure Contained (pe : PEFile) : Prop where
  sections : pe.sections.length ≤ maxSections
  addresses : ∀ rva offset, pe.rvaToOffset rva = some offset → offset.toNat < pe.data.length
  imports : pe.getImports.Safe
  libraries : (pe.getImports.value.filter (!·.delayed)).length ≤ maxLibraries
    ∧ (pe.getImports.value.filter (·.delayed)).length ≤ maxLibraries
  thunks : ∀ library ∈ pe.getImports.value, library.functions.length ≤ maxThunks
  exports : pe.getExports.Safe
  functions : ∀ exports, pe.getExports.value = some exports →
    exports.functions.length ≤ maxExports
  debug : pe.getDebugEntries.Safe
  debugEntries : pe.getDebugEntries.value.length ≤ maxDebugEntries
  codeView : pe.getCodeView.Safe
  resources : pe.getResources.Safe
  leaves : pe.getResources.value.length ≤ maxResources
  resourceData : ∀ resource, (pe.getResourceData resource).Safe
  iconGroup : ∀ group, (pe.getIconGroup group).Safe
  icons : ∀ group, (pe.getIconGroup group).value.length ≤ maxIcons
  dotNet : pe.getDotNet.Safe
  checksum : pe.computeChecksum.Safe

/-- **No read outside the file**: whatever the bytes, parsing them indexes only the bytes there are,
and so does everything that is read of a file that is parsed; each loop gives at most its limit of
results. -/
theorem parse_contained (data : Bytes) :
    (parse data).Safe ∧ ∀ pe, (parse data).value = some pe → pe.data = data ∧ Contained pe := by
  refine ⟨parse_safe data, fun pe h => ?_⟩
  have hparsed := parsed h
  obtain ⟨hregular, hdelayed, hthunks⟩ := pe.getImports_le
  exact ⟨hparsed.data_eq, {
    sections := hparsed.sections_le
    addresses := fun _ _ => pe.rvaToOffset_lt
    imports := pe.safe_getImports
    libraries := ⟨hregular, hdelayed⟩
    thunks := hthunks
    exports := pe.safe_getExports
    functions := fun _ => pe.getExports_le
    debug := pe.safe_getDebugEntries
    debugEntries := pe.getDebugEntries_le
    codeView := pe.safe_getCodeView
    resources := pe.getResources_spec.1
    leaves := pe.getResources_spec.2
    resourceData := pe.safe_getResourceData
    iconGroup := fun group => (pe.getIconGroup_spec group).1
    icons := fun group => (pe.getIconGroup_spec group).2
    dotNet := pe.safe_getDotNet
    checksum := pe.safe_computeChecksum }⟩

/-- A 32-bit image with no sections and no directories. -/
def bareImage (lfanew : ℕ) (checkSum : Bytes) : Bytes :=
  [0x4D, 0x5A] ++ List.replicate 58 0 ++ leBytes 4 lfanew ++ List.replicate (lfanew - 64) 0
    ++ leBytes 4 imageNtSignature.toNat ++ List.replicate 20 0
    ++ leBytes 2 imageNtOptionalHdr32Magic.toNat ++ List.replicate 62 0
    ++ checkSum ++ List.replicate 156 0

theorem isSome_parse_bareImage : (parse (bareImage 64 [1, 2, 3, 4])).value.isSome = true := by
  decide +kernel

theorem parse_contained_bareImage :
    Contained ((parse (bareImage 64 [1, 2, 3, 4])).value.get isSome_parse_bareImage) :=
  ((parse_contained (bareImage 64 [1, 2, 3, 4])).2 _ (Option.some_get _).symm).2

end WinSys.PE
