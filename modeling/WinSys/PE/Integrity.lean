import WinSys.PE.Safety
import WinSys.Texts

/-!
# The headers in memory against the file's

`CheckImage` compares the headers of a process's main image, as they are in memory, with those of
the file that is mapped there. It reads as much as the header in memory says, and `Parse` leaves out
a section past what was read.

* `parse_cut`: what is parsed of fewer bytes
* `compareHeaders_eq_nil`: what is compared
* `compareHeaders_iff`: when that is all of the section tables
* `checkImage_ok_iff`: what is found right
-/

namespace WinSys.ProcessIntegrity

open Infra Reads PE Texts

/-! ## the comparison -/

/-- `Hex` -/
def hexText (value : UInt64) : WString := wide "0x" ++ hex value

/-- A difference after those there are. -/
def addText (diff text : WString) : WString := (if diff = [] then [] else diff ++ wide "; ") ++ text

def add (diff : WString) (what : String) (inMemory inFile : UInt64) : WString :=
  if inMemory = inFile then diff
  else addText diff (wide what ++ wide " " ++ hexText inMemory ++ wide " in memory, "
    ++ hexText inFile ++ wide " in the file")

/-- What is compared of two sections. -/
def SameSection (a b : PESection) : Prop :=
  a.name = b.name ∧ a.virtualAddress = b.virtualAddress ∧ a.virtualSize = b.virtualSize
    ∧ a.characteristics = b.characteristics

instance (a b : PESection) : Decidable (SameSection a b) := inferInstanceAs (Decidable (_ ∧ _))

/-- The first section that differs, from index `i` on. -/
def addSections (diff : WString) : ℕ → List PESection → List PESection → WString
  | i, a :: ms, b :: fs =>
    if SameSection a b then addSections diff (i + 1) ms fs
    else addText diff (wide "section " ++ decimal (i + 1) ++ wide " (" ++ widen b.name
      ++ wide ") is " ++ widen a.name ++ wide " at " ++ hexText a.virtualAddress.toUInt64
      ++ wide " in memory")
  | _, _, _ => diff

def compareHeaders (memory file : PEFile) : WString :=
  let m := memory.headers
  let f := file.headers
  let diff := add [] "machine" m.machine.toUInt64 f.machine.toUInt64
  let diff := add diff "timestamp" m.timeDateStamp.toUInt64 f.timeDateStamp.toUInt64
  let diff := add diff "entry point" m.entryPoint.toUInt64 f.entryPoint.toUInt64
  let diff := add diff "image size" m.sizeOfImage.toUInt64 f.sizeOfImage.toUInt64
  let diff := add diff "subsystem" m.subsystem.toUInt64 f.subsystem.toUInt64
  let diff := add diff "sections" m.numberOfSections.toUInt64 f.numberOfSections.toUInt64
  addSections diff 0 memory.sections file.sections

/-! ## what is read -/

def maxHeaders : ℕ := 64 * 1024

/-- What is read of the headers at first. -/
def pageSize : ℕ := 4096

/-- `ProcessMemory::Read` of the bytes at the image base: what can't be read is 0. -/
def readMemory (memory : Bytes) (size : ℕ) : Bytes := (memory ++ List.replicate size 0).take size

def headerSize (h : PEHeaders) : ℕ := min h.sizeOfHeaders.toNat maxHeaders

/-- The headers in memory, with how many bytes were read of them. -/
def parseInMemory (memory : Bytes) : Option (ℕ × PEFile) := do
  let inMemory ← (parse (readMemory memory pageSize)).value
  let headerSize := headerSize inMemory.headers
  -- a larger header: all of it is read
  if headerSize > pageSize then
    return (headerSize, ← (parse (readMemory memory headerSize)).value)
  else return (pageSize, inMemory)

/-- The first bytes of the file. -/
def readFileHeaders (file : Bytes) (size : ℕ) : Bytes := file.take size

inductive ImageIntegrityStatus where
  | unknown
  | ok
  | fileGone
  | imagePrivate
  | differentFile
  | headersDiffer
deriving DecidableEq, Repr

structure ImageIntegrity where
  status : ImageIntegrityStatus := .unknown
  detail : WString := []
  imageBase : UInt64 := 0
deriving DecidableEq, Repr

/-- `MEM_IMAGE`, `MEM_MAPPED`, `MEM_PRIVATE` -/
inductive MemoryType where
  | memImage
  | memMapped
  | memPrivate
deriving DecidableEq, Repr

/-- What the system answers about a process. -/
structure ProcessAnswers where
  /-- The process has a PEB. -/
  peb : Bool
  /-- The PEB's image base, if it can be read. -/
  imageBase : Option UInt64
  /-- The region there: whether it is committed, and its type. -/
  region : Option (Bool × MemoryType)
  fileName : WString
  mapped : WString
  sameName : Bool
  sameFile : Bool
  isOwnImageSection : PEFile → Bool
  /-- What can be read at the image base. -/
  memory : Bytes
  /-- The mapped file's bytes, or the last error when none were read. -/
  file : Except UInt32 Bytes

def errorFileNotFound : UInt32 := 2

def errorPathNotFound : UInt32 := 3

def errorDeletePending : UInt32 := 303

namespace ProcessAnswers

variable (p : ProcessAnswers)

/-- The image that is mapped, against the file that is mapped. -/
def checkHeaders (result : ImageIntegrity) (size : ℕ) (inMemory : PEFile) : ImageIntegrity :=
  match p.file with
  | .error e =>
    if e = errorFileNotFound ∨ e = errorPathNotFound ∨ e = errorDeletePending then
      { result with status := .fileGone, detail := p.mapped ++ wide " isn't there anymore" }
    else { result with
      detail := wide "The image file can't be read (error " ++ decimal e.toNat ++ wide ")" }
  | .ok file =>
    match (parse (readFileHeaders file size)).value with
    | none => { result with
        status := .headersDiffer, detail := wide "The file isn't a PE image now" }
    | some inFile =>
      let diff := compareHeaders inMemory inFile
      if diff ≠ [] then { result with status := .headersDiffer, detail := diff }
      else { result with status := .ok }

def checkImage : ImageIntegrity :=
  let result : ImageIntegrity := {}
  if !p.peb then { result with detail := wide "No PEB" }
  else match p.imageBase.filter (· ≠ 0) with
  | none => { result with detail := wide "The PEB can't be read" }
  | some imageBase =>
  let result := { result with imageBase := imageBase }
  match p.region with
  | none => { result with detail := wide "The image base can't be queried" }
  | some (committed, type) =>
  if !committed ∨ type ≠ .memImage then { result with
    status := .imagePrivate
    detail := wide "The image base " ++ hexText imageBase
      ++ (if !committed then wide " isn't committed"
        else if type = .memPrivate then wide " is private memory"
        else wide " is a data file's view") }
  else if p.fileName = [] then
    { result with detail := wide "The image file's name can't be queried" }
  else if p.mapped = [] then
    { result with status := .fileGone, detail := wide "The mapped image has no file name" }
  else if p.memory.length < pageSize then
    { result with detail := wide "The image's headers can't be read" }
  else match parseInMemory p.memory with
  | none => { result with
      status := .headersDiffer, detail := wide "The headers in memory aren't a PE image's" }
  | some (size, inMemory) =>
  if !p.sameName ∧ !p.sameFile then
    if !p.isOwnImageSection inMemory then { result with
      status := .differentFile, detail := p.mapped ++ wide " is mapped at the image base" }
    else p.checkHeaders { result with detail := wide "Renamed since the start: " ++ p.mapped }
      size inMemory
  else p.checkHeaders result size inMemory

end ProcessAnswers

/-! ## the comparison finds a difference of what was parsed -/

theorem addText_ne_nil (diff text : WString) (h : text ≠ []) :
    addText diff text ≠ [] := by
  rw [addText]
  exact List.append_ne_nil_of_right_ne_nil _ h

theorem add_eq_nil {diff : WString} {what : String} {a b : UInt64} :
    add diff what a b = [] ↔ diff = [] ∧ a = b := by
  unfold add
  split
  · next h => simp [h]
  · next h =>
    have hne := addText_ne_nil diff (wide what ++ wide " " ++ hexText a ++ wide " in memory, "
      ++ hexText b ++ wide " in the file") (List.append_ne_nil_of_right_ne_nil _ (by decide))
    exact iff_of_false hne fun hnil => h hnil.2

theorem addSections_eq_nil {diff : WString} {i : ℕ} {ms fs : List PESection} :
    addSections diff i ms fs = [] ↔ diff = [] ∧ ∀ p ∈ ms.zip fs, SameSection p.1 p.2 := by
  induction ms generalizing i fs with
  | nil => simp [addSections]
  | cons a ms ih =>
    cases fs with
    | nil => simp [addSections]
    | cons b fs =>
      rw [addSections, List.zip_cons_cons, List.forall_mem_cons]
      split
      · next h => rw [ih, and_iff_right h]
      · next h =>
        have hne := addText_ne_nil diff (wide "section " ++ decimal (i + 1) ++ wide " ("
          ++ widen b.name ++ wide ") is " ++ widen a.name ++ wide " at "
          ++ hexText a.virtualAddress.toUInt64 ++ wide " in memory")
          (List.append_ne_nil_of_right_ne_nil _ (by decide))
        exact iff_of_false hne fun hnil => h hnil.2.1

/-- What is compared of two headers. -/
structure SameHeaders (m f : PEHeaders) : Prop where
  machine : m.machine = f.machine
  timeDateStamp : m.timeDateStamp = f.timeDateStamp
  entryPoint : m.entryPoint = f.entryPoint
  sizeOfImage : m.sizeOfImage = f.sizeOfImage
  subsystem : m.subsystem = f.subsystem
  numberOfSections : m.numberOfSections = f.numberOfSections

theorem compareHeaders_eq_nil {memory file : PEFile} :
    compareHeaders memory file = [] ↔ SameHeaders memory.headers file.headers
      ∧ ∀ p ∈ memory.sections.zip file.sections, SameSection p.1 p.2 := by
  simp only [compareHeaders, addSections_eq_nil, add_eq_nil, UInt16.toUInt64_inj,
    UInt32.toUInt64_inj, true_and]
  refine and_congr ⟨?_, ?_⟩ Iff.rfl
  · rintro ⟨⟨⟨⟨⟨h1, h2⟩, h3⟩, h4⟩, h5⟩, h6⟩
    exact ⟨h1, h2, h3, h4, h5, h6⟩
  · rintro ⟨h1, h2, h3, h4, h5, h6⟩
    exact ⟨⟨⟨⟨⟨h1, h2⟩, h3⟩, h4⟩, h5⟩, h6⟩

/-! ## what is reported of an image that can be compared -/

/-- The image base is an image of a file, the process's own, and the file can be read. -/
structure ProcessAnswers.Comparable (p : ProcessAnswers) (file : Bytes) : Prop where
  peb : p.peb = true
  imageBase : ∃ base, p.imageBase = some base ∧ base ≠ 0
  region : p.region = some (true, .memImage)
  fileName : p.fileName ≠ []
  mapped : p.mapped ≠ []
  readable : pageSize ≤ p.memory.length
  own : p.sameName = true ∨ p.sameFile = true ∨ ∀ m, p.isOwnImageSection m = true
  file : p.file = .ok file

theorem ProcessAnswers.checkHeaders_status {p : ProcessAnswers} {file : Bytes}
    (hfile : p.file = .ok file) {size : ℕ} {m f : PEFile}
    (hf : (parse (readFileHeaders file size)).value = some f) (result : ImageIntegrity) :
    (p.checkHeaders result size m).status
      = if compareHeaders m f = [] then .ok else .headersDiffer := by
  simp only [checkHeaders, hfile, hf, ne_eq, ite_not]
  split
  · rfl
  · rfl

theorem ProcessAnswers.Comparable.checkImage_status {p : ProcessAnswers} {file : Bytes}
    (h : p.Comparable file) {size : ℕ} {m f : PEFile}
    (hm : parseInMemory p.memory = some (size, m))
    (hf : (parse (readFileHeaders file size)).value = some f) :
    p.checkImage.status = if compareHeaders m f = [] then .ok else .headersDiffer := by
  obtain ⟨base, hbase, h0⟩ := h.imageBase
  have hfilter : p.imageBase.filter (· ≠ 0) = some base := by
    rw [hbase, Option.filter_some, if_pos (by simpa using h0)]
  have hread : ¬ p.memory.length < pageSize := Nat.not_lt.mpr h.readable
  unfold checkImage
  simp only [h.peb, hfilter, h.region, h.fileName, h.mapped, hread, hm, Bool.not_true,
    Bool.false_eq_true, if_false, ne_eq, not_true_eq_false, or_self]
  split
  · next hother =>
    have hown := h.own.resolve_left (by simpa using hother.1)
    rw [hown.resolve_left (by simpa using hother.2) m, if_neg (by simp)]
    exact checkHeaders_status h.file hf _
  · exact checkHeaders_status h.file hf _

/-! ## fewer bytes have the same headers -/

section Prefix

variable {x y : Bytes}

theorem take_drop_cut (h : x <+: y) {offset count : ℕ} (hle : offset + count ≤ x.length) :
    (y.drop offset).take count = (x.drop offset).take count := by
  obtain ⟨rest, rfl⟩ := h
  rw [List.drop_append_of_le_length (by omega), List.take_append_of_le_length]
  rw [List.length_drop]
  omega

theorem atOffset_cut (h : x <+: y) {size offset : ℕ} {bs : Bytes}
    (hx : (atOffset x size offset).value = some bs) :
    (atOffset y size offset).value = some bs := by
  obtain ⟨hinside, rfl⟩ := atOffset_eq_some hx
  rw [value_atOffset (hinside.trans h.length_le), take_drop_cut h hinside]

theorem u32At_prefix (h : x <+: y) {offset : ℕ} (hle : offset + 4 ≤ x.length) :
    u32At y offset = u32At x offset := by
  rw [u32At, u32At, u32, u32, take_drop_cut h hle]

theorem u16At_prefix (h : x <+: y) {offset : ℕ} (hle : offset + 2 ≤ x.length) :
    u16At y offset = u16At x offset := by
  rw [u16At, u16At, u16, u16, take_drop_cut h hle]

theorem signed_prefix (h : x <+: y) {fileHeader : Bytes} {l : OptionalLayout}
    (hx : Signed x fileHeader l) : Signed y fileHeader l := by
  have hlfanew : u32At y 0x3C = u32At x 0x3C := u32At_prefix h hx.dos
  have hdos : u16At y 0 = u16At x 0 := u16At_prefix h ((by decide : 2 ≤ 64).trans hx.dos)
  obtain ⟨signature, hat, hsignature⟩ := hx.signature
  obtain ⟨magic, hmagic, hl⟩ := hx.magic
  refine ⟨hx.dos.trans h.length_le, hdos ▸ hx.dosSignature, hlfanew ▸ hx.lfanew_lt, ?_, ?_, ?_⟩
  all_goals rw [hlfanew]
  · exact ⟨signature, atOffset_cut h hat, hsignature⟩
  · exact atOffset_cut h hx.fileHeader_eq
  · exact ⟨magic, atOffset_cut h hmagic, hl⟩

/-- The directories do not depend on what follows the optional header. -/
theorem readDirectories_cut (h : x <+: y) {directory count : ℕ}
    (hle : directory + 8 * count ≤ x.length) :
    (collect (readDirectory y directory) count 0).value
      = (collect (readDirectory x directory) count 0).value := by
  have hvalue (data : Bytes) : (collect (readDirectory data directory) count 0).value
      = (List.range count).filterMap fun j =>
        some (⟨u32At ((data.drop (directory + 8 * j)).take 8) 0,
          u32At ((data.drop (directory + 8 * j)).take 8) 4⟩ : PEDataDirectory) :=
    value_collect_range (Nat.le_refl _) (fun j _ => rfl) (fun hlt => absurd hlt (lt_irrefl _))
  rw [hvalue x, hvalue y]
  refine List.filterMap_congr fun j hj => ?_
  rw [List.mem_range] at hj
  rw [take_drop_cut h (by omega)]

theorem parseOptional_prefix (h : x <+: y) {l : OptionalLayout} (hl : l ∈ layouts)
    {fileHeader : Bytes} {optionalOffset : ℕ} (hlt : optionalOffset < 2 ^ 64) {a : PEFile}
    (hx : (parseOptional x l fileHeader optionalOffset).value = some a) :
    ∃ b, (parseOptional y l fileHeader optionalOffset).value = some b ∧ b.headers = a.headers := by
  unfold parseOptional at hx ⊢
  rw [value_bind] at hx ⊢
  cases ho : (atOffset x l.size optionalOffset).value with
  | none =>
    rw [ho] at hx
    cases hx
  | some o =>
    rw [ho] at hx
    cases hx
    have hinside := (atOffset_eq_some ho).1
    have hroomy := roomy hl
    have hcount := directoryCount_le l o (u16At fileHeader 16).toNat
    rw [sizeT, Nat.mod_eq_of_lt hlt] at hinside
    unfold OptionalLayout.Roomy at hroomy
    rw [atOffset_cut h ho]
    refine ⟨_, rfl, ?_⟩
    dsimp only
    rw [readDirectories_cut h (by omega)]

end Prefix

/-! ## the section table -/

/-- `IMAGE_SECTION_HEADER`s are after the optional header. -/
def sectionTable (data : Bytes) : ℕ :=
  let lfanew := (u32At data 0x3C).toNat
  lfanew + 4 + sizeOfFileHeader + (u16At data (lfanew + 20)).toNat

def sectionHeader (data : Bytes) (i : ℕ) : PESection :=
  PESection.read ((data.drop (sectionTable data + i * 40)).take 40)

theorem signed_fileHeader {data fileHeader : Bytes} {l : OptionalLayout}
    (h : Signed data fileHeader l) : (u32At data 0x3C).toNat + 24 ≤ data.length
      ∧ u16At fileHeader 16 = u16At data ((u32At data 0x3C).toNat + 20) := by
  obtain ⟨hinside, rfl⟩ := atOffset_eq_some h.fileHeader_eq
  have hlt := (u32At data 0x3C).toNat_lt
  rw [sizeT, Nat.mod_eq_of_lt (by omega)] at hinside ⊢
  refine ⟨hinside, ?_⟩
  rw [u16At_take (by decide), u16At, List.drop_drop, u16At]

/-- The sections that are parsed are those that lie in the bytes. -/
theorem sections_eq {data : Bytes} {pe : PEFile} (h : (parse data).value = some pe) :
    pe.sections = (List.range (min (min pe.headers.numberOfSections.toNat maxSections)
      ((data.length - sectionTable data) / 40))).map (sectionHeader data) := by
  obtain ⟨l, fileHeader, hsigned, hoptional⟩ := parse_eq_some_iff.mp h
  obtain ⟨-, hsize⟩ := signed_fileHeader hsigned
  have htable : sectionTable data = (u32At data 0x3C).toNat + 4 + sizeOfFileHeader
      + (u16At fileHeader 16).toNat := by rw [sectionTable, hsize]
  have hlt := (u32At data 0x3C).toNat_lt
  have hoptionalSize := (u16At fileHeader 16).toNat_lt
  unfold parseOptional at hoptional
  rw [value_bind] at hoptional
  cases ho : (atOffset data l.size ((u32At data 0x3C).toNat + 4 + sizeOfFileHeader)).value with
  | none =>
    rw [ho] at hoptional
    cases hoptional
  | some o =>
  rw [ho] at hoptional
  cases hoptional
  simp only [PEHeaders.fill]
  rw [← htable, ← List.filterMap_eq_map]
  have hsmall {i : ℕ} (hi : i < maxSections + 1) :
      sizeT (sectionTable data + i * 40) = sectionTable data + i * 40 := by
    rw [sizeT, Nat.mod_eq_of_lt]
    unfold maxSections at hi
    unfold sizeOfFileHeader at htable
    omega
  refine value_collect_range (Nat.min_le_left _ _) (fun i hi => ?_) fun hstop => ?_
  · have hle : sectionTable data + i * 40 + 40 ≤ data.length := by omega
    rw [readSection, value_bind, value_atOffset (by rwa [hsmall (by omega)]), hsmall (by omega)]
    rfl
  · rw [readSection, value_bind]
    cases hat : (atOffset data 40 (sectionTable data + min (min (u16At fileHeader 2).toNat
      maxSections) ((data.length - sectionTable data) / 40) * 40)).value with
    | none => rfl
    | some s =>
      have hinside := (atOffset_eq_some hat).1
      rw [hsmall (by omega)] at hinside
      omega

theorem sectionTable_prefix {x y fileHeader : Bytes} (h : x <+: y) {l : OptionalLayout}
    (hx : Signed x fileHeader l) : sectionTable y = sectionTable x := by
  have hlfanew : u32At y 0x3C = u32At x 0x3C := u32At_prefix h hx.dos
  have hinside := (signed_fileHeader hx).1
  rw [sectionTable, sectionTable, hlfanew, u16At_prefix h (by omega)]

/-- What is parsed of bytes is parsed of more of them, and the section table is at the same place. -/
theorem parse_cut {x y : Bytes} (h : x <+: y) {a : PEFile} (hx : (parse x).value = some a) :
    (∃ b, (parse y).value = some b ∧ b.headers = a.headers) ∧ sectionTable y = sectionTable x := by
  obtain ⟨l, fileHeader, hsigned, hoptional⟩ := parse_eq_some_iff.mp hx
  obtain ⟨magic, -, hl⟩ := hsigned.magic
  have hlfanew : u32At y 0x3C = u32At x 0x3C := u32At_prefix h hsigned.dos
  have hlt := (u32At x 0x3C).toNat_lt
  obtain ⟨b, hb, hheaders⟩ := parseOptional_prefix h (mem_layouts_of_layoutOf hl)
    (by unfold sizeOfFileHeader; omega) hoptional
  exact ⟨⟨b, parse_eq_some_iff.mpr ⟨l, fileHeader, signed_prefix h hsigned, hlfanew ▸ hb⟩,
    hheaders⟩, sectionTable_prefix h hsigned⟩

/-! ## what the comparison misses -/

/-- The header bytes of an image: its section table lies within the first `MaxHeaders` of them. -/
structure Whole (data : Bytes) (pe : PEFile) : Prop where
  parsed : (parse (data.take maxHeaders)).value = some pe
  few : pe.headers.numberOfSections.toNat ≤ maxSections
  inside : sectionTable data + pe.headers.numberOfSections.toNat * 40 ≤ min data.length maxHeaders

theorem sectionHeader_cut {x y : Bytes} (h : x <+: y) (htable : sectionTable y = sectionTable x)
    {i : ℕ} (hi : sectionTable x + (i + 1) * 40 ≤ x.length) :
    sectionHeader y i = sectionHeader x i := by
  rw [sectionHeader, sectionHeader, htable, take_drop_cut h (by omega)]

/-- What is parsed of the bytes that were read: all but the sections past them. -/
theorem parse_read {data x : Bytes} {pe a : PEFile} (h : Whole data pe)
    (hread : x <+: data ∨ data <+: x) (hx : (parse x).value = some a) :
    a.headers = pe.headers ∧ a.sections = (List.range (min pe.headers.numberOfSections.toNat
      ((x.length - sectionTable data) / 40))).map (sectionHeader data) := by
  obtain ⟨⟨b, hb, hheaders⟩, -⟩ := parse_cut (List.take_prefix _ _) h.parsed
  have hinside := h.inside
  obtain ⟨hsame, htable, hsection⟩ : a.headers = b.headers ∧ sectionTable x = sectionTable data
      ∧ ∀ i < b.headers.numberOfSections.toNat, sectionTable x + (i + 1) * 40 ≤ x.length →
        sectionHeader x i = sectionHeader data i := by
    obtain hread | hread := hread
    · obtain ⟨⟨b', hb', hsame⟩, htable⟩ := parse_cut hread hx
      cases hb.symm.trans hb'
      exact ⟨hsame.symm, htable.symm, fun i _ hi => (sectionHeader_cut hread htable hi).symm⟩
    · obtain ⟨⟨a', ha', hsame⟩, htable⟩ := parse_cut hread hb
      cases hx.symm.trans ha'
      refine ⟨hsame, htable, fun i hi _ => sectionHeader_cut hread htable ?_⟩
      rw [hheaders] at hi
      omega
  have hall := sections_eq hx
  rw [hsame, hheaders, Nat.min_eq_left h.few, htable] at hall
  refine ⟨hsame.trans hheaders, hall.trans (List.map_congr_left fun i hi => ?_)⟩
  rw [List.mem_range] at hi
  rw [hheaders] at hsection
  exact hsection i (by omega) (by omega)

theorem readMemory_cut (memory : Bytes) (size : ℕ) :
    readMemory memory size <+: memory ∨ memory <+: readMemory memory size := by
  unfold readMemory
  obtain hlt | hle := Nat.lt_or_ge memory.length size
  · rw [List.take_append, List.take_of_length_le hlt.le]
    exact .inr (List.prefix_append _ _)
  · rw [List.take_append_of_le_length hle]
    exact .inl (List.take_prefix _ _)

@[simp]
theorem length_readMemory (memory : Bytes) (size : ℕ) : (readMemory memory size).length = size := by
  simp [readMemory]

/-- How much is read is what the header in memory says. -/
theorem parseInMemory_eq_some {memory : Bytes} {pe m : PEFile} (h : Whole memory pe) {size : ℕ}
    (hm : parseInMemory memory = some (size, m)) :
    size = max pageSize (headerSize pe.headers)
      ∧ (parse (readMemory memory size)).value = some m := by
  unfold parseInMemory at hm
  cases hfirst : (parse (readMemory memory pageSize)).value with
  | none => simp [hfirst] at hm
  | some first =>
    have hheaders := (parse_read h (readMemory_cut memory pageSize) hfirst).1
    simp only [hfirst, hheaders, Option.bind_eq_bind, Option.bind_some] at hm
    split at hm
    · next hlarge =>
      cases hall : (parse (readMemory memory (headerSize pe.headers))).value with
      | none => simp [hall] at hm
      | some all =>
        rw [hall] at hm
        cases hm
        exact ⟨(Nat.max_eq_right hlarge.le).symm, hall⟩
    · next hsmall =>
      cases hm
      exact ⟨(Nat.max_eq_left (not_lt.mp hsmall)).symm, hfirst⟩

/-- The header bytes agree in all that is compared. -/
structure Agree (memory file : Bytes) (m f : PEHeaders) : Prop where
  headers : SameHeaders m f
  sections : ∀ i < m.numberOfSections.toNat, SameSection (sectionHeader memory i) (sectionHeader file i)

/-- A section header lies in the first bytes of both. -/
def Reached (memory file : Bytes) (size i : ℕ) : Prop :=
  sectionTable memory + (i + 1) * 40 ≤ size ∧ sectionTable file + (i + 1) * 40 ≤ size

theorem forall_mem_zip_map {α β : Type} {p : α → β → Prop} {a : ℕ → α} {b : ℕ → β} {m n : ℕ} :
    (∀ q ∈ ((List.range m).map a).zip ((List.range n).map b), p q.1 q.2)
      ↔ ∀ i < min m n, p (a i) (b i) := by
  constructor
  · intro h i hi
    have hlength : i < (((List.range m).map a).zip ((List.range n).map b)).length := by
      simpa using hi
    simpa using h _ (List.getElem_mem hlength)
  · intro h q hq
    obtain ⟨i, hi, rfl⟩ := List.getElem_of_mem hq
    simpa using h i (by simpa using hi)

/-- What an empty text says: the headers agree, and of the sections those that were read. -/
theorem compareHeaders_read {memory file : Bytes} {inMemory inFile : PEFile}
    (hmemory : Whole memory inMemory) (hfile : Whole file inFile) {size : ℕ} {m f : PEFile}
    (hm : parseInMemory memory = some (size, m))
    (hf : (parse (readFileHeaders file size)).value = some f) :
    compareHeaders m f = [] ↔ SameHeaders inMemory.headers inFile.headers
      ∧ ∀ i < inMemory.headers.numberOfSections.toNat,
        Reached memory file (max pageSize (headerSize inMemory.headers)) i →
          SameSection (sectionHeader memory i) (sectionHeader file i) := by
  obtain ⟨rfl, hm⟩ := parseInMemory_eq_some hmemory hm
  obtain ⟨hmHeaders, hmSections⟩ := parse_read hmemory (readMemory_cut _ _) hm
  obtain ⟨hfHeaders, hfSections⟩ := parse_read hfile (.inl (List.take_prefix _ _)) hf
  rw [compareHeaders_eq_nil, hmHeaders, hfHeaders, hmSections, hfSections, forall_mem_zip_map,
    length_readMemory, List.length_take]
  have hinside := hfile.inside
  refine and_congr_right fun hheaders => ?_
  have hcount := congrArg UInt16.toNat hheaders.numberOfSections
  constructor
  · intro hsections i hi hreach
    unfold Reached at hreach
    exact hsections i (by omega)
  · intro hreached i hi
    refine hreached i (by omega) ?_
    unfold Reached
    omega

/-- No change is missed unless it is in a section header past what is read, alone. -/
theorem compareHeaders_iff {memory file : Bytes} {inMemory inFile : PEFile}
    (hmemory : Whole memory inMemory) (hfile : Whole file inFile) {size : ℕ} {m f : PEFile}
    (hm : parseInMemory memory = some (size, m))
    (hf : (parse (readFileHeaders file size)).value = some f) :
    (compareHeaders m f = [] ↔ Agree memory file inMemory.headers inFile.headers)
      ↔ (SameHeaders inMemory.headers inFile.headers →
          (∀ i < inMemory.headers.numberOfSections.toNat,
            Reached memory file (max pageSize (headerSize inMemory.headers)) i →
              SameSection (sectionHeader memory i) (sectionHeader file i)) →
          ∀ i < inMemory.headers.numberOfSections.toNat,
            SameSection (sectionHeader memory i) (sectionHeader file i)) := by
  rw [compareHeaders_read hmemory hfile hm hf]
  constructor
  · intro hiff hheaders hreached
    exact (hiff.mp ⟨hheaders, hreached⟩).sections
  · intro hall
    constructor
    · rintro ⟨hheaders, hreached⟩
      exact ⟨hheaders, hall hheaders hreached⟩
    · intro hagree
      exact ⟨hagree.headers, fun i hi _ => hagree.sections i hi⟩

/-- `CheckImage` finds such an image right where what it read of the headers agrees. -/
theorem checkImage_ok_iff {p : ProcessAnswers} {file : Bytes} (h : p.Comparable file)
    {inMemory inFile : PEFile} (hmemory : Whole p.memory inMemory) (hfile : Whole file inFile)
    {size : ℕ} {m f : PEFile} (hm : parseInMemory p.memory = some (size, m))
    (hf : (parse (readFileHeaders file size)).value = some f) :
    p.checkImage.status = .ok ↔ SameHeaders inMemory.headers inFile.headers
      ∧ ∀ i < inMemory.headers.numberOfSections.toNat,
        Reached p.memory file (max pageSize (headerSize inMemory.headers)) i →
          SameSection (sectionHeader p.memory i) (sectionHeader file i) := by
  rw [h.checkImage_status hm hf, ← compareHeaders_read hmemory hfile hm hf]
  split
  · next hnil => exact iff_of_true rfl hnil
  · next hne => exact iff_of_false (by decide) hne

/-- A 32-bit image with one section, whose header is right after the optional header. -/
def oneSection (lfanew : ℕ) (characteristics : UInt32) : Bytes :=
  [0x4D, 0x5A] ++ List.replicate 58 0 ++ leBytes 4 lfanew ++ (List.replicate (lfanew - 64) 0
    ++ (leBytes 4 imageNtSignature.toNat
      ++ leBytes 2 0x14C ++ leBytes 2 1 ++ List.replicate 12 0 ++ leBytes 2 224 ++ leBytes 2 0x102
      ++ leBytes 2 imageNtOptionalHdr32Magic.toNat ++ List.replicate 222 0
      ++ List.replicate 36 0x2E ++ leBytes 4 characteristics.toNat))

/-- A section that was made writable in memory is found. -/
theorem compareHeaders_iff_oneSection :
    let memory := oneSection 64 0xE0000020
    let file := oneSection 64 0x60000020
    let inMemory := (parse (memory.take maxHeaders)).value.get (by decide +kernel)
    let inFile := (parse (file.take maxHeaders)).value.get (by decide +kernel)
    let m := (parseInMemory memory).get (by decide +kernel)
    let f := (parse (readFileHeaders file m.1)).value.get (by decide +kernel)
    compareHeaders m.2 f = [] ↔ Agree memory file inMemory.headers inFile.headers := by
  intro memory file inMemory inFile m f
  have hmemory : Whole memory inMemory :=
    ⟨(Option.some_get _).symm, by decide +kernel, by decide +kernel⟩
  have hfile : Whole file inFile :=
    ⟨(Option.some_get _).symm, by decide +kernel, by decide +kernel⟩
  have hm : parseInMemory memory = some (m.1, m.2) := by
    rw [Prod.mk.eta]
    exact (Option.some_get _).symm
  have hreached : ∀ i < inMemory.headers.numberOfSections.toNat,
      sectionTable memory + (i + 1) * 40 ≤ max pageSize (headerSize inMemory.headers)
        ∧ sectionTable file + (i + 1) * 40 ≤ max pageSize (headerSize inMemory.headers) := by
    decide +kernel
  exact (compareHeaders_iff hmemory hfile hm (Option.some_get _).symm).mpr
    fun _ h i hi => h i hi (hreached i hi)

/-- Behind a header near the page's end it is missed: the table is past what is read. -/
theorem far_table_missed :
    let memory := oneSection 3848 0xE0000020
    let file := oneSection 3848 0x60000020
    ∃ inMemory inFile m f, Whole memory inMemory ∧ Whole file inFile
      ∧ parseInMemory memory = some (pageSize, m)
      ∧ (parse (readFileHeaders file pageSize)).value = some f
      ∧ compareHeaders m f = [] ∧ ¬Agree memory file inMemory.headers inFile.headers := by
  intro memory file
  have hmemory : ∃ pe ∈ (parse (memory.take maxHeaders)).value,
      pe.headers.numberOfSections.toNat = 1 := by decide +kernel
  have hfile : ∃ pe ∈ (parse (file.take maxHeaders)).value,
      pe.headers.numberOfSections.toNat = 1 := by decide +kernel
  have hread : ∃ m ∈ parseInMemory memory, ∃ f ∈ (parse (readFileHeaders file pageSize)).value,
      m.1 = pageSize ∧ compareHeaders m.2 f = [] := by decide +kernel
  have hplace : ∀ data ∈ [memory, file], sectionTable data + 40 ≤ min data.length maxHeaders := by
    decide +kernel
  have hdiffer : ¬SameSection (sectionHeader memory 0) (sectionHeader file 0) := by decide +kernel
  obtain ⟨inMemory, hinMemory, honeMemory⟩ := hmemory
  obtain ⟨inFile, hinFile, honeFile⟩ := hfile
  obtain ⟨⟨_, m⟩, hm, f, hf, rfl, hnil⟩ := hread
  refine ⟨inMemory, inFile, m, f, ⟨hinMemory, ?_, ?_⟩, ⟨hinFile, ?_, ?_⟩, hm, hf, hnil, ?_⟩
  · exact honeMemory.trans_le (by decide)
  · exact (by rw [honeMemory]; exact hplace memory (by simp))
  · exact honeFile.trans_le (by decide)
  · exact (by rw [honeFile]; exact hplace file (by simp))
  · exact fun hagree => hdiffer (hagree.sections 0 (by omega))

end WinSys.ProcessIntegrity
