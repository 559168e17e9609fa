import WinSys.Driver.Control
import WinSys.Infra.Layout
import WinSys.Infra.Payload
import Mathlib.Data.List.Find

/-!
# The driver's table of object types

`InitGlobals` asks for the system's object types and goes over them. A type whose name starts with
one of the names in `objectTypes`, case aside, gets the kernel type of the first such name.

* `TypesBuffer`: the buffers the system fills
* `walk_types`: what the walk visits and writes
* `initGlobals_exact_iff`: when every type has the kernel type of its own name
-/

namespace WinSys.Driver

open Infra

/-! ## the source -/

/-- The kernel's variables that have its object types. -/
inductive TypeVariable
  | psProcessType | psThreadType | psJobType | exEventObjectType | exSemaphoreObjectType
  | ioFileObjectType | cmKeyObjectType | seTokenObjectType | ioDeviceObjectType
  | ioDriverObjectType | mmSectionObjectType | exDesktopObjectType | exWindowStationObjectType
  | lpcPortObjectType | exTimerObjectType | psPartitionType
deriving DecidableEq

/-- The kernel's object types. -/
structure KernelTypes where
  type : TypeVariable → UInt64
  type_ne : ∀ v, type v ≠ 0

/-- The names the driver knows, in order. -/
def objectTypes (k : KernelTypes) : List (WString × UInt64) := [
  (wide "Process", k.type .psProcessType),
  (wide "Thread", k.type .psThreadType),
  (wide "Job", k.type .psJobType),
  (wide "Event", k.type .exEventObjectType),
  (wide "Semaphore", k.type .exSemaphoreObjectType),
  (wide "File", k.type .ioFileObjectType),
  (wide "Key", k.type .cmKeyObjectType),
  (wide "Token", k.type .seTokenObjectType),
  (wide "Device", k.type .ioDeviceObjectType),
  (wide "Driver", k.type .ioDriverObjectType),
  (wide "Section", k.type .mmSectionObjectType),
  (wide "Desktop", k.type .exDesktopObjectType),
  (wide "WindowStation", k.type .exWindowStationObjectType),
  (wide "ALPC Port", k.type .lpcPortObjectType),
  (wide "Timer", k.type .exTimerObjectType),
  (wide "Partition", k.type .psPartitionType),
  (wide "Session", typeSession),
  (wide "SymbolicLink", typeSymbolicLink)]

/-- Pool memory at an address. -/
structure Pool where
  base : ℕ
  data : Bytes
  aligned : base % 16 = 0
  fits : base + data.length ≤ 2 ^ 64

/-- `_wcsnicmp(name, text, wcslen(name)) == 0`, and how many characters of the text are read. -/
def compareName : WString → WString → Bool × ℕ
  | [], _ => (true, 0)
  | _ :: _, [] => (false, 1)
  | c :: cs, d :: ds =>
    if foldCase c ≠ foldCase d then (false, 1)
    else if d = 0 then (true, 1)
    else ((compareName cs ds).1, (compareName cs ds).2 + 1)

/-- The loop over `objectTypes`: the type found, and how far the text is read. -/
def matchType (text : WString) : List (WString × UInt64) → Option UInt64 × ℕ
  | [] => (none, 0)
  | (name, type) :: rest =>
    let compared := compareName name text
    if compared.1 then (some type, compared.2)
    else ((matchType text rest).1, max compared.2 (matchType text rest).2)

/-- An entry the walk visits: its offset, and how many characters of its name are read. -/
structure Visit where
  offset : ℕ
  read : ℕ
deriving DecidableEq, Repr

abbrev TypeTable := Fin 256 → UInt64

def slotOf (typeIndex : UInt8) : Fin 256 := typeIndex.toFin

def sizeofTypeInformation : ℕ := 104

/-- The walk over so many types from an offset on. -/
def walkTypes (k : KernelTypes) (pool : Pool) : ℕ → ℕ → TypeTable → TypeTable × List Visit
  | 0, _, table => (table, [])
  | n + 1, offset, table =>
    let maximumLength := (u16At pool.data (offset + 2)).toNat
    let buffer := (u64At pool.data (offset + 8)).toNat
    let typeIndex := u8At pool.data (offset + 90)
    let found := matchType (units (pool.data.drop (buffer - pool.base))) (objectTypes k)
    let table :=
      match found.1 with
      | none => table
      | some type => Function.update table (slotOf typeIndex) type
    let temp := pool.base + offset + sizeofTypeInformation + maximumLength
    -- up to a multiple of a pointer's size
    let next := (temp + (8 - 1)) / 8 * 8
    let rest := walkTypes k pool n (next - pool.base) table
    (rest.1, ⟨offset, found.2⟩ :: rest.2)

structure Globals where
  objectTypes : TypeTable := fun _ => 0
  numberOfTypes : UInt32 := 0

def statusNoMemory : UInt32 := 0xC0000017

/-- `types` is the pool memory after the query, which had `status`; there may be none. -/
def initGlobals (k : KernelTypes) (types : Option Pool) (status : UInt32) :
    Globals × List Visit × UInt32 :=
  match types with
  | none => ({}, [], statusNoMemory)
  | some pool =>
    if success status then
      let number := u32At pool.data 0
      let walked := walkTypes k pool number.toNat 8 fun _ => 0
      (⟨walked.1, number⟩, walked.2, status)
    else ({}, [], status)

/-! ## the buffers -/

/-- A type as the system tells it. `counts` and `charges` are the fields before and after the type
index, `filler` what follows the name up to the next entry. -/
structure TypeEntry where
  name : WString
  maximumLength : ℕ
  gap : Bytes
  counts : Bytes
  typeIndex : UInt8
  charges : Bytes
  filler : Bytes
  gap_length : gap.length = 4
  counts_length : counts.length = 74
  charges_length : charges.length = 13
  name_fits : 2 * name.length + 2 ≤ maximumLength
  maximum_lt : maximumLength < 2 ^ 16
  filler_length : 104 + 2 * name.length + 2 + filler.length = (104 + maximumLength + 7) / 8 * 8

namespace TypeEntry

variable (e : TypeEntry)

/-- The entry with its name, up to a multiple of a pointer's size. -/
def size : ℕ := (104 + e.maximumLength + 7) / 8 * 8

/-- The fields, at an address; the name is right behind them. -/
def fields (address : ℕ) : Bytes :=
  leBytes 2 (2 * e.name.length) ++ leBytes 2 e.maximumLength ++ e.gap ++ leBytes 8 (address + 104)
    ++ e.counts ++ [e.typeIndex] ++ e.charges

def encode (address : ℕ) : Bytes := e.fields address ++ (zString e.name ++ e.filler)

theorem length_fields (address : ℕ) : (e.fields address).length = 104 := by
  simp [fields, e.gap_length, e.counts_length, e.charges_length]

theorem length_encode (address : ℕ) : (e.encode address).length = e.size := by
  have hfiller := e.filler_length
  rw [encode, List.length_append, List.length_append, length_fields, zString, length_wideBytes,
    List.length_append, List.length_singleton, size]
  omega

end TypeEntry

/-- Types one after the other, from an address on. -/
def encodeTypes (address : ℕ) : List TypeEntry → Bytes
  | [] => []
  | e :: es => e.encode address ++ encodeTypes (address + e.size) es

/-- The offsets of types one after the other. -/
def typeOffsets (offset : ℕ) : List TypeEntry → List ℕ
  | [] => []
  | e :: es => offset :: typeOffsets (offset + e.size) es

/-- Memory that the system has filled with types. -/
structure TypesBuffer (pool : Pool) (types : List TypeEntry) : Prop where
  count : HoldsAt pool.data 0 (leBytes 4 types.length)
  filled : HoldsAt pool.data 8 (encodeTypes (pool.base + 8) types)
  indexes : (types.map TypeEntry.typeIndex).Nodup

/-! ## a name -/

/-- No letter is folded to a zero. -/
theorem foldCase_eq_zero {c : WChar} (h : foldCase c = 0) : c = 0 :=
  (foldCase_eq_iff (by decide) c).mp h

/-- The comparison ends at the text's terminator at the latest. -/
theorem compareName_eq {name : WString} (hname : 0 ∉ name) (s rest : WString) :
    (compareName name (s ++ 0 :: rest)).1 = startsWithFold s name ∧
      (compareName name (s ++ 0 :: rest)).2 ≤ s.length + 1 := by
  induction name generalizing s with
  | nil => simp [compareName, startsWithFold]
  | cons c cs ih =>
    obtain ⟨hc, hcs⟩ := not_or.mp (mt List.mem_cons.mpr hname)
    have hzero : foldCase c ≠ 0 := fun h => hc (foldCase_eq_zero h).symm
    have hfold : foldCase 0 = 0 := by decide
    cases s with
    | nil =>
      rw [List.nil_append, compareName, if_pos (by rwa [hfold])]
      simp [startsWithFold]
    | cons d ds =>
      rw [List.cons_append, compareName]
      by_cases hcd : foldCase c = foldCase d
      · have hd : d ≠ 0 := by
          rintro rfl
          exact hzero (hcd.trans hfold)
        obtain ⟨hstarts, hread⟩ := ih hcs ds
        rw [if_neg (not_not.mpr hcd), if_neg hd]
        refine ⟨?_, Nat.succ_le_succ hread⟩
        rw [hstarts]
        simp [startsWithFold, hcd]
      · rw [if_pos hcd]
        refine ⟨?_, by simp⟩
        simp [startsWithFold, Ne.symm hcd]

theorem matchType_eq {table : List (WString × UInt64)} (htable : ∀ ot ∈ table, 0 ∉ ot.1)
    (s rest : WString) :
    (matchType (s ++ 0 :: rest) table).1
        = (table.find? fun ot => startsWithFold s ot.1).map Prod.snd ∧
      (matchType (s ++ 0 :: rest) table).2 ≤ s.length + 1 := by
  induction table with
  | nil => exact ⟨rfl, Nat.zero_le _⟩
  | cons ot table ih =>
    obtain ⟨name, type⟩ := ot
    obtain ⟨hstarts, hread⟩ := compareName_eq (htable _ List.mem_cons_self) s rest
    obtain ⟨hfound, hreads⟩ := ih fun x hx => htable x (List.mem_cons_of_mem _ hx)
    rw [matchType, List.find?_cons]
    simp only at hstarts hread ⊢
    rw [hstarts]
    cases startsWithFold s name with
    | true => exact ⟨rfl, hread⟩
    | false => exact ⟨hfound, max_le hread hreads⟩

/-! ## the walk -/

/-- The type that the walk gives a name. -/
def typeFound (k : KernelTypes) (s : WString) : Option UInt64 :=
  ((objectTypes k).find? fun ot => startsWithFold s ot.1).map Prod.snd

/-- The names the driver knows. -/
def knownNames : List WString := [wide "Process", wide "Thread", wide "Job", wide "Event",
  wide "Semaphore", wide "File", wide "Key", wide "Token", wide "Device", wide "Driver",
  wide "Section", wide "Desktop", wide "WindowStation", wide "ALPC Port", wide "Timer",
  wide "Partition", wide "Session", wide "SymbolicLink"]

theorem map_fst_objectTypes (k : KernelTypes) : (objectTypes k).map Prod.fst = knownNames := rfl

theorem zero_notMem_objectTypes (k : KernelTypes) : ∀ ot ∈ objectTypes k, 0 ∉ ot.1 := by
  have hnames : ∀ name ∈ knownNames, 0 ∉ name := by decide
  intro ot hot
  refine hnames ot.1 ?_
  rw [← map_fst_objectTypes k]
  exact List.mem_map_of_mem hot

section Walk

variable {pool : Pool} {offset : ℕ} {e : TypeEntry} {es : List TypeEntry}

theorem fields_at (h : HoldsAt pool.data offset (e.encode (pool.base + offset))) :
    (u16At pool.data (offset + 2)).toNat = e.maximumLength ∧
    (u64At pool.data (offset + 8)).toNat = pool.base + offset + 104 ∧
    u8At pool.data (offset + 90) = e.typeIndex ∧
    ∃ rest, units (pool.data.drop (offset + 104)) = e.name ++ 0 :: rest := by
  have hend : offset + (e.encode (pool.base + offset)).length ≤ pool.data.length := by
    refine h.add_length_le fun hnil => ?_
    have hlength := congrArg List.length hnil
    rw [TypeEntry.encode, List.length_append, TypeEntry.length_fields] at hlength
    exact absurd hlength (by simp)
  have hsize : 104 < (e.encode (pool.base + offset)).length := by
    rw [TypeEntry.encode, List.length_append, TypeEntry.length_fields, List.length_append, zString,
      length_wideBytes, List.length_append, List.length_singleton]
    omega
  have hfits := pool.fits
  obtain ⟨hfields, htext⟩ := HoldsAt.append_iff.mp h
  rw [TypeEntry.length_fields] at htext
  simp only [TypeEntry.fields, HoldsAt.append_iff, length_leBytes, List.length_append,
    e.gap_length, e.counts_length, List.length_singleton] at hfields
  obtain ⟨⟨⟨⟨⟨⟨-, hmaximum⟩, -⟩, hbuffer⟩, -⟩, hindex⟩, -⟩ := hfields
  refine ⟨hmaximum.u16At e.maximum_lt, hbuffer.u64At (by omega), hindex.u8At, ?_⟩
  obtain ⟨rest, hrest⟩ := htext.left
  refine ⟨units rest, ?_⟩
  rw [← hrest, zString, units_wideBytes_append, List.append_assoc, List.singleton_append]

/-- The table after one type. -/
def addType (k : KernelTypes) (table : TypeTable) (e : TypeEntry) : TypeTable :=
  match typeFound k e.name with
  | none => table
  | some type => Function.update table (slotOf e.typeIndex) type

/-- One turn of the walk. -/
theorem walkTypes_succ (k : KernelTypes) (halign : offset % 8 = 0)
    (h : HoldsAt pool.data offset (e.encode (pool.base + offset))) (n : ℕ) (table : TypeTable) :
    ∃ read ≤ e.name.length + 1,
      walkTypes k pool (n + 1) offset table
        = ((walkTypes k pool n (offset + e.size) (addType k table e)).1,
            ⟨offset, read⟩ :: (walkTypes k pool n (offset + e.size) (addType k table e)).2) := by
  obtain ⟨hmaximum, hbuffer, hindex, rest, htext⟩ := fields_at h
  obtain ⟨hfound, hread⟩ := matchType_eq (zero_notMem_objectTypes k) e.name rest
  have hplace : pool.base + offset + 104 - pool.base = offset + 104 := by omega
  have hnext : (pool.base + offset + 104 + e.maximumLength + (8 - 1)) / 8 * 8 - pool.base
      = offset + e.size := by
    have hbase := pool.aligned
    rw [TypeEntry.size]
    omega
  refine ⟨_, hread, ?_⟩
  rw [walkTypes]
  simp only [hmaximum, hbuffer, hindex, hplace, htext, hfound, sizeofTypeInformation, hnext]
  rfl

/-- **The walk visits the types, one after the other**, and reads no name past its terminator. -/
theorem walk_types (k : KernelTypes) (halign : offset % 8 = 0)
    (h : HoldsAt pool.data offset (encodeTypes (pool.base + offset) es)) (table : TypeTable) :
    (walkTypes k pool es.length offset table).1 = es.foldl (addType k) table ∧
    (walkTypes k pool es.length offset table).2.map Visit.offset = typeOffsets offset es ∧
    List.Forall₂ (fun visit e => visit.read ≤ e.name.length + 1)
      (walkTypes k pool es.length offset table).2 es := by
  induction es generalizing offset table with
  | nil => exact ⟨rfl, rfl, .nil⟩
  | cons e es ih =>
    rw [encodeTypes, HoldsAt.append_iff, TypeEntry.length_encode, Nat.add_assoc pool.base] at h
    obtain ⟨hown, hrest⟩ := h
    obtain ⟨read, hread, hturn⟩ := walkTypes_succ k halign hown es.length table
    have halign' : (offset + e.size) % 8 = 0 := by
      rw [TypeEntry.size]
      omega
    obtain ⟨htable, hvisits, hreads⟩ := ih halign' hrest (addType k table e)
    rw [List.length_cons, hturn]
    exact ⟨htable, by rw [List.map_cons, hvisits, typeOffsets], .cons hread hreads⟩

end Walk

/-! ## the table -/

/-- The type of the name itself, case aside. -/
def typeNamed (k : KernelTypes) (s : WString) : Option UInt64 :=
  ((objectTypes k).find? fun ot => ot.1.map foldCase = s.map foldCase).map Prod.snd

/-- What the table should have: each type's index has the kernel type of the type's name, all
others have none. -/
def exactTable (k : KernelTypes) (types : List TypeEntry) : TypeTable := fun i =>
  ((types.find? fun e => slotOf e.typeIndex = i).bind fun e => typeNamed k e.name).getD
    0

theorem slotOf_injective : Function.Injective slotOf := fun _ _ h => UInt8.toFin_inj.mp h

/-- What the walk leaves in a slot: what was there, or the type of the one that has it. -/
theorem foldl_addType (k : KernelTypes) {types : List TypeEntry}
    (h : (types.map TypeEntry.typeIndex).Nodup) (table : TypeTable) (i : Fin 256) :
    types.foldl (addType k) table i
      = ((types.find? fun e => slotOf e.typeIndex = i).bind fun e =>
          typeFound k e.name).getD (table i) := by
  induction types generalizing table with
  | nil => rfl
  | cons e types ih =>
    rw [List.map_cons, List.nodup_cons] at h
    rw [List.foldl_cons, ih h.2, List.find?_cons]
    by_cases hi : slotOf e.typeIndex = i
    · -- no later type has the slot
      have hnone : types.find? (fun e => decide (slotOf e.typeIndex = i)) = none := by
        refine List.find?_eq_none.mpr fun e' he' hslot => h.1 ?_
        rw [decide_eq_true_eq] at hslot
        rw [slotOf_injective (hi.trans hslot.symm)]
        exact List.mem_map_of_mem he'
      rw [hnone, decide_eq_true hi, addType]
      simp only [Option.bind_none, Option.getD_none, Option.bind_some]
      cases typeFound k e.name with
      | none => rfl
      | some type =>
        rw [← hi]
        exact Function.update_self _ _ _
    · have hsame : addType k table e i = table i := by
        rw [addType]
        cases typeFound k e.name with
        | none => rfl
        | some type => exact Function.update_of_ne (Ne.symm hi) _ _
      rw [decide_eq_false hi, hsame]

/-- The name goes on behind a name the driver knows. -/
def Extends (s name : WString) : Prop := startsWithFold s name = true ∧ name.length < s.length

instance (s name : WString) : Decidable (Extends s name) := inferInstanceAs (Decidable (_ ∧ _))

theorem fold_eq_iff {s name : WString} :
    name.map foldCase = s.map foldCase ↔ startsWithFold s name = true ∧ ¬ Extends s name := by
  have hiff : startsWithFold s name = true ↔
      (s.take name.length).map foldCase = name.map foldCase := beq_iff_eq
  constructor
  · intro h
    have hlength : name.length = s.length := by simpa using congrArg List.length h
    refine ⟨hiff.mpr ?_, fun hext => absurd hext.2 (by omega)⟩
    rw [List.take_of_length_le hlength.ge, h]
  · rintro ⟨hstarts, hext⟩
    have hle : s.length ≤ name.length := by
      by_contra hlt
      exact hext ⟨hstarts, not_le.mp hlt⟩
    have hfold := hiff.mp hstarts
    rw [List.take_of_length_le hle] at hfold
    exact hfold.symm

/-- None of the names the driver knows goes on behind another. -/
theorem not_extends_known : ∀ a ∈ knownNames, ∀ b ∈ knownNames, ¬ Extends a b := by
  decide +kernel

theorem snd_ne_zero (k : KernelTypes) : ∀ ot ∈ objectTypes k, ot.2 ≠ 0 := by
  intro ot hot
  simp only [objectTypes, List.mem_cons, List.not_mem_nil, or_false] at hot
  rcases hot with rfl | rfl | rfl | rfl | rfl | rfl | rfl | rfl | rfl | rfl | rfl | rfl | rfl | rfl
    | rfl | rfl | rfl | rfl
  case inr.inr.inr.inr.inr.inr.inr.inr.inr.inr.inr.inr.inr.inr.inr.inr.inl => decide
  case inr.inr.inr.inr.inr.inr.inr.inr.inr.inr.inr.inr.inr.inr.inr.inr.inr => decide
  all_goals exact k.type_ne _

/-- A name gets its own type just if it doesn't go on behind a known one. -/
theorem typeFound_eq_iff (k : KernelTypes) (s : WString) :
    (typeFound k s).getD 0 = (typeNamed k s).getD 0 ↔ ∀ name ∈ knownNames, ¬ Extends s name := by
  constructor
  · intro h name hname hext
    -- a known name is found, so the type is not null
    obtain ⟨ot, hot, rfl⟩ := List.mem_map.mp (map_fst_objectTypes k ▸ hname)
    cases hfind : (objectTypes k).find? fun ot => startsWithFold s ot.1 with
    | none => exact List.find?_eq_none.mp hfind ot hot hext.1
    | some found =>
      have hne := snd_ne_zero k found (List.mem_of_find?_eq_some hfind)
      rw [typeFound, hfind, Option.map_some, Option.getD_some] at h
      cases hown : (objectTypes k).find? fun ot => ot.1.map foldCase = s.map foldCase with
      | none =>
        rw [typeNamed, hown] at h
        exact hne h
      | some own =>
        -- and the name would be a known one itself
        have heq := List.find?_some hown
        rw [decide_eq_true_eq] at heq
        have hmem : own.1 ∈ knownNames := by
          rw [← map_fst_objectTypes k]
          exact List.mem_map_of_mem (List.mem_of_find?_eq_some hown)
        refine not_extends_known own.1 hmem ot.1 hname ⟨?_, ?_⟩
        · have hstarts := hext.1
          unfold startsWithFold at hstarts ⊢
          rw [List.map_take, heq, ← List.map_take]
          exact hstarts
        · have hlength : own.1.length = s.length := by simpa using congrArg List.length heq
          rw [hlength]
          exact hext.2
  · intro h
    have hsame : ∀ ot ∈ objectTypes k,
        startsWithFold s ot.1 = decide (ot.1.map foldCase = s.map foldCase) := by
      intro ot hot
      have hno := h ot.1 (by
        rw [← map_fst_objectTypes k]
        exact List.mem_map_of_mem hot)
      have hiff := @fold_eq_iff s ot.1
      by_cases hstarts : startsWithFold s ot.1 = true
      · rw [hstarts, decide_eq_true (hiff.mpr ⟨hstarts, hno⟩)]
      · rw [Bool.eq_false_iff.mpr hstarts, decide_eq_false fun heq => hstarts (hiff.mp heq).1]
    rw [typeFound, typeNamed, List.find?_congr hsame]

/-- **After a successful query each type has the kernel type of its own name, and no other index has
one**, just if no type's name goes on behind a name the driver knows. The walk visits the types, one
after the other, and reads no name past its terminator in any case. -/
theorem initGlobals_exact_iff (k : KernelTypes) (pool : Pool) (types : List TypeEntry)
    (status : UInt32) (h : TypesBuffer pool types) (hstatus : success status = true) :
    ((initGlobals k (some pool) status).1.objectTypes = exactTable k types ∧
      (initGlobals k (some pool) status).1.numberOfTypes.toNat = types.length ∧
      (initGlobals k (some pool) status).2.1.map Visit.offset = typeOffsets 8 types ∧
      List.Forall₂ (fun visit e => visit.read ≤ e.name.length + 1)
        (initGlobals k (some pool) status).2.1 types) ↔
    ∀ e ∈ types, ∀ name ∈ knownNames, ¬ Extends e.name name := by
  have hnumber : (u32At pool.data 0).toNat = types.length := by
    refine h.count.u32At ?_
    have hle := (h.indexes.map slotOf_injective).length_le_card
    rw [List.length_map, List.length_map, Fintype.card_fin] at hle
    omega
  obtain ⟨htable, hvisits, hreads⟩ := walk_types k (by decide) h.filled fun _ => 0
  have hinit : initGlobals k (some pool) status
      = (⟨(walkTypes k pool types.length 8 fun _ => 0).1, u32At pool.data 0⟩,
          (walkTypes k pool types.length 8 fun _ => 0).2, status) := by
    rw [← hnumber, initGlobals]
    exact if_pos hstatus
  rw [hinit]
  simp only [htable, hvisits, hreads, hnumber, and_true]
  constructor
  · intro heq e he
    have hslot := congrFun heq (slotOf e.typeIndex)
    have hfind : (types.find? fun e' => slotOf e'.typeIndex = slotOf e.typeIndex) = some e := by
      cases hfind : types.find? fun e' => slotOf e'.typeIndex = slotOf e.typeIndex with
      | none => exact absurd (decide_eq_true rfl) (List.find?_eq_none.mp hfind e he)
      | some e' =>
        have hsame := List.find?_some hfind
        rw [decide_eq_true_eq] at hsame
        rw [List.inj_on_of_nodup_map h.indexes (List.mem_of_find?_eq_some hfind) he
          (slotOf_injective hsame)]
    rw [foldl_addType k h.indexes, exactTable, hfind] at hslot
    exact (typeFound_eq_iff k e.name).mp hslot
  · intro hall
    funext i
    rw [foldl_addType k h.indexes, exactTable]
    cases hfind : types.find? fun e => slotOf e.typeIndex = i with
    | none => rfl
    | some e => exact (typeFound_eq_iff k e.name).mpr (hall e (List.mem_of_find?_eq_some hfind))

/-- A type with nothing but a name. -/
def entryOf (name : WString) (typeIndex : UInt8) (h : 2 * name.length + 2 < 2 ^ 16) : TypeEntry where
  name := name
  maximumLength := 2 * name.length + 2
  gap := List.replicate 4 0
  counts := List.replicate 74 0
  typeIndex := typeIndex
  charges := List.replicate 13 0
  filler := List.replicate
    ((104 + (2 * name.length + 2) + 7) / 8 * 8 - (104 + (2 * name.length + 2))) 0
  gap_length := List.length_replicate
  counts_length := List.length_replicate
  charges_length := List.length_replicate
  name_fits := le_rfl
  maximum_lt := h
  filler_length := by
    rw [List.length_replicate]
    omega

/-- Memory with one type. -/
def poolOf (e : TypeEntry) : Pool where
  base := 0x10000
  data := leBytes 4 1 ++ List.replicate 4 0 ++ e.encode 0x10008
  aligned := by decide
  fits := by
    have hlt := e.maximum_lt
    rw [List.length_append, e.length_encode, TypeEntry.size, List.length_append, length_leBytes,
      List.length_replicate]
    omega

theorem typesBuffer_poolOf (e : TypeEntry) : TypesBuffer (poolOf e) [e] where
  count := ⟨List.replicate 4 0 ++ e.encode 0x10008, (List.append_assoc _ _ _).symm⟩
  filled := by
    have hall : HoldsAt (poolOf e).data 0
        (leBytes 4 1 ++ List.replicate 4 0 ++ e.encode 0x10008) := ⟨[], List.append_nil _⟩
    rw [encodeTypes, encodeTypes, List.append_nil]
    exact hall.right
  indexes := List.nodup_singleton _

/-- The registry's keys have a type of their own here, all other types another. -/
def twoTypes : KernelTypes where
  type
    | .cmKeyObjectType => 0xFFFF9000
    | _ => 0xFFFF8000
  type_ne v := by cases v <;> decide

theorem mutant_fits : 2 * (wide "Mutant").length + 2 < 2 ^ 16 := by decide

theorem initGlobals_mutant :
    let e := entryOf (wide "Mutant") 17 mutant_fits
    TypesBuffer (poolOf e) [e] ∧ success 0 = true ∧
    (∀ e' ∈ [e], ∀ name ∈ knownNames, ¬ Extends e'.name name) ∧
    (initGlobals twoTypes (some (poolOf e)) 0).1.objectTypes = exactTable twoTypes [e] := by
  intro e
  have hbuffer := typesBuffer_poolOf e
  have hnone : ∀ e' ∈ [e], ∀ name ∈ knownNames, ¬ Extends e'.name name := by decide
  exact ⟨hbuffer, by decide, hnone,
    ((initGlobals_exact_iff twoTypes (poolOf e) [e] 0 hbuffer (by decide)).mpr hnone).1⟩

theorem keyedEvent_fits : 2 * (wide "KeyedEvent").length + 2 < 2 ^ 16 := by decide

/-- A keyed event gets the type of the registry's keys. -/
theorem initGlobals_keyedEvent :
    let e := entryOf (wide "KeyedEvent") 23 keyedEvent_fits
    TypesBuffer (poolOf e) [e] ∧ success 0 = true ∧
    (initGlobals twoTypes (some (poolOf e)) 0).1.objectTypes 23
      = twoTypes.type .cmKeyObjectType ∧
    exactTable twoTypes [e] 23 = 0 :=
  ⟨typesBuffer_poolOf _, by decide, by decide +kernel, by decide⟩

end WinSys.Driver
