import WinSys.SystemInfo.Buffer
import WinSys.SystemInfo.Processors
import WinSys.SystemInfo.Query

/-!
# The processor relationships the kernel gives

`ParseRelationships` goes along records of various sizes, each of which says its own, and reads the
part that its kind has. The processor groups and the cores come from there.

* `Described`, `Described.At`: what a record says, and its layout
* `parseRelationships_any`: what happens with any buffer
* `value_parseRelationships`: what was laid out is read
* `logicalProcessorCores_slot`: a processor's slot has its core, from the kernel's bytes on
-/

namespace WinSys.SystemInfo

open Infra Reads

/-! ## the source -/

def relationProcessorCore : UInt32 := 0
def relationNumaNode : UInt32 := 1
def relationCache : UInt32 := 2
def relationProcessorPackage : UInt32 := 3
def relationGroup : UInt32 := 4
def relationProcessorDie : UInt32 := 5
def relationNumaNodeEx : UInt32 := 6
def relationProcessorModule : UInt32 := 7

/-- The kinds whose records have a `Processor` part. -/
def processorRelations : List UInt32 :=
  [relationProcessorCore, relationProcessorPackage, relationProcessorDie, relationProcessorModule]

def numaRelations : List UInt32 := [relationNumaNode, relationNumaNodeEx]

/-- A `LogicalProcessorRelationship` with the fields of all the kinds. -/
structure Relationship extends LogicalProcessorRelationship where
  relationship : UInt32
  flags : UInt8 := 0
  nodeNumber : UInt32 := 0
  cacheLevel : UInt8 := 0
  associativity : UInt8 := 0
  lineSize : UInt16 := 0
  cacheSize : UInt32 := 0
  cacheType : UInt32 := 0
  maximumGroupCount : UInt16 := 0
deriving DecidableEq, Repr

namespace GroupAffinity

def size : ℕ := 16

def read (bs : Bytes) : GroupAffinity := ⟨u64At bs 0, u16At bs 8⟩

end GroupAffinity

namespace ProcessorGroupInfo

def size : ℕ := 48

def read (bs : Bytes) : ProcessorGroupInfo := ⟨u64At bs 40, u8At bs 1⟩

end ProcessorGroupInfo

section Parse

variable (buffer : Bytes) (p : ℕ)

/-- The `GroupMask` or `GroupMasks` at a pointer. -/
def readMasks (first count : ℕ) : Reads (List GroupAffinity) :=
  toVector buffer first GroupAffinity.size count .read

/-- The part of a record that its kind has. -/
def readRelationship (relationship : UInt32) : Reads Relationship :=
  if relationship ∈ processorRelations then do
    let flags ← field buffer (p + 8) 1 (u8At · 0)
    let efficiencyClass ← field buffer (p + 9) 1 (u8At · 0)
    let groupCount ← field buffer (p + 30) 2 u16
    let groupMasks ← readMasks buffer (p + 32) groupCount.toNat
    return { relationship, flags, efficiencyClass, groupMasks }
  else if relationship ∈ numaRelations then do
    let nodeNumber ← field buffer (p + 8) 4 u32
    -- GroupCount is zero on systems predating multi-group support
    let groupCount ← field buffer (p + 30) 2 u16
    let groupMasks ← readMasks buffer (p + 32) (max 1 groupCount.toNat)
    return { relationship, nodeNumber, groupMasks }
  else if relationship = relationCache then do
    let cacheLevel ← field buffer (p + 8) 1 (u8At · 0)
    let associativity ← field buffer (p + 9) 1 (u8At · 0)
    let lineSize ← field buffer (p + 10) 2 u16
    let cacheSize ← field buffer (p + 12) 4 u32
    let cacheType ← field buffer (p + 16) 4 u32
    let groupCount ← field buffer (p + 38) 2 u16
    let groupMasks ← readMasks buffer (p + 40) (max 1 groupCount.toNat)
    return { relationship, cacheLevel, associativity, lineSize, cacheSize, cacheType, groupMasks }
  else if relationship = relationGroup then do
    let maximumGroupCount ← field buffer (p + 8) 2 u16
    let activeGroupCount ← field buffer (p + 10) 2 u16
    let groups ← toVector buffer (p + 32) ProcessorGroupInfo.size activeGroupCount.toNat .read
    return { relationship, maximumGroupCount, groups }
  else return { relationship }

/-- A turn of the loop. -/
def relationshipTurn : Reads (Hop Relationship) :=
  if isInside buffer p 8 then do
    let size ← field buffer (p + 4) 4 u32
    if size = 0 ∨ !isInside buffer p size.toNat then return .stop
    else do
      let relationship ← field buffer p 4 u32
      return .on (← readRelationship buffer p relationship) (p + size.toNat)
  else return .stop

/-- `ParseRelationships` of a query's buffer; it has more turns than the buffer has bytes. -/
def parseRelationships : Reads (List Relationship) :=
  walk (relationshipTurn buffer) (buffer.length + 2) 0

end Parse

/-! ## the reads -/

section Safe

variable {buffer : Bytes} {p : ℕ}

/-- How much of a record the loop reads before the arrays. -/
def readSize (relationship : UInt32) : ℕ :=
  if relationship ∈ processorRelations ∨ relationship ∈ numaRelations then 32
  else if relationship = relationCache then 40
  else if relationship = relationGroup then 12
  else 8

theorem safe_readRelationship_iff {relationship : UInt32} (h : p + 8 ≤ buffer.length) :
    (readRelationship buffer p relationship).Safe ↔ p + readSize relationship ≤ buffer.length := by
  unfold readRelationship readSize readMasks
  by_cases hprocessor : relationship ∈ processorRelations
  · rw [if_pos hprocessor, if_pos (.inl hprocessor)]
    simp only [safe_bind, safe_field, safe_toVector, safe_pure, and_true]
    omega
  · by_cases hnuma : relationship ∈ numaRelations
    · rw [if_neg hprocessor, if_pos hnuma, if_pos (.inr hnuma)]
      simp only [safe_bind, safe_field, safe_toVector, safe_pure, and_true]
      omega
    · rw [if_neg hprocessor, if_neg hnuma, if_neg (not_or.mpr ⟨hprocessor, hnuma⟩)]
      by_cases hcache : relationship = relationCache
      · rw [if_pos hcache, if_pos hcache]
        simp only [safe_bind, safe_field, safe_toVector, safe_pure, and_true]
        omega
      · rw [if_neg hcache, if_neg hcache]
        by_cases hgroup : relationship = relationGroup
        · rw [if_pos hgroup, if_pos hgroup]
          simp only [safe_bind, safe_field, safe_toVector, safe_pure, and_true]
          omega
        · rw [if_neg hgroup, if_neg hgroup]
          exact iff_of_true (safe_pure _) h

/-- The loop reads the record at a place: its header and the size this says are in the buffer. -/
def Accepted (buffer : Bytes) (p : ℕ) : Prop :=
  p + 8 ≤ buffer.length ∧ u32At buffer (p + 4) ≠ 0
    ∧ p + (u32At buffer (p + 4)).toNat ≤ buffer.length

instance : Decidable (Accepted buffer p) := inferInstanceAs (Decidable (_ ∧ _))

theorem value_relationshipTurn_of_accepted (h : Accepted buffer p) :
    (relationshipTurn buffer p).value = .on (readRelationship buffer p (u32At buffer p)).value
      (p + (u32At buffer (p + 4)).toNat) := by
  obtain ⟨hheader, hsize, hinside⟩ := h
  rw [relationshipTurn, if_pos (isInside_iff.mpr hheader), value_bind, value_field, u32_take,
    ← u32At, if_neg, value_bind, value_field, u32_take, ← u32At]
  · rfl
  · rw [isInside_iff.mpr hinside]
    exact not_or.mpr ⟨hsize, Bool.false_ne_true⟩

theorem value_relationshipTurn_of_not_accepted (h : ¬Accepted buffer p) :
    (relationshipTurn buffer p).value = .stop := by
  unfold relationshipTurn
  split
  · next hheader =>
    rw [isInside_iff] at hheader
    rw [value_bind, value_field, u32_take, ← u32At, if_pos]
    · rfl
    · by_contra hsize
      rw [not_or, Bool.not_eq_true', Bool.not_eq_false, isInside_iff] at hsize
      exact h ⟨hheader, hsize⟩
  · rfl

theorem safe_relationshipTurn_iff :
    (relationshipTurn buffer p).Safe ↔
      (Accepted buffer p → p + readSize (u32At buffer p) ≤ buffer.length) := by
  by_cases h : Accepted buffer p
  · obtain ⟨hheader, hsize, hinside⟩ := h
    rw [relationshipTurn, if_pos (isInside_iff.mpr hheader), safe_bind, value_field, u32_take,
      ← u32At, if_neg, safe_bind, value_field, u32_take, ← u32At, safe_bind, safe_field, safe_field,
      safe_readRelationship_iff hheader, and_iff_left (safe_pure _)]
    · constructor
      · exact fun hsafe _ => hsafe.2.2
      · exact fun hsafe => ⟨by omega, by omega, hsafe ⟨hheader, hsize, hinside⟩⟩
    · rw [isInside_iff.mpr hinside]
      exact not_or.mpr ⟨hsize, Bool.false_ne_true⟩
  · refine iff_of_true ?_ fun h' => absurd h' h
    unfold relationshipTurn
    split
    · next hheader =>
      rw [isInside_iff] at hheader
      refine (safe_bind _ _).mpr ⟨safe_field.mpr (by omega), ?_⟩
      rw [value_field, u32_take, ← u32At, if_pos]
      · exact safe_pure _
      · by_contra hsize
        rw [not_or, Bool.not_eq_true', Bool.not_eq_false, isInside_iff] at hsize
        exact h ⟨hheader, hsize⟩
    · exact safe_pure _

/-- The places of the records that the loop comes to. -/
def relationshipPlaces (buffer : Bytes) : List ℕ :=
  places (relationshipTurn buffer) (buffer.length + 2) 0

/-- The loop goes on from a record to a later place only. -/
theorem onward_relationshipTurn : Onward buffer.length (relationshipTurn buffer) := by
  intro p a next hturn
  by_cases h : Accepted buffer p
  · rw [value_relationshipTurn_of_accepted h] at hturn
    obtain ⟨hheader, hsize, -⟩ := h
    have hpos : (u32At buffer (p + 4)).toNat ≠ 0 := fun hzero => hsize (UInt32.toNat_inj.mp hzero)
    cases hturn
    omega
  · rw [value_relationshipTurn_of_not_accepted h] at hturn
    cases hturn

/-- **Any buffer is walked to its end**, and the reads stay in it exactly when each record it comes to
has the fields of its kind there. The arrays never matter. -/
theorem parseRelationships_any :
    Leads (relationshipTurn buffer) 0 (parseRelationships buffer).value
      ∧ ((parseRelationships buffer).Safe ↔ ∀ p ∈ relationshipPlaces buffer, Accepted buffer p →
        p + readSize (u32At buffer p) ≤ buffer.length) :=
  ⟨walk_enough onward_relationshipTurn (by omega),
    safe_walk_iff.trans (forall₂_congr fun _ _ => safe_relationshipTurn_iff)⟩

end Safe

/-! ## what was laid out -/

/-- What a record says. -/
inductive Described where
  | processor (relationship : UInt32) (flags efficiencyClass : UInt8) (masks : List GroupAffinity)
  | numaNode (relationship nodeNumber : UInt32) (masks : List GroupAffinity)
  | cache (level associativity : UInt8) (lineSize : UInt16) (size type : UInt32)
    (masks : List GroupAffinity)
  | group (maximum : UInt16) (groups : List ProcessorGroupInfo)
  | other (relationship : UInt32)
deriving DecidableEq, Repr

/-- A mask's fields; what is behind them is reserved. -/
def GroupAffinity.At (buffer : Bytes) (p : ℕ) (affinity : GroupAffinity) : Prop :=
  HoldsAt buffer p (leBytes 8 affinity.mask.toNat ++ leBytes 2 affinity.group.toNat)

instance (buffer : Bytes) (p : ℕ) : DecidablePred (GroupAffinity.At buffer p) :=
  fun _ => inferInstanceAs (Decidable (HoldsAt _ _ _))

/-- A group's fields. -/
def ProcessorGroupInfo.At (buffer : Bytes) (p : ℕ) (info : ProcessorGroupInfo) : Prop :=
  HoldsAt buffer (p + 1) [info.activeProcessorCount]
    ∧ HoldsAt buffer (p + 40) (leBytes 8 info.activeProcessorMask.toNat)

instance (buffer : Bytes) (p : ℕ) : DecidablePred (ProcessorGroupInfo.At buffer p) :=
  fun _ => inferInstanceAs (Decidable (_ ∧ _))

/-- The masks of a record, and how many it says. -/
structure MasksAt (buffer : Bytes) (place first said : ℕ) (masks : List GroupAffinity) : Prop where
  said_lt : said < 2 ^ 16
  count : HoldsAt buffer place (leBytes 2 said)
  table : TableAt buffer first GroupAffinity.size (GroupAffinity.At buffer) masks

namespace Described

def relationship : Described → UInt32
  | processor relationship .. | numaNode relationship .. | other relationship => relationship
  | cache .. => relationCache
  | group .. => relationGroup

/-- What is to be read of a record. -/
def toRelationship : Described → Relationship
  | processor relationship flags efficiencyClass groupMasks =>
    { relationship, flags, efficiencyClass, groupMasks }
  | numaNode relationship nodeNumber groupMasks => { relationship, nodeNumber, groupMasks }
  | cache cacheLevel associativity lineSize cacheSize cacheType groupMasks =>
    { relationship := relationCache, cacheLevel, associativity, lineSize, cacheSize, cacheType,
      groupMasks }
  | group maximumGroupCount groups => { relationship := relationGroup, maximumGroupCount, groups }
  | other relationship => { relationship }

/-- The layout of the part of a record that its kind has. NUMA nodes and caches have a mask at
least; a single one need not be counted. -/
def FieldsAt (buffer : Bytes) (p : ℕ) : Described → Prop
  | processor relationship flags efficiencyClass masks => relationship ∈ processorRelations
      ∧ HoldsAt buffer (p + 8) [flags, efficiencyClass]
      ∧ MasksAt buffer (p + 30) (p + 32) masks.length masks
  | numaNode relationship nodeNumber masks => relationship ∈ numaRelations
      ∧ HoldsAt buffer (p + 8) (leBytes 4 nodeNumber.toNat)
      ∧ ∃ said ≤ masks.length, max 1 said = masks.length
        ∧ MasksAt buffer (p + 30) (p + 32) said masks
  | cache level associativity lineSize size type masks =>
      HoldsAt buffer (p + 8) ([level, associativity] ++ leBytes 2 lineSize.toNat
        ++ leBytes 4 size.toNat ++ leBytes 4 type.toNat)
      ∧ ∃ said ≤ masks.length, max 1 said = masks.length
        ∧ MasksAt buffer (p + 38) (p + 40) said masks
  | group maximum groups => groups.length < 2 ^ 16
      ∧ HoldsAt buffer (p + 8) (leBytes 2 maximum.toNat ++ leBytes 2 groups.length)
      ∧ TableAt buffer (p + 32) ProcessorGroupInfo.size (ProcessorGroupInfo.At buffer) groups
  | other relationship => relationship ∉ processorRelations ∧ relationship ∉ numaRelations
      ∧ relationship ≠ relationCache ∧ relationship ≠ relationGroup

/-- The layout of a record, whose size says where the next one is. -/
structure At (buffer : Bytes) (p : ℕ) (d : Described) (size : ℕ) : Prop where
  size_pos : 0 < size
  size_lt : size < 2 ^ 32
  header_le : p + 8 ≤ buffer.length
  inside : p + size ≤ buffer.length
  relationship : HoldsAt buffer p (leBytes 4 d.relationship.toNat ++ leBytes 4 size)
  fields : d.FieldsAt buffer p

end Described

/-! ## it is read -/

section Value

variable {buffer : Bytes} {p : ℕ}

theorem GroupAffinity.read_of_at (place : ℕ) (affinity : GroupAffinity)
    (h : affinity.At buffer place) : read ((buffer.drop place).take size) = affinity := by
  have hmask := holdsAt_record place size 0 h.left (by simp [size])
  have hgroup := holdsAt_record place size 8 h.right (by simp [size])
  rw [read, UInt64.toNat_inj.mp (hmask.u64At affinity.mask.toNat_lt),
    UInt16.toNat_inj.mp (hgroup.u16At affinity.group.toNat_lt)]

theorem ProcessorGroupInfo.read_of_at (place : ℕ) (info : ProcessorGroupInfo)
    (h : info.At buffer place) : read ((buffer.drop place).take size) = info := by
  have hcount := holdsAt_record place size _ h.1 (by simp [size])
  have hmask := holdsAt_record place size _ h.2 (by simp [size])
  rw [read, hcount.u8At, UInt64.toNat_inj.mp (hmask.u64At info.activeProcessorMask.toNat_lt)]

theorem value_field_u8 : (field buffer p 1 (u8At · 0)).value = u8At buffer p := by
  rw [value_field]
  cases h : buffer.drop p with
  | nil => simp [u8At, List.drop_eq_nil_iff.mp h]
  | cons b bs =>
    have hget : buffer[p]? = some b := by rw [← List.head?_drop, h]; rfl
    simp [u8At, List.getD_eq_getElem?_getD, hget]

theorem value_field_u16 : (field buffer p 2 u16).value = u16At buffer p := u16_take _

theorem value_field_u32 : (field buffer p 4 u32).value = u32At buffer p := u32_take _

/-- The masks that a record says it has, one at least where `atLeast` is one. -/
theorem MasksAt.value {place first said : ℕ} {masks : List GroupAffinity}
    (h : MasksAt buffer place first said masks) (atLeast : ℕ) (hsaid : max atLeast said = masks.length) :
    (readMasks buffer first (max atLeast (u16At buffer place).toNat)).value = masks := by
  rw [h.count.u16At h.said_lt, hsaid]
  exact value_toVector (by decide) GroupAffinity.read_of_at h.table

theorem Described.FieldsAt.value {d : Described} (h : d.FieldsAt buffer p) :
    (readRelationship buffer p d.relationship).value = d.toRelationship := by
  cases d with
  | processor relationship flags efficiencyClass masks =>
    obtain ⟨hkind, hfields, hmasks⟩ := h
    have hbytes : HoldsAt buffer (p + 8) ([flags] ++ [efficiencyClass]) := hfields
    have hflags := hbytes.left.u8At
    have hclass : u8At buffer (p + 9) = efficiencyClass := hbytes.right.u8At
    have hread := hmasks.value 0 (Nat.zero_max _)
    rw [Nat.zero_max] at hread
    rw [Described.relationship, readRelationship, if_pos hkind]
    simp only [value_bind, value_pure, value_field_u8, value_field_u16]
    rw [hflags, hclass, hread]
    rfl
  | numaNode relationship nodeNumber masks =>
    obtain ⟨hkind, hnode, said, -, hsaid, hmasks⟩ := h
    have hprocessor : relationship ∉ processorRelations := by
      revert hkind
      unfold numaRelations processorRelations
      simp only [List.mem_cons, List.not_mem_nil, or_false]
      rintro (rfl | rfl) <;> decide
    rw [Described.relationship, readRelationship, if_neg hprocessor, if_pos hkind]
    simp only [value_bind, value_pure, value_field_u16, value_field_u32]
    rw [UInt32.toNat_inj.mp (hnode.u32At nodeNumber.toNat_lt), hmasks.value _ hsaid]
    rfl
  | cache level associativity lineSize size type masks =>
    obtain ⟨hfields, said, -, hsaid, hmasks⟩ := h
    have hbytes : HoldsAt buffer (p + 8) ([level] ++ [associativity]) := hfields.left.left.left
    have hlevel := hbytes.left.u8At
    have hassoc : u8At buffer (p + 9) = associativity := hbytes.right.u8At
    have hline : (u16At buffer (p + 10)).toNat = lineSize.toNat :=
      hfields.left.left.right.u16At lineSize.toNat_lt
    have hsize : (u32At buffer (p + 12)).toNat = size.toNat :=
      hfields.left.right.u32At size.toNat_lt
    have htype : (u32At buffer (p + 16)).toNat = type.toNat := hfields.right.u32At type.toNat_lt
    rw [Described.relationship, readRelationship, if_neg (by decide), if_neg (by decide),
      if_pos rfl]
    simp only [value_bind, value_pure, value_field_u8, value_field_u16, value_field_u32]
    rw [hlevel, hassoc, UInt16.toNat_inj.mp hline, UInt32.toNat_inj.mp hsize,
      UInt32.toNat_inj.mp htype, hmasks.value _ hsaid]
    rfl
  | group maximum groups =>
    obtain ⟨hcount, hfields, htable⟩ := h
    have hmaximum := hfields.left.u16At maximum.toNat_lt
    have hlength : (u16At buffer (p + 10)).toNat = groups.length := hfields.right.u16At hcount
    rw [Described.relationship, readRelationship, if_neg (by decide), if_neg (by decide),
      if_neg (by decide), if_pos rfl]
    simp only [value_bind, value_pure, value_field_u16]
    rw [UInt16.toNat_inj.mp hmaximum]
    rw [hlength, value_toVector (by decide) ProcessorGroupInfo.read_of_at htable]
    rfl
  | other relationship =>
    obtain ⟨hprocessor, hnuma, hcache, hgroup⟩ := h
    rw [Described.relationship, readRelationship, if_neg hprocessor, if_neg hnuma, if_neg hcache,
      if_neg hgroup]
    rfl

/-- Records one after another, to a place where there is none. -/
abbrev RecordsAt (buffer : Bytes) : ℕ → List Described → Prop :=
  Chain (fun p d next => ∃ size, d.At buffer p size ∧ next = some (p + size))
    fun p => ¬Accepted buffer p

theorem Described.At.accepted {d : Described} {size : ℕ} (h : d.At buffer p size) :
    Accepted buffer p ∧ u32At buffer p = d.relationship
      ∧ (u32At buffer (p + 4)).toNat = size := by
  have hrelationship := h.relationship.left.u32At d.relationship.toNat_lt
  have hsize := h.relationship.right.u32At h.size_lt
  rw [length_leBytes] at hsize
  have hpos := h.size_pos
  have hinside := h.inside
  refine ⟨⟨h.header_le, fun hzero => ?_, by omega⟩, UInt32.toNat_inj.mp hrelationship, hsize⟩
  rw [hzero] at hsize
  exact Nat.ne_of_lt hpos hsize

/-- A turn at a record that is there. -/
theorem Described.At.turn {d : Described} {size : ℕ} (h : d.At buffer p size) :
    (relationshipTurn buffer p).value = .add d.toRelationship (some (p + size)) := by
  obtain ⟨haccepted, hrelationship, hsize⟩ := h.accepted
  rw [value_relationshipTurn_of_accepted haccepted, hrelationship, hsize, h.fields.value]
  rfl

theorem RecordsAt.leads {ds : List Described} (h : RecordsAt buffer p ds) :
    Leads (relationshipTurn buffer) p (ds.map Described.toRelationship) := by
  refine Chain.leads h ?_ fun p hend => value_relationshipTurn_of_not_accepted hend
  rintro p d next ⟨size, hat, rfl⟩
  exact hat.turn

/-- **What was laid out is read**: the records the kernel gives, of whatever kinds and sizes. -/
theorem value_parseRelationships {ds : List Described} (h : RecordsAt buffer 0 ds) :
    (parseRelationships buffer).value = ds.map Described.toRelationship :=
  h.leads.value_walk_of_onward onward_relationshipTurn (by omega)

/-- The fields of a kind that are there are inside. -/
theorem Described.FieldsAt.readSize_le {d : Described} (h : d.FieldsAt buffer p)
    (hheader : p + 8 ≤ buffer.length) : p + readSize d.relationship ≤ buffer.length := by
  have hle : ∀ {place n}, HoldsAt buffer place (leBytes 2 n) → place + 2 ≤ buffer.length :=
    fun hcount => hcount.add_length_le (by simp [leBytes])
  cases d with
  | processor relationship flags efficiencyClass masks =>
    rw [Described.relationship, readSize, if_pos (.inl h.1)]
    exact hle h.2.2.count
  | numaNode relationship nodeNumber masks =>
    obtain ⟨hkind, -, said, -, -, hmasks⟩ := h
    rw [Described.relationship, readSize, if_pos (.inr hkind)]
    exact hle hmasks.count
  | cache level associativity lineSize size type masks =>
    obtain ⟨-, said, -, -, hmasks⟩ := h
    exact hle hmasks.count
  | group maximum groups => exact hle h.2.1.right
  | other relationship =>
    obtain ⟨hprocessor, hnuma, hcache, hgroup⟩ := h
    rw [Described.relationship, readSize, if_neg (not_or.mpr ⟨hprocessor, hnuma⟩), if_neg hcache, if_neg hgroup]
    exact hheader

/-- Records that are there are read inside the buffer. -/
theorem RecordsAt.safe {ds : List Described} (h : RecordsAt buffer 0 ds) :
    (parseRelationships buffer).Safe := by
  refine Chain.safe_walk h ?_ (fun p hend => ?_) _
  · rintro p d next ⟨size, hat, rfl⟩
    refine ⟨safe_relationshipTurn_iff.mpr fun _ => ?_, _, hat.turn⟩
    rw [hat.accepted.2.1]
    exact hat.fields.readSize_le hat.header_le
  · exact ⟨safe_relationshipTurn_iff.mpr fun h => absurd h hend,
      value_relationshipTurn_of_not_accepted hend⟩

end Value

/-! ## the processors -/

section Cores

/-- `GetLogicalProcessorAndGroupInformation`, whose query has the relationship as its input. -/
def getLogicalProcessorAndGroupInformation (kernel : UInt32 → Kernel) (relationship : UInt32) :
    List Relationship :=
  match queryData (kernel relationship) (2 ^ 14) defaultElementSize with
  | none => []
  | some buffer => (parseRelationships buffer).value

theorem length_getLogicalProcessorAndGroupInformation (kernel : UInt32 → Kernel)
    (relationship : UInt32) :
    (getLogicalProcessorAndGroupInformation kernel relationship).length < 2 ^ 32 := by
  unfold getLogicalProcessorAndGroupInformation
  split
  · decide
  · next buffer hbuffer =>
    have hlength := length_queryData_le hbuffer
    have hwalk : (walk (relationshipTurn buffer) (buffer.length + 2) 0).value.length
        ≤ buffer.length + 2 := length_walk _ 0
    have hone : (defaultElementSize : ℕ) = 1 := rfl
    unfold maxBufferSize at hlength
    rw [parseRelationships]
    omega

/-- The relationships of a kind. -/
def relationshipsOf (kernel : UInt32 → Kernel) (relationship : UInt32) : Relationships where
  toList := (getLogicalProcessorAndGroupInformation kernel relationship).map
    Relationship.toLogicalProcessorRelationship
  length_lt := by
    rw [List.length_map]
    exact length_getLogicalProcessorAndGroupInformation kernel relationship

theorem Relationships.eq_mk (rs : Relationships) {l : List LogicalProcessorRelationship}
    (h : rs.toList = l) : rs = ⟨l, h ▸ rs.length_lt⟩ := by
  cases h
  rfl

/-- `GetLogicalProcessorCores`, with the queries it makes. -/
def logicalProcessorCores (kernel : UInt32 → Kernel) (count : UInt32) :
    List LogicalProcessorCore :=
  getLogicalProcessorCores
    (getProcessorGroups (relationshipsOf kernel relationGroup).toList count)
    (relationshipsOf kernel relationProcessorCore)

variable {kernel : UInt32 → Kernel}

/-- The kernel has records of these descriptions, the same ones at each call. -/
structure Describes (kernel : Kernel) (ds : List Described) (content : ℕ → Bytes) : Prop where
  gives : kernel.Gives content
  askable : ∀ call, Askable (content call).length
  records : ∀ call, RecordsAt (content call) 0 ds

/-- What a record says of the processors. -/
def Described.toLogical (d : Described) : LogicalProcessorRelationship :=
  d.toRelationship.toLogicalProcessorRelationship

theorem toList_relationshipsOf {relationship : UInt32} {ds : List Described} {content : ℕ → Bytes}
    (h : Describes (kernel relationship) ds content) :
    (relationshipsOf kernel relationship).toList = ds.map Described.toLogical := by
  obtain ⟨call, hquery⟩ := queryData_eq h.gives h.askable (by decide : 0 < 2 ^ 14)
    (by decide : (defaultElementSize : ℕ) ≤ maxBufferSize)
  have hparsed : getLogicalProcessorAndGroupInformation kernel relationship
      = ds.map Described.toRelationship := by
    unfold getLogicalProcessorAndGroupInformation
    rw [hquery]
    exact value_parseRelationships (h.records call)
  show (getLogicalProcessorAndGroupInformation kernel relationship).map _ = _
  rw [hparsed, List.map_map]
  rfl

/-- **From the kernel's bytes to the cores**: the table is made of what the records say, and no read
is outside the buffer. -/
theorem logicalProcessorCores_described {groups cores : List Described} {g c : ℕ → Bytes}
    (hgroups : Describes (kernel relationGroup) groups g)
    (hcores : Describes (kernel relationProcessorCore) cores c) (count : UInt32) :
    (∃ h, logicalProcessorCores kernel count = getLogicalProcessorCores
        (getProcessorGroups (groups.map Described.toLogical) count)
        ⟨cores.map Described.toLogical, h⟩)
      ∧ ∀ call, (parseRelationships (g call)).Safe ∧ (parseRelationships (c call)).Safe := by
  refine ⟨⟨?_, ?_⟩, fun call => ⟨(hgroups.records call).safe, (hcores.records call).safe⟩⟩
  · rw [← toList_relationshipsOf hcores]
    exact (relationshipsOf kernel relationProcessorCore).length_lt
  · unfold logicalProcessorCores
    rw [toList_relationshipsOf hgroups]
    congr 1
    exact (relationshipsOf kernel relationProcessorCore).eq_mk (toList_relationshipsOf hcores)

/-- **A processor's slot has the core the kernel says the processor is of**, when the groups' masks
have as many processors as the groups count. -/
theorem logicalProcessorCores_slot {groups cores : List Described} {g c : ℕ → Bytes}
    (hgroups : Describes (kernel relationGroup) groups g)
    (hcores : Describes (kernel relationProcessorCore) cores c) {count : UInt32}
    (hcounted : ∀ d ∈ groups, ∀ info ∈ d.toLogical.groups,
      popcount info.activeProcessorMask = info.activeProcessorCount.toNat)
    (hcount : count ≤ 64)
    (hparts : Partition (getProcessorGroups (groups.map Described.toLogical) count)
      (cores.map Described.toLogical)) {i : ℕ} {d : Described} (hi : cores[i]? = some d)
    {p : Processor}
    (hp : p ∈ processors (getProcessorGroups (groups.map Described.toLogical) count))
    (hd : d.toLogical.Contains p) :
    ∃ core : LogicalProcessorCore, (logicalProcessorCores kernel count)[slot
        (getProcessorGroups (groups.map Described.toLogical) count) p]? = some core ∧
      core.core.toNat = i ∧ core.efficiencyClass = d.toLogical.efficiencyClass := by
  have hall : Counted (getProcessorGroups (groups.map Described.toLogical) count) := by
    refine counted_getProcessorGroups (fun r hr info hinfo => ?_) hcount
    obtain ⟨d, hd, rfl⟩ := List.mem_map.mp hr
    exact hcounted d hd info hinfo
  have hat : (relationshipsOf kernel relationProcessorCore).toList[i]? = some d.toLogical := by
    rw [toList_relationshipsOf hcores, List.getElem?_map, hi]
    rfl
  rw [← toList_relationshipsOf hcores] at hparts
  unfold logicalProcessorCores
  rw [toList_relationshipsOf hgroups]
  exact getElem?_getLogicalProcessorCores hall hparts hat hp hd

/-! A machine with two groups; its second core has two parts. -/

def someGroups : List Described := [.group 2 [⟨0b1011, 3⟩, ⟨0b10, 1⟩]]

def someCores : List Described :=
  [.processor relationProcessorCore 1 0 [⟨0b11, 0⟩],
   .processor relationProcessorCore 0 1 [⟨0b1000, 0⟩, ⟨0b10, 1⟩]]

def maskBytes (mask : GroupAffinity) : Bytes :=
  leBytes 8 mask.mask.toNat ++ leBytes 2 mask.group.toNat ++ List.replicate 6 0

def infoBytes (info : ProcessorGroupInfo) : Bytes :=
  [info.activeProcessorCount, info.activeProcessorCount] ++ List.replicate 38 0
    ++ leBytes 8 info.activeProcessorMask.toNat

/-- The kernel's records of them. -/
def someGroupBytes : Bytes :=
  leBytes 4 4 ++ leBytes 4 128 ++ leBytes 2 2 ++ leBytes 2 2 ++ List.replicate 20 0
    ++ [⟨0b1011, 3⟩, ⟨0b10, 1⟩].flatMap infoBytes

def someCoreBytes : Bytes :=
  leBytes 4 0 ++ leBytes 4 48 ++ [1, 0] ++ List.replicate 20 0 ++ leBytes 2 1
    ++ maskBytes ⟨0b11, 0⟩
  ++ (leBytes 4 0 ++ leBytes 4 64 ++ [0, 1] ++ List.replicate 20 0 ++ leBytes 2 2
    ++ [⟨0b1000, 0⟩, ⟨0b10, 1⟩].flatMap maskBytes)

def someKernel (relationship : UInt32) : Kernel :=
  .ofContent fun _ => if relationship = relationGroup then someGroupBytes else someCoreBytes

theorem describes_someGroups :
    Describes (someKernel relationGroup) someGroups fun _ => someGroupBytes where
  gives := Kernel.gives_ofContent _
  askable _ := by decide +kernel
  records _ := by
    refine @Chain.on _ _ _ _ 128 _ _ ⟨128, ⟨by decide +kernel, by decide +kernel, by decide +kernel, by decide +kernel, by decide +kernel, ?_⟩, rfl⟩
      (.stop (by decide +kernel))
    exact ⟨by decide +kernel, by decide +kernel, by decide +kernel⟩

theorem describes_someCores :
    Describes (someKernel relationProcessorCore) someCores fun _ => someCoreBytes where
  gives := Kernel.gives_ofContent _
  askable _ := by decide +kernel
  records _ := by
    refine @Chain.on _ _ _ _ 48 _ _ ⟨48, ⟨by decide +kernel, by decide +kernel, by decide +kernel, by decide +kernel, by decide +kernel, ?_⟩, rfl⟩
      (@Chain.on _ _ _ _ 112 _ _ ⟨64, ⟨by decide +kernel, by decide +kernel, by decide +kernel, by decide +kernel, by decide +kernel, ?_⟩, rfl⟩
        (.stop (by decide +kernel)))
    · exact ⟨by decide +kernel, by decide +kernel, by decide +kernel, by decide +kernel, by decide +kernel⟩
    · exact ⟨by decide +kernel, by decide +kernel, by decide +kernel, by decide +kernel, by decide +kernel⟩

theorem logicalProcessorCores_someKernel :
    ∃ h, logicalProcessorCores someKernel 4 = getLogicalProcessorCores
      (getProcessorGroups (someGroups.map Described.toLogical) 4)
      ⟨someCores.map Described.toLogical, h⟩ :=
  (logicalProcessorCores_described describes_someGroups describes_someCores 4).1

end Cores

end WinSys.SystemInfo
