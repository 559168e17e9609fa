import WinSys.Infra.Bits

/-!
# The cores of the logical processors

A group's processors are numbered by their places among its active ones, after the earlier groups'.
`GetLogicalProcessorCores` goes over the core relationships and writes each core's index to the
slots of its processors.

* `Processor`, `slot`: the active processors and their numbers
* `map_slot_processors`: the numbers are those from zero on
* `getLogicalProcessorCores_eq`: every slot is written once, with the core that has it
-/

namespace WinSys.SystemInfo

open Infra

/-! ## the source -/

structure ProcessorGroupInfo where
  activeProcessorMask : UInt64
  activeProcessorCount : UInt8
deriving DecidableEq, Repr

structure GroupAffinity where
  mask : UInt64
  group : UInt16
deriving DecidableEq, Repr

structure LogicalProcessorRelationship where
  efficiencyClass : UInt8 := 0
  groupMasks : List GroupAffinity := []
  groups : List ProcessorGroupInfo := []
deriving DecidableEq, Repr

structure ProcessorGroup where
  group : UInt16
  activeMask : UInt64
  activeCount : UInt8
deriving DecidableEq, Repr

structure LogicalProcessorCore where
  core : UInt32 := 0
  efficiencyClass : UInt8 := 0
deriving DecidableEq, Repr

/-- The groups of the `RelationGroup` relationships; `count` is what `GetActiveProcessorCount(0)`
says. -/
def getProcessorGroups (relationships : List LogicalProcessorRelationship) (count : UInt32) :
    List ProcessorGroup :=
  let groups := relationships.flatMap fun r =>
    r.groups.zipIdx.map fun (info, g) =>
      ⟨g.toUInt16, info.activeProcessorMask, info.activeProcessorCount⟩
  if groups = [] then
    -- the query failed: one group, as the documented API sees it
    [⟨0, if count ≥ 64 then ~~~0 else bitAt count.toNat - 1, count.toUInt8⟩]
  else groups

/-- The number of each group's first processor. -/
def firsts : ℕ → List ProcessorGroup → List ℕ
  | _, [] => []
  | total, group :: groups => total :: firsts (total + group.activeCount.toNat) groups

/-- How many processors the groups have. -/
def total (groups : List ProcessorGroup) : ℕ := (groups.map fun g => g.activeCount.toNat).sum

/-- What one part of a core writes. -/
def partWrites (groups : List ProcessorGroup) (value : LogicalProcessorCore)
    (mask : GroupAffinity) : List (ℕ × LogicalProcessorCore) :=
  match groups[mask.group.toNat]?, (firsts 0 groups)[mask.group.toNat]? with
  | some group, some first =>
    (List.range 64).filterMap fun bit =>
      let b := bitAt bit
      if mask.mask &&& b = 0 ∨ group.activeMask &&& b = 0 then none
      else
        let n := first + popcount (group.activeMask &&& (b - 1))
        if n < total groups then some (n, value) else none
  | _, _ => []

/-- What the loop over the cores writes, from the core numbered `core` on. -/
def coreWrites (groups : List ProcessorGroup) :
    UInt32 → List LogicalProcessorRelationship → List (ℕ × LogicalProcessorCore)
  | _, [] => []
  | core, r :: rs =>
    r.groupMasks.flatMap (partWrites groups ⟨core, r.efficiencyClass⟩)
      ++ coreWrites groups (core + 1) rs

/-- The relationships a query gives. Its buffer's size has 32 bits, and each relationship takes a
byte of it at least. -/
structure Relationships where
  toList : List LogicalProcessorRelationship
  length_lt : toList.length < 2 ^ 32

def getLogicalProcessorCores (groups : List ProcessorGroup) (cores : Relationships) :
    List LogicalProcessorCore :=
  let slots := List.replicate (total groups) {}
  -- `core` after the loop
  if cores.toList.length.toUInt32 = 0 then []
  else assignments slots (coreWrites groups 0 cores.toList)

/-! ## the processors and their numbers -/

/-- A group and a bit of its mask. -/
abbrev Processor := ℕ × ℕ

/-- The active processors of the groups from the one numbered `g` on. -/
def processorsFrom : ℕ → List ProcessorGroup → List Processor
  | _, [] => []
  | g, group :: groups =>
    (bits group.activeMask).map (fun bit => (g, bit)) ++ processorsFrom (g + 1) groups

/-- The active processors, in order. -/
abbrev processors (groups : List ProcessorGroup) : List Processor := processorsFrom 0 groups

/-- A processor's number: those of the earlier groups, and those before it in its own. -/
def slot (groups : List ProcessorGroup) (p : Processor) : ℕ :=
  total (groups.take p.1) + (groups[p.1]?.map fun group => below group.activeMask p.2).getD 0

/-- The groups count their active processors. -/
def Counted (groups : List ProcessorGroup) : Prop :=
  ∀ group ∈ groups, popcount group.activeMask = group.activeCount.toNat

@[simp]
theorem total_cons (group : ProcessorGroup) (groups : List ProcessorGroup) :
    total (group :: groups) = group.activeCount.toNat + total groups := rfl

theorem getElem?_firsts (groups : List ProcessorGroup) (before g : ℕ) :
    (firsts before groups)[g]? = groups[g]?.map fun _ => before + total (groups.take g) := by
  induction groups generalizing before g with
  | nil => rfl
  | cons group groups ih =>
    cases g with
    | zero => rfl
    | succ g =>
      rw [firsts, List.getElem?_cons_succ, List.getElem?_cons_succ, ih, List.take_succ_cons,
        total_cons]
      simp only [Nat.add_assoc]

theorem mem_processorsFrom {groups : List ProcessorGroup} {g : ℕ} {p : Processor} :
    p ∈ processorsFrom g groups ↔
      ∃ i group, groups[i]? = some group ∧ p.1 = g + i ∧ p.2 ∈ bits group.activeMask := by
  induction groups generalizing g with
  | nil => simp [processorsFrom]
  | cons group groups ih =>
    rw [processorsFrom, List.mem_append, ih]
    constructor
    · rintro (h | ⟨i, group', hi, hg, hbit⟩)
      · obtain ⟨bit, hbit, rfl⟩ := List.mem_map.mp h
        exact ⟨0, group, rfl, rfl, hbit⟩
      · exact ⟨i + 1, group', hi, by rw [hg]; omega, hbit⟩
    · rintro ⟨i, group', hi, hg, hbit⟩
      cases i with
      | zero =>
        cases hi
        exact .inl (List.mem_map.mpr ⟨p.2, hbit, Prod.ext hg.symm rfl⟩)
      | succ i => exact .inr ⟨i, group', hi, by rw [hg]; omega, hbit⟩

theorem mem_processors {groups : List ProcessorGroup} {p : Processor} :
    p ∈ processors groups ↔
      ∃ group, groups[p.1]? = some group ∧ p.2 ∈ bits group.activeMask := by
  rw [processors, mem_processorsFrom]
  constructor
  · rintro ⟨i, group, hi, hg, hbit⟩
    rw [Nat.zero_add] at hg
    exact ⟨group, hg ▸ hi, hbit⟩
  · rintro ⟨group, hg, hbit⟩
    exact ⟨p.1, group, hg, (Nat.zero_add _).symm, hbit⟩

/-- The numbers of the groups from one on follow those of the groups before. -/
theorem map_slot_processorsFrom {before groups : List ProcessorGroup}
    (h : Counted groups) :
    (processorsFrom before.length groups).map (slot (before ++ groups))
      = List.range' (total before) (total groups) := by
  induction groups generalizing before with
  | nil => rfl
  | cons group groups ih =>
    have hown : ((bits group.activeMask).map fun bit => (before.length, bit)).map
        (slot (before ++ group :: groups))
          = List.range' (total before) group.activeCount.toNat := by
      have hslot : ∀ bit, slot (before ++ group :: groups) (before.length, bit)
          = total before + below group.activeMask bit := by
        intro bit
        simp [slot]
      rw [List.map_map, List.range'_eq_map_range, ← h group List.mem_cons_self, ← map_below_bits,
        List.map_map]
      exact List.map_congr_left fun bit _ => hslot bit
    have hrest := @ih (before ++ [group]) fun g hg => h g (List.mem_cons_of_mem _ hg)
    have htotal : total (before ++ [group]) = total before + group.activeCount.toNat := by
      simp [total]
    rw [List.length_append, List.length_singleton, List.append_assoc, List.singleton_append,
      htotal] at hrest
    rw [processorsFrom, List.map_append, hown, hrest, total_cons]
    exact List.range'_append_1

/-- **The processors' numbers are those from zero on.** -/
theorem map_slot_processors {groups : List ProcessorGroup} (h : Counted groups) :
    (processors groups).map (slot groups) = List.range (total groups) := by
  have hall := @map_slot_processorsFrom [] groups h
  rw [List.range_eq_range']
  exact hall

theorem length_processors {groups : List ProcessorGroup} (h : Counted groups) :
    (processors groups).length = total groups := by
  rw [← List.length_map (f := slot groups), map_slot_processors h, List.length_range]

theorem slot_lt {groups : List ProcessorGroup} (h : Counted groups) {p : Processor}
    (hp : p ∈ processors groups) : slot groups p < total groups := by
  have hmem := List.mem_map_of_mem (f := slot groups) hp
  rw [map_slot_processors h] at hmem
  exact List.mem_range.mp hmem

/-- The groups `GetProcessorGroups` gives count their processors when those of the query do. -/
theorem counted_getProcessorGroups {relationships : List LogicalProcessorRelationship}
    {count : UInt32} (h : ∀ r ∈ relationships, ∀ info ∈ r.groups,
      popcount info.activeProcessorMask = info.activeProcessorCount.toNat)
    (hcount : count ≤ 64) : Counted (getProcessorGroups relationships count) := by
  intro group hgroup
  rw [getProcessorGroups] at hgroup
  split at hgroup
  · rw [List.mem_singleton] at hgroup
    subst hgroup
    have hle : count.toNat ≤ 64 := UInt32.le_iff_toNat_le.mp hcount
    have hbyte : count.toUInt8.toNat = count.toNat := by
      rw [UInt32.toNat_toUInt8]
      omega
    simp only [hbyte]
    split
    · next hge =>
      have hall : count.toNat = 64 := Nat.le_antisymm hle (UInt32.le_iff_toNat_le.mp hge)
      rw [hall]
      decide
    · next hge =>
      have hlt : count.toNat < 64 := Nat.lt_of_not_le fun hle => hge (UInt32.le_iff_toNat_le.mpr hle)
      exact popcount_bitAt_sub_one hlt
  · obtain ⟨r, hr, hgroup⟩ := List.mem_flatMap.mp hgroup
    obtain ⟨⟨info, g⟩, hinfo, rfl⟩ := List.mem_map.mp hgroup
    exact h r hr info (List.fst_mem_of_mem_zipIdx hinfo)

/-! ## what is written -/

/-- The active processors of a part of a core. -/
def partProcessors (groups : List ProcessorGroup) (mask : GroupAffinity) : List Processor :=
  (bits (mask.mask &&& (groups[mask.group.toNat]?.map ProcessorGroup.activeMask).getD 0)).map
    fun bit => (mask.group.toNat, bit)

theorem mem_partProcessors {groups : List ProcessorGroup} {mask : GroupAffinity} {p : Processor} :
    p ∈ partProcessors groups mask ↔
      p ∈ processors groups ∧ mask.group.toNat = p.1 ∧ testBit mask.mask p.2 = true := by
  rw [partProcessors, List.mem_map, mem_processors]
  constructor
  · rintro ⟨bit, hbit, rfl⟩
    rw [mem_bits, testBit_and, Bool.and_eq_true] at hbit
    obtain ⟨hmask, hactive⟩ := hbit
    cases hgroup : groups[mask.group.toNat]? with
    | none =>
      rw [hgroup, Option.map_none, Option.getD_none, testBit_zero] at hactive
      cases hactive
    | some group =>
      rw [hgroup] at hactive
      exact ⟨⟨group, rfl, mem_bits.mpr hactive⟩, rfl, hmask⟩
  · rintro ⟨⟨group, hgroup, hbit⟩, hg, hmask⟩
    refine ⟨p.2, ?_, Prod.ext hg rfl⟩
    rw [mem_bits, testBit_and, hg, hgroup, hmask, Bool.true_and]
    exact mem_bits.mp hbit

theorem partWrites_eq {groups : List ProcessorGroup} (h : Counted groups)
    (value : LogicalProcessorCore) (mask : GroupAffinity) :
    partWrites groups value mask
      = (partProcessors groups mask).map fun p => (slot groups p, value) := by
  rw [partWrites, partProcessors, getElem?_firsts]
  cases hgroup : groups[mask.group.toNat]? with
  | none =>
    have hnone : bits (mask.mask &&& 0) = [] :=
      List.filter_eq_nil_iff.mpr fun bit _ => by simp
    simp only [Option.map_none, Option.getD_none, hnone, List.map_nil]
  | some group =>
    simp only [Option.map_some, Option.getD_some, Nat.zero_add]
    rw [List.map_map, bits, ← List.filterMap_eq_map, List.filterMap_filter]
    refine List.filterMap_congr fun bit hbit => ?_
    have hlt : bit < 64 := List.mem_range.mp hbit
    simp only [and_bitAt_eq_zero_iff hlt, testBit_and]
    by_cases hmask : testBit mask.mask bit = true ∧ testBit group.activeMask bit = true
    · have hp : (mask.group.toNat, bit) ∈ processors groups :=
        mem_processors.mpr ⟨group, hgroup, mem_bits.mpr hmask.2⟩
      have hslot : slot groups (mask.group.toNat, bit) = total (groups.take mask.group.toNat)
          + popcount (group.activeMask &&& (bitAt bit - 1)) := by
        rw [slot, hgroup]
        rfl
      have hfits := slot_lt h hp
      rw [hslot] at hfits
      simp [hmask.1, hmask.2, hfits, hslot]
    · rw [not_and_or, Bool.not_eq_true, Bool.not_eq_true] at hmask
      rw [if_pos hmask, if_neg]
      rw [Bool.and_eq_true, not_and_or, Bool.not_eq_true, Bool.not_eq_true]
      exact hmask

/-- The relationship has the processor. -/
def LogicalProcessorRelationship.Contains (r : LogicalProcessorRelationship) (p : Processor) :
    Prop :=
  ∃ mask ∈ r.groupMasks, mask.group.toNat = p.1 ∧ testBit mask.mask p.2 = true

instance (r : LogicalProcessorRelationship) (p : Processor) : Decidable (r.Contains p) :=
  inferInstanceAs (Decidable (∃ mask ∈ r.groupMasks, _))

/-- The slots the cores write to. -/
theorem map_fst_coreWrites {groups : List ProcessorGroup} (h : Counted groups) (core : UInt32)
    (rs : List LogicalProcessorRelationship) :
    (coreWrites groups core rs).map Prod.fst
      = ((rs.flatMap (·.groupMasks)).flatMap (partProcessors groups)).map (slot groups) := by
  induction rs generalizing core with
  | nil => rfl
  | cons r rs ih =>
    rw [coreWrites, List.map_append, ih, List.flatMap_cons, List.flatMap_append, List.map_append]
    congr 1
    rw [List.map_flatMap, List.map_flatMap]
    refine List.flatMap_congr fun mask _ => ?_
    rw [partWrites_eq h, List.map_map]
    rfl

/-- A core is written to the slots of its processors. -/
theorem mem_coreWrites {groups : List ProcessorGroup} (h : Counted groups) {core : UInt32}
    {rs : List LogicalProcessorRelationship} {i : ℕ} {r : LogicalProcessorRelationship}
    (hi : rs[i]? = some r) {p : Processor} (hp : p ∈ processors groups) (hr : r.Contains p) :
    (slot groups p, ⟨core + i.toUInt32, r.efficiencyClass⟩) ∈ coreWrites groups core rs := by
  induction rs generalizing core i with
  | nil => cases hi
  | cons r' rs ih =>
    rw [coreWrites, List.mem_append]
    cases i with
    | zero =>
      cases hi
      obtain ⟨mask, hmask, hg, hbit⟩ := hr
      refine .inl (List.mem_flatMap.mpr ⟨mask, hmask, ?_⟩)
      rw [partWrites_eq h]
      refine List.mem_map.mpr ⟨p, mem_partProcessors.mpr ⟨hp, hg, hbit⟩, ?_⟩
      rw [show core + (0 : ℕ).toUInt32 = core from UInt32.add_zero core]
    | succ i =>
      have hnext : core + (i + 1).toUInt32 = core + 1 + i.toUInt32 := by
        change core + UInt32.ofNat (i + 1) = core + 1 + UInt32.ofNat i
        rw [UInt32.ofNat_add, UInt32.add_assoc, UInt32.add_comm (UInt32.ofNat i)]
        rfl
      rw [hnext]
      exact .inr (ih hi)

/-! ## every slot once -/

/-- The parts of the cores have no processor in common, and every active one is in some. -/
structure Partition (groups : List ProcessorGroup) (rs : List LogicalProcessorRelationship) :
    Prop where
  disjoint : (rs.flatMap (·.groupMasks)).Pairwise fun m m' =>
    m.group = m'.group → m.mask &&& m'.mask = 0
  cover : ∀ p ∈ processors groups, ∃ r ∈ rs, r.Contains p

/-- The processors of the parts are the active ones, each once. -/
theorem Partition.perm {groups : List ProcessorGroup} {rs : List LogicalProcessorRelationship}
    (hcounted : Counted groups) (h : Partition groups rs) :
    ((rs.flatMap (·.groupMasks)).flatMap (partProcessors groups)).Perm (processors groups) := by
  have hnodup : (processors groups).Nodup := by
    refine List.Nodup.of_map (slot groups) ?_
    rw [map_slot_processors hcounted]
    exact List.nodup_range
  have hparts : ((rs.flatMap (·.groupMasks)).flatMap (partProcessors groups)).Nodup := by
    refine List.nodup_flatMap.mpr ⟨fun mask _ => ?_, h.disjoint.imp fun {m m'} hmm => ?_⟩
    · exact (nodup_bits _).map fun a b hab => (Prod.mk.inj hab).2
    · refine List.disjoint_left.mpr fun p hp hp' => ?_
      obtain ⟨-, hg, hbit⟩ := mem_partProcessors.mp hp
      obtain ⟨-, hg', hbit'⟩ := mem_partProcessors.mp hp'
      have hgroup : m.group = m'.group := UInt16.toNat_inj.mp (hg.trans hg'.symm)
      exact and_eq_zero_iff.mp (hmm hgroup) p.2 ⟨hbit, hbit'⟩
  refine (List.perm_ext_iff_of_nodup hparts hnodup).mpr fun p => ?_
  constructor
  · intro hp
    obtain ⟨mask, -, hp⟩ := List.mem_flatMap.mp hp
    exact (mem_partProcessors.mp hp).1
  · intro hp
    obtain ⟨r, hr, mask, hmask, hg, hbit⟩ := h.cover p hp
    exact List.mem_flatMap.mpr ⟨mask, List.mem_flatMap.mpr ⟨r, hr, hmask⟩,
      mem_partProcessors.mpr ⟨hp, hg, hbit⟩⟩

/-- Every slot is written once. -/
theorem Partition.writes {groups : List ProcessorGroup} {rs : List LogicalProcessorRelationship}
    (hcounted : Counted groups) (h : Partition groups rs) :
    ((coreWrites groups 0 rs).map Prod.fst).Perm (List.range (processors groups).length) := by
  rw [map_fst_coreWrites hcounted, length_processors hcounted, ← map_slot_processors hcounted]
  exact (h.perm hcounted).map _

/-- The table of a machine with cores is what they wrote. -/
theorem getLogicalProcessorCores_eq_assignments (groups : List ProcessorGroup)
    {cores : Relationships} (hne : cores.toList ≠ []) :
    getLogicalProcessorCores groups cores
      = assignments (List.replicate (total groups) {}) (coreWrites groups 0 cores.toList) := by
  have hcore : ¬cores.toList.length.toUInt32 = 0 := by
    intro hzero
    have hmod := congrArg UInt32.toNat hzero
    rw [Nat.toUInt32, UInt32.toNat_ofNat', Nat.mod_eq_of_lt cores.length_lt] at hmod
    exact hne (List.length_eq_zero_iff.mp hmod)
  rw [getLogicalProcessorCores, if_neg hcore]

/-- A processor's slot has the core the processor is of. -/
theorem getElem?_getLogicalProcessorCores {groups : List ProcessorGroup} {cores : Relationships}
    (hcounted : Counted groups) (hparts : Partition groups cores.toList) {i : ℕ}
    {r : LogicalProcessorRelationship} (hi : cores.toList[i]? = some r) {p : Processor}
    (hp : p ∈ processors groups) (hr : r.Contains p) :
    ∃ core : LogicalProcessorCore,
      (getLogicalProcessorCores groups cores)[slot groups p]? = some core ∧
      core.core.toNat = i ∧ core.efficiencyClass = r.efficiencyClass := by
  have hmem := List.mem_of_getElem? hi
  have hlt : i < 2 ^ 32 := (List.getElem?_eq_some_iff.mp hi).1.trans cores.length_lt
  rw [getLogicalProcessorCores_eq_assignments groups (List.ne_nil_of_mem hmem)]
  refine ⟨_, getElem?_assignments ?_ ?_ (mem_coreWrites hcounted hi hp hr), ?_, rfl⟩
  · rw [List.length_replicate]
    exact slot_lt hcounted hp
  · exact (hparts.writes hcounted).nodup_iff.mpr List.nodup_range
  · rw [UInt32.zero_add, Nat.toUInt32, UInt32.toNat_ofNat', Nat.mod_eq_of_lt hlt]

/-- **Every active processor has a slot, every slot is written once, and it has the index and the
efficiency class of the core the processor is of.** -/
theorem getLogicalProcessorCores_eq (groups : List ProcessorGroup) (cores : Relationships)
    (hcounted : Counted groups) (hne : cores.toList ≠ [])
    (hparts : Partition groups cores.toList) :
    (getLogicalProcessorCores groups cores).length = (processors groups).length ∧
    (processors groups).map (slot groups) = List.range (processors groups).length ∧
    ((coreWrites groups 0 cores.toList).map Prod.fst).Perm
      (List.range (processors groups).length) ∧
    ∀ i r, cores.toList[i]? = some r → ∀ p ∈ processors groups, r.Contains p →
      ∃ core : LogicalProcessorCore,
        (getLogicalProcessorCores groups cores)[slot groups p]? = some core ∧
        core.core.toNat = i ∧ core.efficiencyClass = r.efficiencyClass := by
  refine ⟨?_, ?_, hparts.writes hcounted, ?_⟩
  · rw [getLogicalProcessorCores_eq_assignments groups hne, length_assignments,
      List.length_replicate, length_processors hcounted]
  · rw [map_slot_processors hcounted, length_processors hcounted]
  · intro i r hi p hp hr
    exact getElem?_getLogicalProcessorCores hcounted hparts hi hp hr

/-- Two groups, the first with a hole in its mask. -/
def twoGroups : List ProcessorGroup := [⟨0, 0b1011, 3⟩, ⟨1, 0b10, 1⟩]

/-- A core with two processors, and one that spans the groups and has a part in an unknown one. -/
def twoCores : Relationships where
  toList := [
    { efficiencyClass := 1, groupMasks := [⟨0b11, 0⟩] },
    { groupMasks := [⟨0b1000, 0⟩, ⟨0b110, 1⟩, ⟨1, 7⟩] }]
  length_lt := by decide

theorem getLogicalProcessorCores_twoCores :
    Counted twoGroups ∧ Partition twoGroups twoCores.toList ∧
    (getLogicalProcessorCores twoGroups twoCores).length = (processors twoGroups).length ∧
    getLogicalProcessorCores twoGroups twoCores = [⟨0, 1⟩, ⟨0, 1⟩, ⟨1, 0⟩, ⟨1, 0⟩] := by
  have hcounted : Counted twoGroups := by
    rw [Counted]
    decide +kernel
  have hparts : Partition twoGroups twoCores.toList := ⟨by decide +kernel, by decide +kernel⟩
  exact ⟨hcounted, hparts,
    (getLogicalProcessorCores_eq twoGroups twoCores hcounted (by decide) hparts).1,
    by decide +kernel⟩

end WinSys.SystemInfo
