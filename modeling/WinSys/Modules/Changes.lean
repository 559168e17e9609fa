import WinSys.Infra.Run
import WinSys.Modules.Tracker
import Mathlib.Data.List.Nodup
import Mathlib.Algebra.BigOperators.Group.List.Basic

/-!
# What a call reports

A process's regions follow each other from address 0, and those of one allocation that are mapped
come without another allocation's between them.

* `Target.Layout`: such regions
* `Diffed`: what a call lists, and what it says is new and gone
* `Walked`: what is true of the walk after some regions
* `modules_diffed`
-/

namespace WinSys.Modules

open Infra

/-! ## layouts -/

def Region.isMapped (r : Region) : Bool := r.state = .commit && r.type ≠ .isPrivate

/-- The regions that modules are made of. -/
def Target.mapped (target : Target) : List Region := target.regions.filter Region.isMapped

/-- The regions follow each other from an address on. -/
def Contiguous : ℕ → List Region → Prop
  | _, [] => True
  | start, r :: rs => r.baseAddress.toNat = start ∧ 0 < r.regionSize.toNat
    ∧ start + r.regionSize.toNat < 2 ^ 64 ∧ Contiguous (start + r.regionSize.toNat) rs

structure Target.Layout (target : Target) : Prop where
  contiguous : Contiguous 0 target.regions
  grouped : ∀ a b c, [a, b, c].Sublist target.mapped → a.allocationBase = c.allocationBase →
    b.allocationBase = a.allocationBase
  /-- User space does not begin at 0. -/
  nonzero : ∀ r ∈ target.mapped, r.allocationBase ≠ 0

/-! ## what a call should report -/

/-- The key of an allocation's module. -/
def Target.key (target : Target) (base : UInt64) : WString :=
  moduleKey (target.mappedFileName base) base

namespace ProcessModuleTracker

variable (t : ProcessModuleTracker)

def base (m : ℕ) : UInt64 := (t.objects m).base

/-- The keys of the modules, which a call found in a process. -/
def keys (target : Target) : List WString := t.modules.map fun m => target.key (t.base m)

end ProcessModuleTracker

/-- The size of what is mapped of an allocation. -/
def Target.total (target : Target) (base : UInt64) : ℕ :=
  ((target.mapped.filter fun r => r.allocationBase = base).map fun r => r.regionSize.toNat).sum

/-- A call's lists, after a call that found the process as `last`. -/
structure Diffed (last target : Target) (t after : ProcessModuleTracker) : Prop where
  distinct : (after.modules.map after.base).Nodup
  mem : ∀ base, base ∈ after.modules.map after.base
    ↔ ∃ r ∈ target.mapped, r.allocationBase = base
  order : after.modules.Pairwise fun m n => ∀ r ∈ target.mapped, ∀ s ∈ target.mapped,
    r.allocationBase = after.base m → s.allocationBase = after.base n →
      r.baseAddress < s.baseAddress
  new : after.newModules
    = after.modules.filter fun m => decide (target.key (after.base m) ∉ t.keys last)
  unloaded : after.unloadedModules
    = (t.modules.filter fun m => decide (last.key (t.base m) ∉ after.keys target) : List ℕ)
  kept : ∀ m ∈ t.modules, ∀ n ∈ after.modules,
    last.key (t.base m) = target.key (after.base n) → m = n
  size : ∀ m ∈ after.modules, target.total (after.base m) < 2 ^ 32 →
    (after.objects m).moduleSize.toNat = target.total (after.base m)

/-! ## keys -/

theorem takeWhile_hash (path digits : WString) (h : ∀ c ∈ digits, c ≠ (0x23 : WChar)) :
    ((path ++ wide "#" ++ digits).reverse.takeWhile (· ≠ (0x23 : WChar))) = digits.reverse := by
  have hwide : wide "#" = [0x23] := by decide
  rw [hwide, List.reverse_append, List.reverse_append, List.takeWhile_append_of_pos]
  · simp
  · intro c hc
    simpa using h c (List.mem_reverse.mp hc)

theorem decimal_ne_hash {n : ℕ} : ∀ c ∈ decimal n, c ≠ (0x23 : WChar) := by
  intro c hc
  obtain ⟨d, hd, rfl⟩ := mem_decimal hc
  have hall : ∀ d < 10, digit d ≠ (0x23 : WChar) := by decide
  exact hall d hd

/-- Modules at different addresses have different keys. -/
theorem moduleKey_base {path path' : WString} {base base' : UInt64}
    (h : moduleKey path base = moduleKey path' base') : base = base' := by
  have hdigits : decimal base.toNat = decimal base'.toNat := by
    have hleft := takeWhile_hash path (decimal base.toNat) decimal_ne_hash
    have hright := takeWhile_hash path' (decimal base'.toNat) decimal_ne_hash
    unfold moduleKey at h
    rw [h, hright] at hleft
    exact (List.reverse_injective hleft).symm
  exact UInt64.toNat_inj.mp (decimal_injective hdigits)

theorem fillModule_base (target : Target) (mbi : Region) (ntPath : WString) :
    (target.fillModule mbi ntPath).base = mbi.allocationBase := by
  unfold Target.fillModule
  repeat' split
  all_goals rfl

/-! ## the walk follows the list -/

section Following

variable {target : Target} {moduleMap : Finmap fun _ : WString => ℕ}

/-- A region that ends at an address does not have it. -/
theorem not_at {r : Region} {address : UInt64}
    (h : r.baseAddress.toNat + r.regionSize.toNat ≤ address.toNat) :
    (decide (r.baseAddress ≤ address) && decide (address - r.baseAddress < r.regionSize))
      = false := by
  have hle : r.baseAddress ≤ address := UInt64.le_iff_toNat_le.mpr (by omega)
  have hsub := UInt64.toNat_sub_of_le address r.baseAddress hle
  have hnot : ¬ address - r.baseAddress < r.regionSize := by
    rw [UInt64.lt_iff_toNat_lt]
    omega
  simp [hnot]

theorem virtualQuery_at {before rest : List Region} {address : UInt64}
    (hregions : target.regions = before ++ rest)
    (hbefore : ∀ r ∈ before, r.baseAddress.toNat + r.regionSize.toNat ≤ address.toNat)
    (hrest : Contiguous address.toNat rest) : target.virtualQuery address = rest.head? := by
  have hnone : before.find? (fun r => decide (r.baseAddress ≤ address)
      && decide (address - r.baseAddress < r.regionSize)) = none := by
    rw [List.find?_eq_none]
    intro r hr
    rw [not_at (hbefore r hr)]
    exact Bool.false_ne_true
  rw [Target.virtualQuery, hregions, List.find?_append, hnone, Option.none_or]
  cases rest with
  | nil => rfl
  | cons r rest =>
    obtain ⟨hbase, hpos, -, -⟩ := hrest
    have hsame : r.baseAddress = address := UInt64.toNat_inj.mp hbase
    have hzero : (0 : UInt64) < r.regionSize := UInt64.lt_iff_toNat_lt.mpr hpos
    rw [List.find?_cons_of_pos]
    · rfl
    · simp [hsame, hzero]

/-- The walk sees each region once. -/
theorem regions_eq_foldl {before rest : List Region} {address : UInt64} {fuel : ℕ}
    (hregions : target.regions = before ++ rest)
    (hbefore : ∀ r ∈ before, r.baseAddress.toNat + r.regionSize.toNat ≤ address.toNat)
    (hrest : Contiguous address.toNat rest) (hfuel : rest.length ≤ fuel) (w : Walk) :
    Walk.regions moduleMap target fuel address w
      = rest.foldl (fun w r => w.region moduleMap target r) w := by
  induction rest generalizing before address fuel w with
  | nil =>
    cases fuel with
    | zero => rfl
    | succ fuel => rw [Walk.regions, virtualQuery_at hregions hbefore hrest]; rfl
  | cons r rest ih =>
    obtain ⟨fuel, rfl⟩ : ∃ n, fuel = n + 1 := ⟨fuel - 1, by
      simp only [List.length_cons] at hfuel
      omega⟩
    rw [Walk.regions, virtualQuery_at hregions hbefore hrest]
    obtain ⟨hbase, -, hend, hnext⟩ := hrest
    have haddress : (address + r.regionSize).toNat = address.toNat + r.regionSize.toNat := by
      rw [UInt64.toNat_add, Nat.mod_eq_of_lt hend]
    refine @ih (before ++ [r]) (address + r.regionSize) fuel ?_ ?_ ?_ ?_ _
    · rw [hregions]
      simp
    · intro s hs
      rw [haddress]
      rcases List.mem_append.mp hs with hold | hnew
      · exact Nat.le_trans (hbefore s hold) (Nat.le_add_right _ _)
      · rw [List.mem_singleton.mp hnew, hbase]
    · rw [haddress]
      exact hnext
    · simp only [List.length_cons] at hfuel
      omega

/-- The walk's step for a mapped region. -/
def Walk.mapping (w : Walk) (moduleMap : Finmap fun _ : WString => ℕ) (target : Target)
    (mbi : Region) : Walk :=
  (if mbi.allocationBase ≠ w.currentBase then w.enter moduleMap target mbi else w).addRegion mbi

theorem walk_eq_foldl (hl : target.Layout) (w : Walk) :
    Walk.regions moduleMap target target.regions.length 0 w
      = target.mapped.foldl (fun w r => w.mapping moduleMap target r) w := by
  rw [@regions_eq_foldl target moduleMap [] target.regions 0 _ rfl (by simp) hl.contiguous
    (Nat.le_refl _), Target.mapped, List.foldl_filter]
  congr 1
  funext w r
  simp only [Walk.region, Walk.mapping, Region.isMapped, Bool.and_eq_true, decide_eq_true_eq]

/-- Of two regions the first is below. -/
theorem contiguous_sorted {start : ℕ} {rs : List Region} (h : Contiguous start rs) :
    rs.Pairwise (fun r s => r.baseAddress < s.baseAddress)
      ∧ ∀ r ∈ rs, start ≤ r.baseAddress.toNat := by
  induction rs generalizing start with
  | nil => exact ⟨List.Pairwise.nil, by simp⟩
  | cons r rs ih =>
    obtain ⟨hbase, hpos, -, hrest⟩ := h
    obtain ⟨hsorted, hle⟩ := ih hrest
    constructor
    · refine List.Pairwise.cons (fun s hs => ?_) hsorted
      have hs' := hle s hs
      rw [UInt64.lt_iff_toNat_lt]
      omega
    · intro s hs
      rcases List.mem_cons.mp hs with rfl | hs
      · omega
      · have hs' := hle s hs
        omega

end Following

/-! ## one region -/

def Walk.base (w : Walk) (m : ℕ) : UInt64 := (w.objects m).base

/-- What a tracker has between calls, the last of which found the process as `last`. -/
structure Listed (last : Target) (t : ProcessModuleTracker) : Prop where
  handle : t.hasHandle = true
  distinct : (t.modules.map t.base).Nodup
  made : ∀ m ∈ t.modules, m < t.made
  map : Finmap.Indexes (fun m => last.key (t.base m)) t.moduleMap t.modules

/-- A region that begins a module: one of the tracker's under the key, or a new one. -/
structure Entered (t : ProcessModuleTracker) (target : Target) (r : Region) (w after : Walk)
    (m : ℕ) : Prop where
  modules : after.modules = w.modules ++ [m]
  base : after.base m = r.allocationBase
  size : (after.objects m).moduleSize = r.regionSize.toUInt32
  others : ∀ n ∈ w.modules, after.objects n = w.objects n
  old : ∀ n < t.made, after.base n = t.base n
  map : after.map = w.map.insertNew (target.key r.allocationBase) m
  new : after.newModules
    = w.newModules ++ if target.key r.allocationBase ∈ t.moduleMap then [] else [m]
  kept : ∀ n, t.moduleMap.lookup (target.key r.allocationBase) = some n → n = m
  current : after.current = some m
  currentBase : after.currentBase = r.allocationBase
  made : w.made ≤ after.made ∧ m < after.made

/-- What is true of the walk after some of a process's mapped regions. -/
structure Walked (t : ProcessModuleTracker) (target : Target) (seen : List Region) (w : Walk) :
    Prop where
  distinct : (w.modules.map w.base).Nodup
  mem : ∀ base, base ∈ w.modules.map w.base ↔ ∃ r ∈ seen, r.allocationBase = base
  order : w.modules.Pairwise fun m n => ∀ r ∈ seen, ∀ s ∈ seen,
    r.allocationBase = w.base m → s.allocationBase = w.base n → r.baseAddress < s.baseAddress
  current : (seen = [] ∧ w.modules = [] ∧ w.currentBase = 0)
    ∨ ∃ init m before r, w.modules = init ++ [m] ∧ w.current = some m ∧ w.base m = w.currentBase
      ∧ seen = before ++ [r] ∧ r.allocationBase = w.currentBase
  size : ∀ m ∈ w.modules, (w.objects m).moduleSize
    = ((seen.filter fun r => r.allocationBase = w.base m).map fun r => r.regionSize.toUInt32).sum
  map : Finmap.Indexes (fun m => target.key (w.base m)) w.map w.modules
  new : w.newModules
    = w.modules.filter fun m => decide (target.key (w.base m) ∉ t.moduleMap)
  kept : ∀ m ∈ w.modules, ∀ n, t.moduleMap.lookup (target.key (w.base m)) = some n → n = m
  old : ∀ m < t.made, w.base m = t.base m
  made : t.made ≤ w.made ∧ ∀ m ∈ w.modules, m < w.made

section Steps

variable {t : ProcessModuleTracker} {last target : Target} {seen rest : List Region} {r : Region}
  {w : Walk}

@[simp]
theorem setSize_base (w : Walk) (m : ℕ) (size : UInt32) (n : ℕ) :
    (w.setSize m size).base n = w.base n := by
  unfold Walk.base Walk.setSize
  by_cases h : n = m
  · subst h
    simp
  · simp [h]

theorem setSize_objects_of_ne (w : Walk) {m n : ℕ} (size : UInt32) (h : n ≠ m) :
    (w.setSize m size).objects n = w.objects n := Function.update_of_ne h ..

theorem setSize_size (w : Walk) (m : ℕ) (size : UInt32) :
    ((w.setSize m size).objects m).moduleSize = size := by
  simp [Walk.setSize]

/-- The object that a module gets. -/
theorem Walked.find_spec (h : Walked t target seen w) (ht : Listed last t)
    (hfresh : r.allocationBase ∉ w.modules.map w.base) :
    ∃ m found, w.find t.moduleMap (target.key r.allocationBase)
        (target.fillModule r (target.mappedFileName r.allocationBase)) = (m, found)
      ∧ found.modules = w.modules ∧ found.map = w.map
      ∧ found.newModules
        = w.newModules ++ (if target.key r.allocationBase ∈ t.moduleMap then [] else [m])
      ∧ found.base m = r.allocationBase
      ∧ (∀ n ∈ w.modules, n ≠ m ∧ found.objects n = w.objects n)
      ∧ (∀ n < t.made, found.base n = t.base n)
      ∧ (∀ n, t.moduleMap.lookup (target.key r.allocationBase) = some n → n = m)
      ∧ w.made ≤ found.made ∧ m < found.made := by
  unfold Walk.find
  cases hlookup : t.moduleMap.lookup (target.key r.allocationBase) with
  | some m =>
    obtain ⟨hmem, hsame⟩ := (ht.map _ m).mp hlookup
    have hlt := ht.made m hmem
    have hbase : w.base m = r.allocationBase := by
      rw [h.old m hlt]
      exact moduleKey_base hsame
    have hin : target.key r.allocationBase ∈ t.moduleMap := Finmap.mem_iff.mpr ⟨m, hlookup⟩
    refine ⟨m, w, rfl, rfl, rfl, by simp [hin], hbase, fun n hn => ⟨?_, rfl⟩, h.old,
      fun n hn => (Option.some.inj hn).symm, Nat.le_refl _, Nat.lt_of_lt_of_le hlt h.made.1⟩
    rintro rfl
    exact hfresh (hbase ▸ List.mem_map_of_mem hn)
  | none =>
    have hout : target.key r.allocationBase ∉ t.moduleMap := Finmap.lookup_eq_none.mp hlookup
    refine ⟨w.made, _, rfl, rfl, rfl, by simp [hout], ?_, fun n hn => ?_, fun n hn => ?_,
      fun n hn => (by cases hn), Nat.le_succ _, Nat.lt_succ_self _⟩
    · simp [Walk.base, fillModule_base]
    · have hne : n ≠ w.made := Nat.ne_of_lt (h.made.2 n hn)
      exact ⟨hne, Function.update_of_ne hne ..⟩
    · have hne : n ≠ w.made := Nat.ne_of_lt (Nat.lt_of_lt_of_le hn h.made.1)
      rw [← h.old n hn]
      simp [Walk.base, hne]

/-- The first region of an allocation enters its module. -/
theorem Walked.enters (h : Walked t target seen w) (ht : Listed last t)
    (hfresh : r.allocationBase ∉ w.modules.map w.base) (hne : r.allocationBase ≠ w.currentBase) :
    ∃ m, Entered t target r w (w.mapping t.moduleMap target r) m := by
  obtain ⟨m, found, hfind, hmodules, hmap, hnew, hbase, hothers, hold, hkept, hmade⟩ :=
    h.find_spec ht hfresh
  have hmapping : w.mapping t.moduleMap target r
      = ((found.list m (target.key r.allocationBase) r.allocationBase).setSize m
        (0 + r.regionSize.toUInt32)) := by
    have hsize : ((found.list m (target.key r.allocationBase) r.allocationBase).objects m).moduleSize
        = 0 := setSize_size found m 0
    have henter : w.enter t.moduleMap target r
        = found.list m (target.key r.allocationBase) r.allocationBase := by
      have hfound : w.find t.moduleMap
          (moduleKey (target.mappedFileName r.allocationBase) r.allocationBase)
          (target.fillModule r (target.mappedFileName r.allocationBase)) = (m, found) := hfind
      simp only [Walk.enter, hfound]
      rfl
    rw [Walk.mapping, if_pos hne, henter, ← hsize]
    rfl
  have hobjects : ∀ n, n ≠ m → ((found.list m (target.key r.allocationBase)
      r.allocationBase).setSize m (0 + r.regionSize.toUInt32)).objects n = found.objects n := by
    intro n hn
    rw [setSize_objects_of_ne _ _ hn]
    exact setSize_objects_of_ne found 0 hn
  have hbases : ∀ n, ((found.list m (target.key r.allocationBase)
      r.allocationBase).setSize m (0 + r.regionSize.toUInt32)).base n = found.base n := by
    intro n
    rw [setSize_base]
    exact setSize_base found m 0 n
  refine ⟨m, ?_⟩
  rw [hmapping]
  constructor
  · exact congrArg (· ++ [m]) hmodules
  · rw [hbases, hbase]
  · rw [setSize_size, zero_add]
  · intro n hn
    obtain ⟨hnm, hsame⟩ := hothers n hn
    rw [hobjects n hnm, hsame]
  · intro n hn
    rw [hbases, hold n hn]
  · exact congrArg (fun map => map.insertNew (target.key r.allocationBase) m) hmap
  · exact hnew
  · exact hkept
  · rfl
  · rfl
  · exact hmade

/-- The next region of an allocation goes to its module. -/
theorem mapping_adds {m : ℕ} (hcurrent : w.current = some m)
    (hsame : r.allocationBase = w.currentBase) : w.mapping t.moduleMap target r
      = w.setSize m ((w.objects m).moduleSize + r.regionSize.toUInt32) := by
  rw [Walk.mapping, if_neg (not_not.mpr hsame), Walk.addRegion, hcurrent]

/-- The sizes of an allocation's regions so far. -/
def sizes (seen : List Region) (base : UInt64) : UInt32 :=
  ((seen.filter fun r => r.allocationBase = base).map fun r => r.regionSize.toUInt32).sum

theorem sizes_append (seen : List Region) (r : Region) (base : UInt64) : sizes (seen ++ [r]) base
    = sizes seen base + if r.allocationBase = base then r.regionSize.toUInt32 else 0 := by
  unfold sizes
  rw [List.filter_append, List.map_append, List.sum_append]
  by_cases h : r.allocationBase = base
  · simp [h]
  · simp [h]

/-- An allocation that comes back would come around another. -/
theorem Walked.fresh (h : Walked t target seen w) (hl : target.Layout)
    (hmapped : target.mapped = seen ++ r :: rest) (hne : r.allocationBase ≠ w.currentBase) :
    r.allocationBase ∉ w.modules.map w.base := by
  intro hmem
  obtain ⟨a, ha, hsame⟩ := (h.mem r.allocationBase).mp hmem
  rcases h.current with ⟨rfl, -⟩ | ⟨init, m, before, b, -, -, -, rfl, hb⟩
  · cases ha
  · have hab : a ∈ before := by
      rcases List.mem_append.mp ha with hbefore | hlast
      · exact hbefore
      · rw [List.mem_singleton.mp hlast, hb] at hsame
        exact absurd hsame.symm hne
    have hsublist : [a, b, r].Sublist target.mapped := by
      rw [hmapped, List.append_assoc]
      refine (List.singleton_sublist.mpr hab).append ?_
      exact (List.nil_sublist rest).cons_cons r |>.cons_cons b
    have hgroup := hl.grouped a b r hsublist hsame
    rw [hsame, hb] at hgroup
    exact hne hgroup.symm

/-- The regions that were seen are below. -/
theorem seen_below (hl : target.Layout) (hmapped : target.mapped = seen ++ r :: rest) :
    ∀ s ∈ seen, s.baseAddress < r.baseAddress := by
  intro s hs
  have hsorted : target.mapped.Pairwise fun r s => r.baseAddress < s.baseAddress :=
    (contiguous_sorted hl.contiguous).1.sublist List.filter_sublist
  rw [hmapped, List.pairwise_append] at hsorted
  exact hsorted.2.2 s hs r List.mem_cons_self

theorem Walked.start (t : ProcessModuleTracker) (target : Target) :
    Walked t target [] { objects := t.objects, made := t.made } where
  distinct := List.nodup_nil
  mem _ := by simp
  order := List.Pairwise.nil
  current := Or.inl ⟨rfl, rfl, rfl⟩
  size _ h := by cases h
  map := Finmap.Indexes.empty
  new := rfl
  kept _ h := by cases h
  old _ _ := rfl
  made := ⟨Nat.le_refl _, fun _ h => by cases h⟩

/-- Another region of the current module. -/
theorem Walked.add (h : Walked t target seen w) (hl : target.Layout)
    (hmapped : target.mapped = seen ++ r :: rest) (hsame : r.allocationBase = w.currentBase) :
    Walked t target (seen ++ [r]) (w.mapping t.moduleMap target r) := by
  have hin : r ∈ target.mapped := by
    rw [hmapped]
    simp
  rcases h.current with ⟨-, -, hzero⟩ | ⟨init, m, before, b, hmodules, hcurrent, hbase, hseen, hb⟩
  · exact absurd (hsame.trans hzero) (hl.nonzero r hin)
  · rw [mapping_adds hcurrent hsame]
    have hmm : m ∈ w.modules := by
      rw [hmodules]
      simp
    have hbases : (w.setSize m ((w.objects m).moduleSize + r.regionSize.toUInt32)).base
        = w.base := funext fun n => setSize_base w m _ n
    have hlist : (w.setSize m ((w.objects m).moduleSize + r.regionSize.toUInt32)).modules
        = w.modules := rfl
    -- the current module is the last one
    have hlast : ∀ n ∈ init, w.base n ≠ r.allocationBase := by
      intro n hn heq
      have hnodup := h.distinct
      rw [hmodules, List.map_append, List.nodup_append] at hnodup
      exact hnodup.2.2 (w.base n) (List.mem_map_of_mem hn) (w.base m) (by simp)
        (heq.trans (hsame.trans hbase.symm))
    refine ⟨?_, ?_, ?_, ?_, ?_, ?_, ?_, ?_, ?_, ?_⟩
    · rw [hbases]
      exact h.distinct
    · intro base
      rw [hbases, hlist, h.mem base]
      constructor
      · rintro ⟨s, hs, heq⟩
        exact ⟨s, List.mem_append_left _ hs, heq⟩
      · rintro ⟨s, hs, heq⟩
        rcases List.mem_append.mp hs with hold | hnew
        · exact ⟨s, hold, heq⟩
        · rw [List.mem_singleton.mp hnew, hsame] at heq
          exact ⟨b, by simp [hseen], hb.trans heq⟩
    · rw [hbases, hlist]
      have horder := h.order
      rw [hmodules, List.pairwise_append] at horder ⊢
      obtain ⟨hinit, -, hcross⟩ := horder
      have hpair : ∀ x ∈ init, ∀ y, (∀ a ∈ seen, ∀ s ∈ seen, a.allocationBase = w.base x →
          s.allocationBase = w.base y → a.baseAddress < s.baseAddress) →
          ∀ a ∈ seen ++ [r], ∀ s ∈ seen ++ [r], a.allocationBase = w.base x →
            s.allocationBase = w.base y → a.baseAddress < s.baseAddress := by
        intro x hx y hxy a ha s hs hax hsy
        rcases List.mem_append.mp ha with ha | ha
        · rcases List.mem_append.mp hs with hs | hs
          · exact hxy a ha s hs hax hsy
          · rw [List.mem_singleton.mp hs]
            exact seen_below hl hmapped a ha
        · rw [List.mem_singleton.mp ha] at hax
          exact absurd hax.symm (hlast x hx)
      refine ⟨hinit.imp_of_mem fun hx _ hxy => hpair _ hx _ hxy, List.pairwise_singleton _ _, ?_⟩
      exact fun x hx y hy => hpair x hx y (hcross x hx y hy)
    · exact Or.inr ⟨init, m, seen, r, hmodules, hcurrent, by rw [hbases]; exact hbase, rfl, hsame⟩
    · intro n hn
      show _ = sizes (seen ++ [r]) _
      rw [hbases, sizes_append]
      by_cases hnm : n = m
      · subst hnm
        rw [setSize_size, h.size n hn, if_pos (hsame.trans hbase.symm)]
        rfl
      · have hne : r.allocationBase ≠ w.base n := by
          rw [hlist, hmodules] at hn
          rcases List.mem_append.mp hn with hinit | hm
          · exact (hlast n hinit).symm
          · exact absurd (List.mem_singleton.mp hm) hnm
        rw [setSize_objects_of_ne w _ hnm, h.size n hn, if_neg hne, add_zero]
        rfl
    · rw [hbases]
      exact h.map
    · rw [hbases]
      exact h.new
    · rw [hbases]
      exact h.kept
    · rw [hbases]
      exact h.old
    · exact h.made

/-- The first region of another allocation. -/
theorem Walked.next (h : Walked t target seen w) (ht : Listed last t) (hl : target.Layout)
    (hmapped : target.mapped = seen ++ r :: rest) (hne : r.allocationBase ≠ w.currentBase) :
    Walked t target (seen ++ [r]) (w.mapping t.moduleMap target r) := by
  have hfresh := h.fresh hl hmapped hne
  obtain ⟨m, he⟩ := h.enters ht hfresh hne
  have hothers : ∀ n ∈ w.modules, (w.mapping t.moduleMap target r).base n = w.base n := by
    intro n hn
    exact congrArg ModuleInfo.base (he.others n hn)
  have hnot : ∀ n ∈ w.modules, w.base n ≠ r.allocationBase := fun n hn heq =>
    hfresh (heq ▸ List.mem_map_of_mem hn)
  have hbases : (w.mapping t.moduleMap target r).modules.map (w.mapping t.moduleMap target r).base
      = w.modules.map w.base ++ [r.allocationBase] := by
    rw [he.modules, List.map_append, List.map_singleton, he.base]
    exact congrArg (· ++ [r.allocationBase]) (List.map_congr_left hothers)
  have hseen : ∀ s ∈ seen, s.allocationBase ≠ r.allocationBase := fun s hs heq =>
    hfresh ((h.mem r.allocationBase).mpr ⟨s, hs, heq⟩)
  refine ⟨?_, ?_, ?_, ?_, ?_, ?_, ?_, ?_, he.old, ?_⟩
  · rw [hbases]
    exact h.distinct.append (List.nodup_singleton _) (by simpa using hfresh)
  · intro base
    rw [hbases, List.mem_append, h.mem base, List.mem_singleton]
    constructor
    · rintro (⟨s, hs, heq⟩ | rfl)
      · exact ⟨s, List.mem_append_left _ hs, heq⟩
      · exact ⟨r, by simp, rfl⟩
    · rintro ⟨s, hs, heq⟩
      rcases List.mem_append.mp hs with hold | hnew
      · exact Or.inl ⟨s, hold, heq⟩
      · rw [List.mem_singleton.mp hnew] at heq
        exact Or.inr heq.symm
  · rw [he.modules, List.pairwise_append]
    refine ⟨h.order.imp_of_mem fun {x y} hx hy hxy a ha s hs hax hsy => ?_,
      List.pairwise_singleton _ _, fun x hx y hy a ha s hs hax hsy => ?_⟩
    · rw [hothers x hx] at hax
      rw [hothers y hy] at hsy
      rcases List.mem_append.mp ha with ha | ha
      · rcases List.mem_append.mp hs with hs | hs
        · exact hxy a ha s hs hax hsy
        · rw [List.mem_singleton.mp hs] at hsy
          exact absurd hsy.symm (hnot y hy)
      · rw [List.mem_singleton.mp ha] at hax
        exact absurd hax.symm (hnot x hx)
    · rw [hothers x hx] at hax
      rw [List.mem_singleton.mp hy, he.base] at hsy
      rcases List.mem_append.mp ha with ha | ha
      · rcases List.mem_append.mp hs with hs | hs
        · exact absurd hsy (hseen s hs)
        · rw [List.mem_singleton.mp hs]
          exact seen_below hl hmapped a ha
      · rw [List.mem_singleton.mp ha] at hax
        exact absurd hax.symm (hnot x hx)
  · exact Or.inr ⟨w.modules, m, seen, r, he.modules, he.current,
      he.base.trans he.currentBase.symm, rfl, he.currentBase.symm⟩
  · intro n hn
    show _ = sizes (seen ++ [r]) _
    rw [sizes_append]
    rw [he.modules] at hn
    rcases List.mem_append.mp hn with hn | hn
    · rw [he.others n hn, hothers n hn, h.size n hn, if_neg (hnot n hn).symm, add_zero]
      rfl
    · rw [List.mem_singleton.mp hn, he.size, he.base, if_pos rfl]
      have hnone : sizes seen r.allocationBase = 0 := by
        unfold sizes
        rw [List.filter_eq_nil_iff.mpr fun s hs => by simpa using hseen s hs]
        rfl
      rw [hnone, zero_add]
  · have hkeys : target.key r.allocationBase ∉ w.modules.map
        fun n => target.key ((w.mapping t.moduleMap target r).base n) := by
      intro hin
      obtain ⟨n, hn, heq⟩ := List.mem_map.mp hin
      rw [hothers n hn] at heq
      exact hnot n hn (moduleKey_base heq)
    rw [he.map, he.modules]
    exact (h.map.congr fun n hn => by rw [hothers n hn]).insertNew hkeys (by rw [he.base])
  · rw [he.new, he.modules, List.filter_append, h.new]
    congr 1
    · refine List.filter_congr fun n hn => ?_
      rw [hothers n hn]
    · by_cases hin : target.key r.allocationBase ∈ t.moduleMap
      · simp [he.base, hin]
      · simp [he.base, hin]
  · intro n hn k hk
    rw [he.modules] at hn
    rcases List.mem_append.mp hn with hn | hn
    · rw [hothers n hn] at hk
      exact h.kept n hn k hk
    · rw [List.mem_singleton.mp hn, he.base] at hk
      rw [List.mem_singleton.mp hn]
      exact he.kept k hk
  · refine ⟨Nat.le_trans h.made.1 he.made.1, fun n hn => ?_⟩
    rw [he.modules] at hn
    rcases List.mem_append.mp hn with hn | hn
    · exact Nat.lt_of_lt_of_le (h.made.2 n hn) he.made.1
    · rw [List.mem_singleton.mp hn]
      exact he.made.2

theorem Walked.mapping (h : Walked t target seen w) (ht : Listed last t) (hl : target.Layout)
    (hmapped : target.mapped = seen ++ r :: rest) :
    Walked t target (seen ++ [r]) (w.mapping t.moduleMap target r) := by
  by_cases hsame : r.allocationBase = w.currentBase
  · exact h.add hl hmapped hsame
  · exact h.next ht hl hmapped hsame

/-- The whole walk. -/
theorem Walked.foldl (h : Walked t target seen w) (ht : Listed last t) (hl : target.Layout)
    (hmapped : target.mapped = seen ++ rest) : Walked t target target.mapped
      (rest.foldl (fun w r => w.mapping t.moduleMap target r) w) := by
  induction rest generalizing seen w with
  | nil =>
    rw [hmapped, List.append_nil]
    exact h
  | cons r rest ih =>
    exact ih (h.mapping ht hl hmapped) (by rw [hmapped]; simp)

theorem key_injective (target : Target) : Function.Injective target.key :=
  fun _ _ h => moduleKey_base h

/-- Sizes add up, modulo 2 ^ 32. -/
theorem toNat_sum_sizes (rs : List Region) :
    ((rs.map fun r : Region => r.regionSize.toUInt32).sum).toNat
      = (rs.map fun r => r.regionSize.toNat).sum % 2 ^ 32 := by
  induction rs with
  | nil => rfl
  | cons r rs ih =>
    simp only [List.map_cons, List.sum_cons]
    rw [UInt32.toNat_add, ih, UInt64.toNat_toUInt32]
    exact (Nat.add_mod _ _ _).symm

section Called

variable (h : Walked t target target.mapped w)
include h

theorem Walked.listed (ht : Listed last t) : Listed target (t.update w) where
  handle := ht.handle
  distinct := h.distinct
  made := h.made.2
  map := h.map

theorem Walked.diffed (ht : Listed last t) : Diffed last target t (t.update w) := by
  have hold : ∀ key, key ∈ t.moduleMap ↔ key ∈ t.keys last := fun key => ht.map.mem_iff
  have hnow : ∀ key, key ∈ w.map ↔ key ∈ (t.update w).keys target := fun key => h.map.mem_iff
  refine ⟨h.distinct, h.mem, h.order, ?_, ?_, ?_, ?_⟩
  · show w.newModules = _
    rw [h.new]
    refine List.filter_congr fun m _ => ?_
    simp only [hold]
    rfl
  · show t.gone w.map = _
    have hkeys : (t.keys last).Nodup := by
      have hmap := ht.distinct.map (key_injective last)
      rw [List.map_map] at hmap
      exact hmap
    have hgone := ht.map.eraseIf fun key => decide (key ∈ w.map)
    rw [ProcessModuleTracker.gone, hgone.values_eq (hkeys.sublist (List.filter_sublist.map _))]
    congr 1
    refine List.filter_congr fun m _ => ?_
    simp only [hnow, decide_not]
  · intro m hm n hn hkey
    have hlookup := (ht.map (last.key (t.base m)) m).mpr ⟨hm, rfl⟩
    rw [hkey] at hlookup
    exact h.kept n hn m hlookup
  · intro m hm htotal
    have hsize := h.size m hm
    show (w.objects m).moduleSize.toNat = _
    rw [hsize, toNat_sum_sizes]
    exact Nat.mod_eq_of_lt htotal

end Called

end Steps

/-! ## every sequence of calls -/

/-- A tracker with a handle, and the process as its last call found it. -/
structure Followed where
  tracker : ProcessModuleTracker := {}
  last : Target := ⟨[], fun _ => [], fun _ => none, id⟩

def Followed.step (w : Followed) (target : Target) : Followed where
  tracker := (w.tracker.enumModules target none).1
  last := target

theorem Listed.step {w : Followed} {target : Target} (ht : Listed w.last w.tracker)
    (hl : target.Layout) : Listed target (w.step target).tracker
      ∧ Diffed w.last target w.tracker (w.step target).tracker := by
  have hwalk := (Walked.start w.tracker target).foldl ht hl (List.nil_append _).symm
  rw [← walk_eq_foldl hl] at hwalk
  have hstep : (w.step target).tracker = w.tracker.enumModulesWithVirtualQuery target := by
    simp [Followed.step, ProcessModuleTracker.enumModules, ht.handle]
  rw [hstep]
  exact ⟨hwalk.listed ht, hwalk.diffed ht⟩

/--
**After each call the lists are exactly what is mapped, what came and what went, with the sizes
added up; and a ToolHelp snapshot that cannot be made changes nothing.**
-/
theorem modules_diffed (calls : List Target) (hl : ∀ target ∈ calls, target.Layout) :
    (Along Followed.step (fun w target => Diffed w.last target w.tracker (w.step target).tracker)
        {} calls)
      ∧ ∀ (t : ProcessModuleTracker) (target : Target), t.hasHandle = false →
        t.enumModules target none = (t, 0) := by
  constructor
  · have hstart : Listed ({} : Followed).last ({} : Followed).tracker :=
      ⟨rfl, List.nodup_nil, fun _ h => (by cases h), Finmap.Indexes.empty⟩
    exact Along.mono_of_invariant (fun w => Listed w.last w.tracker)
      (fun w target ht hok => (ht.step hok).1) (fun w target ht hok => (ht.step hok).2) hstart
      (along_of_forall hl)
  · intro t target hno
    simp [ProcessModuleTracker.enumModules, ProcessModuleTracker.enumModulesWithToolHelp, hno]

/-- A file mapped at 64 KB, in two regions. -/
def oneImage (path : WString) : Target where
  regions := [⟨0, 0, 0x10000, .free, .isPrivate⟩, ⟨0x10000, 0x10000, 0x1000, .commit, .image⟩,
    ⟨0x11000, 0x10000, 0x2000, .commit, .image⟩]
  mappedFileName _ := path
  ntHeader _ := none
  dosName name := name

theorem oneImage_layout (path : WString) : (oneImage path).Layout := by
  constructor
  · exact ⟨rfl, by decide, by decide, rfl, by decide, by decide, rfl, by decide, by decide, trivial⟩
  · intro a b c hsublist
    have hle := hsublist.length_le
    have htwo : (oneImage path).mapped.length = 2 := by rfl
    rw [htwo] at hle
    exact absurd hle (by simp)
  · intro r hr
    have hmapped : (oneImage path).mapped = [⟨0x10000, 0x10000, 0x1000, .commit, .image⟩,
      ⟨0x11000, 0x10000, 0x2000, .commit, .image⟩] := rfl
    rw [hmapped] at hr
    rcases List.mem_pair.mp hr with rfl | rfl
    · decide
    · decide

/-- Another file comes to where one was. -/
theorem modules_diffed_reused :
    (Along Followed.step (fun w target => Diffed w.last target w.tracker (w.step target).tracker)
        {} [oneImage (wide "a"), oneImage (wide "b")])
      ∧ ∀ (t : ProcessModuleTracker) (target : Target), t.hasHandle = false →
        t.enumModules target none = (t, 0) :=
  modules_diffed [oneImage (wide "a"), oneImage (wide "b")] fun target h => by
    rcases List.mem_pair.mp h with rfl | rfl
    · exact oneImage_layout (wide "a")
    · exact oneImage_layout (wide "b")

end WinSys.Modules
