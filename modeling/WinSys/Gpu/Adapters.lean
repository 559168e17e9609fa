import WinSys.Infra.Greedy
import WinSys.Infra.Run
import WinSys.Infra.Wide

/-!
# The GPU adapter list

The adapters are listed once. When a device restarts it has a new LUID, and `RemapLuids` gives each
adapter of the list the LUID of the first freshly enumerated one of its name and shape that no
adapter before it has taken. An adapter that finds none keeps its LUID.

* `getElem?_remapLuids`: what LUID an adapter gets
* `keepsDevices_iff`: when a call keeps the LUIDs distinct and leaves those that are still right
* `remapLuids_keeps_devices_iff`: the same along every run of calls
-/

namespace WinSys.Gpu

open Infra

/-! ## the source -/

structure LUID where
  lowPart : UInt32
  highPart : Int32
deriving DecidableEq, Repr

structure GpuAdapter where
  luid : LUID
  name : WString
  /-- the distinct engine names, in node order -/
  engines : List WString
  /-- a node's index in `engines` -/
  nodeEngine : List ℕ
  /-- by segment ID: shared memory -/
  apertureSegments : List Bool
  dedicatedLimit : UInt64 := 0
  sharedLimit : UInt64 := 0
deriving DecidableEq, Repr

/-- The fresh adapter is of the adapter's name and shape. -/
def GpuAdapter.matches (adapter fresh : GpuAdapter) : Bool :=
  fresh.name == adapter.name && fresh.nodeEngine.length == adapter.nodeEngine.length
    && fresh.apertureSegments.length == adapter.apertureSegments.length

/-- The loop over the adapters; a fresh one has its `used` flag with it. -/
def remapLoop : List (GpuAdapter × Bool) → List GpuAdapter → List GpuAdapter
  | _, [] => []
  | fresh, adapter :: adapters =>
    match takeFirst adapter.matches fresh with
    | none => adapter :: remapLoop fresh adapters
    | some (taken, fresh) => { adapter with luid := taken.luid } :: remapLoop fresh adapters

def remapLuids (adapters fresh : List GpuAdapter) : List GpuAdapter :=
  remapLoop (fresh.map fun adapter => (adapter, false)) adapters

/-! ## one call -/

/-- What tells one kind of adapter from another. -/
def GpuAdapter.shape (adapter : GpuAdapter) : WString × ℕ × ℕ :=
  (adapter.name, adapter.nodeEngine.length, adapter.apertureSegments.length)

theorem matches_iff (adapter fresh : GpuAdapter) :
    adapter.matches fresh = decide (fresh.shape = adapter.shape) := by
  simp [GpuAdapter.matches, GpuAdapter.shape, Bool.beq_eq_decide_eq, Bool.and_assoc]

def GpuAdapter.withLuidOf (adapter : GpuAdapter) (taken : Option GpuAdapter) : GpuAdapter :=
  { adapter with luid := (taken.map GpuAdapter.luid).getD adapter.luid }

theorem remapLoop_eq (fresh : List (GpuAdapter × Bool)) (adapters : List GpuAdapter) :
    remapLoop fresh adapters
      = List.zipWith GpuAdapter.withLuidOf adapters (assign GpuAdapter.matches fresh adapters) := by
  induction adapters generalizing fresh with
  | nil => rfl
  | cons adapter adapters ih =>
    rw [remapLoop, assign]
    cases takeFirst adapter.matches fresh with
    | none => simp only [ih]; rfl
    | some taking => simp only [ih]; rfl

/-- How many of an adapter's shape come before a place. -/
abbrev placeOf (l : List GpuAdapter) (i : ℕ) (adapter : GpuAdapter) : ℕ :=
  rank GpuAdapter.shape l i adapter.shape

theorem getElem?_remapLuids (adapters fresh : List GpuAdapter) (i : ℕ) :
    (remapLuids adapters fresh)[i]? = adapters[i]?.map fun adapter =>
      adapter.withLuidOf
        (ofKey GpuAdapter.shape fresh adapter.shape)[placeOf adapters i adapter]? := by
  have hmatches : GpuAdapter.matches = fun adapter fresh =>
      decide (fresh.shape = adapter.shape) := funext fun _ => funext fun _ => matches_iff _ _
  rw [remapLuids, remapLoop_eq, List.getElem?_zipWith, hmatches, getElem?_assign]
  cases adapters[i]? <;> rfl

/-- How many of a shape there are. -/
abbrev numberOf (l : List GpuAdapter) (adapter : GpuAdapter) : ℕ :=
  (ofKey GpuAdapter.shape l adapter.shape).length

theorem numberOf_congr {a b : GpuAdapter} (h : a.shape = b.shape) (l : List GpuAdapter) :
    numberOf l a = numberOf l b := by
  rw [numberOf, numberOf, h]

theorem placeOf_congr {a b : GpuAdapter} (h : a.shape = b.shape) (l : List GpuAdapter) (i : ℕ) :
    placeOf l i a = placeOf l i b := by
  rw [placeOf, placeOf, h]

section Step

variable {adapters fresh : List GpuAdapter} {i j k : ℕ} {adapter device : GpuAdapter}

/-- The device of an adapter's shape and place is the adapter's. -/
theorem luid_of_place (hi : adapters[i]? = some adapter) (hk : fresh[k]? = some device)
    (hshape : device.shape = adapter.shape)
    (hplace : placeOf fresh k device = placeOf adapters i adapter) :
    (remapLuids adapters fresh)[i]?.map GpuAdapter.luid = some device.luid := by
  have hdevice : (ofKey GpuAdapter.shape fresh device.shape)[placeOf fresh k device]?
      = some device := getElem?_ofKey_rank hk
  rw [hplace, hshape] at hdevice
  rw [getElem?_remapLuids, hi, Option.map_some, hdevice]
  rfl

/-- With as many of its shape before it as there are devices of the shape, an adapter keeps its
LUID. -/
theorem luid_of_none (hi : adapters[i]? = some adapter)
    (hnone : numberOf fresh adapter ≤ placeOf adapters i adapter) :
    (remapLuids adapters fresh)[i]?.map GpuAdapter.luid = some adapter.luid := by
  rw [getElem?_remapLuids, hi, Option.map_some, List.getElem?_eq_none hnone]
  rfl

/-- A device of its own, or none is left. -/
theorem device_or_none (adapters fresh : List GpuAdapter) (i : ℕ) (adapter : GpuAdapter) :
    (∃ k device, fresh[k]? = some device ∧ device.shape = adapter.shape ∧
      placeOf fresh k device = placeOf adapters i adapter) ∨
    numberOf fresh adapter ≤ placeOf adapters i adapter := by
  by_cases hlt : placeOf adapters i adapter < numberOf fresh adapter
  · obtain ⟨k, device, hk, hshape, hrank⟩ := exists_of_lt_length_ofKey hlt
    exact .inl ⟨k, device, hk, hshape, by rw [placeOf, hshape, hrank]⟩
  · exact .inr (not_lt.mp hlt)

/-- The LUIDs of a list are pairwise distinct. -/
def Distinct (l : List GpuAdapter) : Prop := (l.map GpuAdapter.luid).Nodup

instance (l : List GpuAdapter) : Decidable (Distinct l) :=
  inferInstanceAs (Decidable (l.map GpuAdapter.luid).Nodup)

theorem distinct_iff {l : List GpuAdapter} :
    Distinct l ↔ ∀ (i j : ℕ) luid, l[i]?.map GpuAdapter.luid = some luid →
      l[j]?.map GpuAdapter.luid = some luid → i = j := by
  simp only [← List.getElem?_map]
  constructor
  · intro h i j luid hi hj
    exact (List.getElem?_inj (List.getElem?_eq_some_iff.mp hi).1 h).mp (hi.trans hj.symm)
  · intro h
    refine List.nodup_iff_injective_get.mpr fun i j hij => Fin.ext ?_
    have hj := List.getElem?_eq_getElem j.isLt
    exact h i j _ (List.getElem?_eq_getElem i.isLt) (hj.trans (congrArg some hij.symm))

/-- An adapter whose LUID a fresh one of its name and shape has keeps it. -/
def Stays (adapters fresh after : List GpuAdapter) : Prop :=
  ∀ (i : Fin adapters.length), ∀ device ∈ fresh, device.luid = (adapters.get i).luid →
    (adapters.get i).matches device = true →
    after[i.val]?.map GpuAdapter.luid = some (adapters.get i).luid

instance (adapters fresh after : List GpuAdapter) : Decidable (Stays adapters fresh after) :=
  inferInstanceAs (Decidable (∀ _, _))

/-- Where an adapter and a fresh one have the same LUID: if they are of the same name and shape, they
have the same place among those; if not, a device is left for the adapter, or none of the adapters
takes the fresh one. -/
def InPlace (adapters fresh : List GpuAdapter) : Prop :=
  ∀ (i : Fin adapters.length) (k : Fin fresh.length),
    (adapters.get i).luid = (fresh.get k).luid →
    if (adapters.get i).matches (fresh.get k)
    then placeOf adapters i (adapters.get i) = placeOf fresh k (fresh.get k)
    else placeOf adapters i (adapters.get i) < numberOf fresh (adapters.get i) ∨
      numberOf adapters (fresh.get k) ≤ placeOf fresh k (fresh.get k)

instance (adapters fresh : List GpuAdapter) : Decidable (InPlace adapters fresh) :=
  inferInstanceAs (Decidable (∀ _, _))

theorem inPlace_iff :
    InPlace adapters fresh ↔ ∀ i k adapter device, adapters[i]? = some adapter →
      fresh[k]? = some device → adapter.luid = device.luid →
      (device.shape = adapter.shape → placeOf adapters i adapter = placeOf fresh k device) ∧
      (device.shape ≠ adapter.shape → placeOf adapters i adapter < numberOf fresh adapter ∨
        numberOf adapters device ≤ placeOf fresh k device) := by
  constructor
  · intro h i k adapter device hi hk hluid
    obtain ⟨hlt, rfl⟩ := List.getElem?_eq_some_iff.mp hi
    obtain ⟨hkt, rfl⟩ := List.getElem?_eq_some_iff.mp hk
    have hik := h ⟨i, hlt⟩ ⟨k, hkt⟩ hluid
    simp only [matches_iff, decide_eq_true_eq, List.get_eq_getElem] at hik
    split at hik
    · next hshape => exact ⟨fun _ => hik, fun hne => absurd hshape hne⟩
    · next hshape => exact ⟨fun heq => absurd heq hshape, fun _ => hik⟩
  · intro h i k hluid
    obtain ⟨hsame, hother⟩ := h i k _ _ (List.getElem?_eq_getElem i.isLt)
      (List.getElem?_eq_getElem k.isLt) hluid
    simp only [matches_iff, decide_eq_true_eq]
    split
    · next hshape => exact hsame hshape
    · next hshape => exact hother hshape

theorem stays_iff {after : List GpuAdapter} :
    Stays adapters fresh after ↔ ∀ (i k : ℕ) adapter device, adapters[i]? = some adapter →
      fresh[k]? = some device → adapter.luid = device.luid → device.shape = adapter.shape →
      after[i]?.map GpuAdapter.luid = some adapter.luid := by
  constructor
  · intro h i k adapter device hi hk hluid hshape
    obtain ⟨hlt, rfl⟩ := List.getElem?_eq_some_iff.mp hi
    exact h ⟨i, hlt⟩ device (List.mem_of_getElem? hk) hluid.symm
      ((matches_iff _ _).trans (decide_eq_true hshape))
  · intro h i device hmem hluid hmatches
    obtain ⟨k, hk⟩ := List.mem_iff_getElem?.mp hmem
    rw [matches_iff] at hmatches
    exact h i k _ device (List.getElem?_eq_getElem i.isLt) hk hluid.symm
      (of_decide_eq_true hmatches)

/-- Devices of the same LUID are the same. -/
theorem device_inj (hfresh : Distinct fresh) {k' : ℕ} {device' : GpuAdapter}
    (hk : fresh[k]? = some device) (hk' : fresh[k']? = some device')
    (hluid : device.luid = device'.luid) : k = k' ∧ device = device' := by
  obtain rfl := distinct_iff.mp hfresh k k' device.luid (by rw [hk]; rfl)
    (by rw [hk', hluid]; rfl)
  exact ⟨rfl, Option.some.inj (hk.symm.trans hk')⟩

theorem stays_of_inPlace (h : InPlace adapters fresh) :
    Stays adapters fresh (remapLuids adapters fresh) := by
  refine stays_iff.mpr fun i k adapter device hi hk hluid hshape => ?_
  rw [hluid]
  exact luid_of_place hi hk hshape ((inPlace_iff.mp h i k _ _ hi hk hluid).1 hshape).symm

/-- An adapter without a device has no LUID that another takes. -/
theorem luid_ne_of_inPlace (h : InPlace adapters fresh) {adapter' : GpuAdapter}
    (hi : adapters[i]? = some adapter) (hj : adapters[j]? = some adapter')
    (hk : fresh[k]? = some device) (hshape : device.shape = adapter.shape)
    (hplace : placeOf fresh k device = placeOf adapters i adapter)
    (hnone : numberOf fresh adapter' ≤ placeOf adapters j adapter') :
    adapter'.luid ≠ device.luid := by
  intro hluid
  obtain ⟨hsame, hother⟩ := inPlace_iff.mp h j k _ _ hj hk hluid
  by_cases hshape' : device.shape = adapter'.shape
  · -- the device is one of the adapter's own
    have hlt : placeOf fresh k device < numberOf fresh device := rank_lt_length_ofKey hk
    rw [← hsame hshape', numberOf_congr hshape'] at hlt
    exact absurd hlt (not_lt.mpr hnone)
  · cases hother hshape' with
    | inl hlt => exact absurd hlt (not_lt.mpr hnone)
    | inr hle =>
      have hlt : placeOf adapters i adapter < numberOf adapters adapter :=
        rank_lt_length_ofKey hi
      rw [← hplace, numberOf_congr hshape.symm] at hlt
      exact absurd hlt (not_lt.mpr hle)

theorem distinct_of_inPlace (h : InPlace adapters fresh) (hadapters : Distinct adapters)
    (hfresh : Distinct fresh) : Distinct (remapLuids adapters fresh) := by
  refine distinct_iff.mpr fun i j luid hi hj => ?_
  obtain ⟨adapter, hai⟩ : ∃ adapter, adapters[i]? = some adapter := by
    rw [getElem?_remapLuids, Option.map_map] at hi
    obtain ⟨adapter, hai, -⟩ := Option.map_eq_some_iff.mp hi
    exact ⟨adapter, hai⟩
  obtain ⟨adapter', haj⟩ : ∃ adapter, adapters[j]? = some adapter := by
    rw [getElem?_remapLuids, Option.map_map] at hj
    obtain ⟨adapter, haj, -⟩ := Option.map_eq_some_iff.mp hj
    exact ⟨adapter, haj⟩
  obtain ⟨k, device, hk, hshape, hplace⟩ | hnone := device_or_none adapters fresh i adapter
  · rw [luid_of_place hai hk hshape hplace] at hi
    obtain ⟨k', device', hk', hshape', hplace'⟩ | hnone' :=
      device_or_none adapters fresh j adapter'
    · rw [luid_of_place haj hk' hshape' hplace'] at hj
      obtain ⟨rfl, rfl⟩ := device_inj hfresh hk hk' (Option.some.inj (hi.trans hj.symm))
      have hshapes : adapter.shape = adapter'.shape := hshape.symm.trans hshape'
      refine rank_inj hai haj hshapes ?_
      calc placeOf adapters i adapter = placeOf adapters j adapter' := hplace.symm.trans hplace'
        _ = placeOf adapters j adapter := (placeOf_congr hshapes adapters j).symm
    · rw [luid_of_none haj hnone'] at hj
      exact absurd (Option.some.inj (hj.trans hi.symm))
        (luid_ne_of_inPlace h hai haj hk hshape hplace hnone')
  · rw [luid_of_none hai hnone] at hi
    obtain ⟨k', device', hk', hshape', hplace'⟩ | hnone' :=
      device_or_none adapters fresh j adapter'
    · rw [luid_of_place haj hk' hshape' hplace'] at hj
      exact absurd (Option.some.inj (hi.trans hj.symm))
        (luid_ne_of_inPlace h haj hai hk' hshape' hplace' hnone)
    · rw [luid_of_none haj hnone'] at hj
      refine distinct_iff.mp hadapters i j luid ?_ ?_
      · rw [hai]; exact hi
      · rw [haj]; exact hj

/-- A device that some adapter takes is no other adapter's old LUID. -/
theorem inPlace_of_keeps (hfresh : Distinct fresh)
    (hdistinct : Distinct (remapLuids adapters fresh))
    (hstays : Stays adapters fresh (remapLuids adapters fresh)) : InPlace adapters fresh := by
  refine inPlace_iff.mpr fun i k adapter device hi hk hluid => ?_
  have htaken : ∀ hnone : numberOf fresh adapter ≤ placeOf adapters i adapter,
      placeOf fresh k device < numberOf adapters device →
      ∃ j adapter', adapters[j]? = some adapter' ∧ adapter'.shape = device.shape ∧
        placeOf adapters j adapter' = placeOf fresh k device ∧ i = j := by
    intro hnone hlt
    obtain ⟨j, adapter', hj, hshape, hrank⟩ := exists_of_lt_length_ofKey hlt
    have hplace : placeOf adapters j adapter' = placeOf fresh k device := by
      rw [placeOf, hshape, hrank]
    refine ⟨j, adapter', hj, hshape, hplace, ?_⟩
    refine distinct_iff.mp hdistinct i j adapter.luid (luid_of_none hi hnone) ?_
    rw [hluid]
    exact luid_of_place hj hk hshape.symm hplace.symm
  constructor
  · intro hshape
    obtain ⟨k', device', hk', hshape', hplace'⟩ | hnone := device_or_none adapters fresh i adapter
    · have hown := stays_iff.mp hstays i k _ _ hi hk hluid hshape
      rw [luid_of_place hi hk' hshape' hplace', hluid] at hown
      obtain ⟨rfl, rfl⟩ := device_inj hfresh hk' hk (Option.some.inj hown)
      exact hplace'.symm
    · have hltFresh : placeOf fresh k device < numberOf fresh device := rank_lt_length_ofKey hk
      have hlt : placeOf adapters i adapter < numberOf adapters adapter := rank_lt_length_ofKey hi
      rw [numberOf_congr hshape] at hltFresh
      obtain ⟨j, adapter', hj, -, hplace, rfl⟩ := htaken hnone (by
        rw [numberOf_congr hshape]
        omega)
      cases hi.symm.trans hj
      exact hplace
  · intro hshape
    by_contra hneither
    rw [not_or, not_lt, not_le] at hneither
    obtain ⟨j, adapter', hj, hshape', -, rfl⟩ := htaken hneither.1 hneither.2
    cases hi.symm.trans hj
    exact hshape hshape'.symm

end Step

/-- What a call should do. -/
def KeepsDevices (adapters fresh : List GpuAdapter) : Prop :=
  Distinct (remapLuids adapters fresh) ∧ Stays adapters fresh (remapLuids adapters fresh)

theorem keepsDevices_iff {adapters fresh : List GpuAdapter} (hadapters : Distinct adapters)
    (hfresh : Distinct fresh) : KeepsDevices adapters fresh ↔ InPlace adapters fresh :=
  ⟨fun h => inPlace_of_keeps hfresh h.1 h.2,
    fun h => ⟨distinct_of_inPlace h hadapters hfresh, stays_of_inPlace h⟩⟩

/-! ## runs -/

/-- **Every call keeps the LUIDs distinct and leaves those that are still right** just if every call
finds the adapters in place. -/
theorem remapLuids_keeps_devices_iff (adapters : List GpuAdapter) (calls : List (List GpuAdapter))
    (hadapters : Distinct adapters) (hcalls : ∀ fresh ∈ calls, Distinct fresh) :
    (∀ before fresh after, calls = before ++ fresh :: after →
      KeepsDevices (run remapLuids adapters before) fresh) ↔
    Along remapLuids InPlace adapters calls := by
  rw [← along_iff]
  have hdistinct : Along remapLuids (fun _ fresh => Distinct fresh) adapters calls :=
    along_of_forall hcalls
  constructor
  · intro h
    refine (hdistinct.and h).mono_of_invariant Distinct ?_ ?_ hadapters
    · exact fun s fresh hs hok => hok.2.1
    · exact fun s fresh hs hok => (keepsDevices_iff hs hok.1).mp hok.2
  · intro h
    refine (hdistinct.and h).mono_of_invariant Distinct ?_ ?_ hadapters
    · exact fun s fresh hs hok => distinct_of_inPlace hok.2 hs hok.1
    · exact fun s fresh hs hok => (keepsDevices_iff hs hok.1).mpr hok.2

/-- An adapter of one node and one segment. -/
def plain (low : UInt32) (name : WString) : GpuAdapter where
  luid := ⟨low, 0⟩
  name := name
  engines := [wide "3D"]
  nodeEngine := [0]
  apertureSegments := [false]

/-- The second of two cards restarts, and is listed first. -/
theorem remapLuids_restarted :
    let adapters := [plain 1 (wide "A"), plain 2 (wide "B")]
    let calls := [[plain 3 (wide "B"), plain 1 (wide "A")], [plain 1 (wide "A")]]
    Distinct adapters ∧ (∀ fresh ∈ calls, Distinct fresh) ∧
    Along remapLuids InPlace adapters calls ∧
    ∀ before fresh after, calls = before ++ fresh :: after →
      KeepsDevices (run remapLuids adapters before) fresh := by
  intro adapters calls
  have hadapters : Distinct adapters := by decide
  have hcalls : ∀ fresh ∈ calls, Distinct fresh := by decide
  have hplace : Along remapLuids InPlace adapters calls := by decide
  exact ⟨hadapters, hcalls, hplace,
    (remapLuids_keeps_devices_iff adapters calls hadapters hcalls).mpr hplace⟩

/-- The first of two cards of one kind goes away: both adapters are the second card. -/
theorem remapLuids_twice :
    let adapters := [plain 1 (wide "A"), plain 2 (wide "A")]
    let fresh := [plain 2 (wide "A")]
    Distinct adapters ∧ Distinct fresh ∧
    (remapLuids adapters fresh).map GpuAdapter.luid = [⟨2, 0⟩, ⟨2, 0⟩] ∧
    ¬ KeepsDevices adapters fresh := by
  have hluids : (remapLuids [plain 1 (wide "A"), plain 2 (wide "A")] [plain 2 (wide "A")]).map
      GpuAdapter.luid = [⟨2, 0⟩, ⟨2, 0⟩] := by decide
  refine ⟨by decide, by decide, hluids, fun h => ?_⟩
  have hnodup := h.1
  rw [Distinct, hluids] at hnodup
  exact absurd hnodup (by decide)

end WinSys.Gpu
