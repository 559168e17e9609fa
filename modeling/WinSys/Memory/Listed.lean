import WinSys.Memory.Collected

/-!
# The strings found are the maximal runs

What is to be listed are the maximal runs of text in the maximal readable ranges, of bytes and of
units at even addresses. `findStrings` scans the units from a range's start on, counts in 32 bits,
and ends both runs behind each range. It lists what is to be listed exactly if none of these matter.

* `Process.Listed`: a run that is to be listed
* `Process.Scannable`: the condition
* `Process.findStrings_iff`: it is exact
-/

namespace WinSys.Memory

open Infra

/-- A run, with its full length and its first characters -/
structure TextRun where
  address : ℕ
  length : ℕ
  wide : Bool
  text : List UInt16
deriving DecidableEq

def MemoryString.toTextRun (s : MemoryString) : TextRun where
  address := s.address
  length := s.length.toNat
  wide := s.wide
  text := s.text

namespace Process

section Spec

variable (p : Process) (options : StringScanOptions) (start stop : ℕ)

/-- A long enough run of a readable range; wide strings are at even addresses. -/
def Listed (x : TextRun) : Prop :=
  ∃ a n u, MaximalRun p.Readable start stop a n ∧ p.RunIn options x.wide 0 a (a + n) u x.length
    ∧ options.minLength.toNat ≤ x.length ∧ x.address = unitAt x.wide 0 u
    ∧ x.text = (p.textFrom x.wide 0 u x.length).take options.maxText.toNat

/-- Exactly the runs are listed, each once, in address order. -/
structure Lists (results : List MemoryString) : Prop where
  sorted : results.Pairwise (·.address ≤ ·.address)
  once : (results.map MemoryString.toTextRun).Nodup
  mem : ∀ x, x ∈ results.map MemoryString.toTextRun ↔ p.Listed options start stop x

/-- No run's length wraps, no empty run is long enough unless each range ends in a run of each kind,
and no range with wide strings begins at an odd address. -/
structure Scannable : Prop where
  short : ∀ x, p.Listed options start stop x → x.length < 2 ^ 32
  ends : options.ascii = true ∨ options.unicode = true → options.minLength = 0 →
    ∀ a n, MaximalRun p.Readable start stop a n →
      ∀ wide, ∃ u k, p.RunIn options wide 0 a (a + n) u k ∧ u + k = endUnit wide 0 (a + n)
  /-- Units at even addresses are not found, and what is found of the others is no string. -/
  even : options.unicode = true → ∀ a n, MaximalRun p.Readable start stop a n → a % 2 = 1 →
    options.minLength ≠ 0
      ∧ (∀ u k, p.RunIn options true 0 a (a + n) u k → k < options.minLength.toNat)
      ∧ ∀ u k, p.RunIn options true 1 a (a + n) u k → k % 2 ^ 32 < options.minLength.toNat

/-! ## the runs as a list -/

def runsIn (wide : Bool) (odd a b : ℕ) : List (ℕ × ℕ) :=
  runs (p.IsText options wide odd) (firstUnit wide odd a) (endUnit wide odd b - firstUnit wide odd a)

def textRun (wide : Bool) (r : ℕ × ℕ) : TextRun where
  address := unitAt wide 0 r.1
  length := r.2
  wide
  text := (p.textFrom wide 0 r.1 r.2).take options.maxText.toNat

def listingOf (range : ℕ × ℕ) (wide : Bool) : List TextRun :=
  ((p.runsIn options wide 0 range.1 (range.1 + range.2)).filter
    (options.minLength.toNat ≤ ·.2)).map (p.textRun options wide)

def listing : List TextRun :=
  (runs p.Readable start (stop - start)).flatMap fun range => kinds (p.listingOf options range)

end Spec

variable {p : Process} {options : StringScanOptions} {start stop : ℕ} {wide : Bool} {odd a n u k : ℕ}

theorem firstUnit_le_endUnit (h : 0 < n) : firstUnit wide odd a ≤ endUnit wide odd (a + n) := by
  cases wide with
  | false => exact Nat.le_add_right _ _
  | true =>
    simp only [firstUnit, endUnit, if_true]
    omega

theorem mem_runsIn (h : 0 < n) :
    (u, k) ∈ p.runsIn options wide odd a (a + n) ↔ p.RunIn options wide odd a (a + n) u k := by
  rw [runsIn, mem_runs_iff, Nat.add_sub_cancel' (firstUnit_le_endUnit h)]
  rfl

theorem mem_ranges (hlt : start < stop) :
    (a, n) ∈ runs p.Readable start (stop - start) ↔ MaximalRun p.Readable start stop a n := by
  rw [mem_runs_iff, Nat.add_sub_cancel' hlt.le]

/-- A run is in its range. -/
theorem RunIn.place (h : p.RunIn options wide odd a (a + n) u k) (ho : odd ≤ 1) (hn : 0 < n) {v : ℕ}
    (hv : u ≤ v) (hlt : v < u + k) :
    a ≤ unitAt wide odd v ∧ unitAt wide odd v < a + n := by
  have hlower := h.lower
  have hupper := h.upper
  cases wide with
  | false =>
    simp only [firstUnit, endUnit, unitAt, Bool.false_eq_true, if_false] at *
    omega
  | true =>
    simp only [firstUnit, endUnit, unitAt, if_true] at *
    omega

theorem mem_listingOf {x : TextRun} (hn : 0 < n) :
    x ∈ p.listingOf options (a, n) wide ↔
      ∃ u, p.RunIn options wide 0 a (a + n) u x.length ∧ options.minLength.toNat ≤ x.length
        ∧ x = p.textRun options wide (u, x.length) := by
  simp only [listingOf, List.mem_map, List.mem_filter, decide_eq_true_eq, Prod.exists]
  constructor
  · rintro ⟨u, k, ⟨hrun, hmin⟩, rfl⟩
    exact ⟨u, (mem_runsIn hn).mp hrun, hmin, rfl⟩
  · rintro ⟨u, hrun, hmin, hx⟩
    exact ⟨u, x.length, ⟨(mem_runsIn hn).mpr hrun, hmin⟩, hx.symm⟩

theorem mem_kinds {α : Type*} {f : Bool → List α} {x : α} : x ∈ kinds f ↔ ∃ wide, x ∈ f wide := by
  rw [kinds, List.mem_append, Bool.exists_bool]

theorem mem_listing (hlt : start < stop) {x : TextRun} :
    x ∈ p.listing options start stop ↔ p.Listed options start stop x := by
  simp only [listing, List.mem_flatMap, Prod.exists, mem_kinds]
  constructor
  · rintro ⟨a, n, hrange, wide, hx⟩
    have hrun := (mem_ranges hlt).mp hrange
    obtain ⟨u, hu, hmin, hx'⟩ := (mem_listingOf hrun.pos).mp hx
    have hwide : x.wide = wide := congrArg TextRun.wide hx'
    subst hwide
    exact ⟨a, n, u, hrun, hu, hmin, congrArg TextRun.address hx', congrArg TextRun.text hx'⟩
  · rintro ⟨a, n, u, hrun, hu, hmin, haddress, htext⟩
    refine ⟨a, n, (mem_ranges hlt).mpr hrun, x.wide, (mem_listingOf hrun.pos).mpr ⟨u, hu, hmin, ?_⟩⟩
    rw [textRun, ← haddress, ← htext]

/-! ## each run once -/

theorem textRun_place {x : TextRun} (hn : 0 < n) (h : x ∈ p.listingOf options (a, n) wide) :
    x.wide = wide ∧ a ≤ x.address ∧ x.address < a + n := by
  obtain ⟨u, hrun, -, hx⟩ := (mem_listingOf hn).mp h
  have hpos := hrun.pos
  have haddress : x.address = unitAt wide 0 u := congrArg TextRun.address hx
  rw [haddress]
  exact ⟨congrArg TextRun.wide hx, hrun.place (by omega) hn (Nat.le_refl _) (by omega)⟩

theorem unitAt_injective {u v : ℕ} (h : unitAt wide odd u = unitAt wide odd v) : u = v := by
  cases wide with
  | false => exact h
  | true =>
    simp only [unitAt, if_true] at h
    omega

theorem nodup_listingOf {range : ℕ × ℕ} : (p.listingOf options range wide).Nodup := by
  refine List.pairwise_map.mpr ((pairwise_runs.sublist List.filter_sublist).imp ?_)
  intro r r' hlt heq
  have hplace := unitAt_injective (congrArg TextRun.address heq)
  omega

theorem nodup_listing : (p.listing options start stop).Nodup := by
  refine List.nodup_flatMap.mpr ⟨fun range hrange => ?_, pairwise_runs.imp_of_mem ?_⟩
  · have hn := (mem_runs_iff.mp hrange).pos
    refine nodup_listingOf.append nodup_listingOf fun x hfalse htrue => ?_
    have hwide := (textRun_place hn hfalse).1
    rw [(textRun_place hn htrue).1] at hwide
    cases hwide
  · rintro ⟨a, n⟩ ⟨a', n'⟩ hrange hrange' hlt x hx hx'
    obtain ⟨wide, hx⟩ := mem_kinds.mp hx
    obtain ⟨wide', hx'⟩ := mem_kinds.mp hx'
    have hplace := textRun_place (mem_runs_iff.mp hrange).pos hx
    have hplace' := textRun_place (mem_runs_iff.mp hrange').pos hx'
    simp only at hlt
    omega

/-! ## what a range's scan gives -/

variable (p options) in
/-- A kind's own scan of a range -/
def scanIn (range : ℕ × ℕ) (wide : Bool) : List MemoryString :=
  p.scan options wide (range.1 % 2) (firstUnit wide (range.1 % 2) range.1)
    (endUnit wide (range.1 % 2) (range.1 + range.2) - firstUnit wide (range.1 % 2) range.1)

/-- A range whose strings are at even addresses is listed as it is scanned. -/
theorem scanIn_eq (hn : 0 < n) (heven : wide = true → a % 2 = 0)
    (hshort : ∀ x ∈ p.listingOf options (a, n) wide, x.length < 2 ^ 32)
    (hend : options.minLength = 0 →
      ∃ u k, p.RunIn options wide 0 a (a + n) u k ∧ u + k = endUnit wide 0 (a + n)) :
    (p.scanIn options (a, n) wide).map MemoryString.toTextRun = p.listingOf options (a, n) wide := by
  have hparity : p.scanIn options (a, n) wide = p.scan options wide 0 (firstUnit wide 0 a)
      (endUnit wide 0 (a + n) - firstUnit wide 0 a) := by
    cases wide with
    | false =>
      simp only [scanIn, scan]
      rw [scanUnits_false (a % 2) 0]
      rfl
    | true => rw [scanIn, heven rfl]
  have hfirst := @firstUnit_le_endUnit wide 0 a n hn
  have hshort' : ∀ r ∈ p.runsIn options wide 0 a (a + n), r.2 < 2 ^ 32 := by
    rintro ⟨u, k⟩ hr
    by_cases hmin : options.minLength.toNat ≤ k
    · exact hshort (p.textRun options wide (u, k))
        ((mem_listingOf hn).mpr ⟨u, (mem_runsIn hn).mp hr, hmin, rfl⟩)
    · have hlt := options.minLength.toNat_lt
      simp only
      omega
  rw [hparity, scan_eq hshort' fun hmin hzero => ?_]
  · rw [List.map_map, listingOf]
    refine List.map_congr_left fun r hr => ?_
    have hr' := hshort' r (List.mem_of_mem_filter hr)
    simp only [Function.comp_apply, MemoryString.toTextRun, entry, textRun, UInt32.toNat_ofNat',
      Nat.mod_eq_of_lt hr']
  · obtain ⟨u, k, hrun, hlast⟩ := hend hmin
    rw [← Nat.add_sub_cancel' hfirst] at hlast
    unfold RunIn at hrun
    rw [← Nat.add_sub_cancel' hfirst] at hrun
    exact (openRun_iff.mp ⟨hrun, hlast⟩).1 hzero

/-- What is kept of a range is in it, and where its strings begin. -/
theorem mem_scanIn {x : MemoryString} (hn : 0 < n) (h : x ∈ p.scanIn options (a, n) wide)
    (hne : x.length ≠ 0) :
    x.wide = wide ∧ (wide = true → x.address % 2 = a % 2) ∧ a ≤ x.address ∧ x.address < a + n
      ∧ ∃ u k, p.RunIn options wide (a % 2) a (a + n) u k
        ∧ options.minLength.toNat ≤ k % 2 ^ 32 := by
  obtain ⟨u, k, hrun, hzero, hmin, haddress, hwide⟩ := mem_scan h hne
  have hrun' := (mem_runsIn hn).mp hrun
  have hle := Nat.mod_le k (2 ^ 32)
  obtain ⟨hlo, hhi⟩ := hrun'.place (v := u + k - k % 2 ^ 32) (by omega) hn (by omega) (by omega)
  rw [haddress]
  refine ⟨hwide, fun hw => ?_, hlo, hhi, u, k, hrun', hmin⟩
  rw [hw, unitAt, if_pos rfl]
  omega

/-! ## the condition is enough -/

theorem Scannable.scanIn_eq (h : p.Scannable options start stop)
    (hscans : options.ascii = true ∨ options.unicode = true)
    (hrange : MaximalRun p.Readable start stop a n) (wide : Bool) :
    (p.scanIn options (a, n) wide).map MemoryString.toTextRun
      = p.listingOf options (a, n) wide := by
  have hn := hrange.pos
  by_cases heven : wide = true → a % 2 = 0
  · refine Process.scanIn_eq hn heven (fun x hx => ?_) fun hmin => h.ends hscans hmin a n hrange wide
    obtain ⟨u, hrun, hmin, hx'⟩ := (mem_listingOf hn).mp hx
    have hwide : x.wide = wide := congrArg TextRun.wide hx'
    subst hwide
    exact h.short x ⟨a, n, u, hrange, hrun, hmin, congrArg TextRun.address hx',
      congrArg TextRun.text hx'⟩
  · obtain ⟨rfl, hodd⟩ := Classical.not_imp.mp heven
    have hodd' : a % 2 = 1 := by omega
    -- neither the units that are scanned nor the ones to be listed are long enough runs
    have hnone : options.minLength ≠ 0
        ∧ (∀ u k, p.RunIn options true 0 a (a + n) u k → k < options.minLength.toNat)
        ∧ ∀ u k, p.RunIn options true 1 a (a + n) u k → k % 2 ^ 32 < options.minLength.toNat := by
      cases hunicode : options.unicode with
      | true => exact h.even hunicode a n hrange hodd'
      | false =>
        have hrun : ∀ odd u k, ¬p.RunIn options true odd a (a + n) u k := by
          intro odd u k hrun
          have htext := (hrun.all u (Nat.le_refl _) (Nat.lt_add_of_pos_right hrun.pos)).1
          simp [StringScanOptions.scans, hunicode] at htext
        refine ⟨fun hmin => ?_, fun u k h => absurd h (hrun 0 u k), fun u k h => absurd h (hrun 1 u k)⟩
        obtain ⟨u, k, hlast, -⟩ := h.ends hscans hmin a n hrange true
        exact hrun 0 u k hlast
    obtain ⟨hmin, hlisted, hscanned⟩ := hnone
    have hscan : p.scanIn options (a, n) true = [] := by
      refine List.eq_nil_iff_forall_not_mem.mpr fun x hx => ?_
      have hlength : x.length ≠ 0 := by
        intro hzero
        have hle := le_length_of_mem_scan hx
        rw [hzero] at hle
        exact hmin (UInt32.toNat_inj.mp (Nat.le_zero.mp hle))
      obtain ⟨-, -, -, -, u, k, hrun, hlong⟩ := mem_scanIn hn hx hlength
      rw [hodd'] at hrun
      exact absurd hlong (Nat.not_le.mpr (hscanned u k hrun))
    have hlisting : p.listingOf options (a, n) true = [] := by
      refine List.eq_nil_iff_forall_not_mem.mpr fun x hx => ?_
      obtain ⟨u, hrun, hlong, -⟩ := (mem_listingOf hn).mp hx
      exact absurd hlong (Nat.not_le.mpr (hlisted u _ hrun))
    rw [hscan, hlisting]
    rfl

theorem Scannable.scan_eq (h : p.Scannable options start stop) (hlt : start < stop)
    (hscans : options.ascii = true ∨ options.unicode = true) :
    (((runs p.Readable start (stop - start)).map toRange).flatMap (p.scanOf options)).map
      MemoryString.toTextRun = p.listing options start stop := by
  rw [List.flatMap_map, List.map_flatMap, listing]
  refine List.flatMap_congr fun range hrange => ?_
  have hkind := h.scanIn_eq hscans ((mem_ranges hlt).mp hrange)
  rw [kinds, ← hkind, ← hkind, ← List.map_append]
  rfl

theorem pairwise_sortByAddress (results : List MemoryString) :
    (sortByAddress results).Pairwise (·.address ≤ ·.address) := by
  refine (List.pairwise_mergeSort ?_ ?_ results).imp fun h => of_decide_eq_true h
  · intro a b c hab hbc
    exact decide_eq_true ((of_decide_eq_true hab).trans (of_decide_eq_true hbc))
  · intro a b
    obtain h | h := Nat.le_total a.address b.address
    · simp [h]
    · simp [h]

/-- Results that are what is to be listed -/
theorem lists_iff (hlt : start < stop) (results : List MemoryString) :
    p.Lists options start stop (sortByAddress results)
      ↔ (results.map MemoryString.toTextRun).Perm (p.listing options start stop) := by
  have hperm := (List.mergeSort_perm results fun a b => a.address ≤ b.address).map
    MemoryString.toTextRun
  constructor
  · intro h
    refine hperm.symm.trans ((List.perm_ext_iff_of_nodup h.once nodup_listing).mpr fun x => ?_)
    rw [mem_listing hlt]
    exact h.mem x
  · intro h
    have hall := hperm.trans h
    refine ⟨pairwise_sortByAddress results, hall.nodup_iff.mpr nodup_listing, fun x => ?_⟩
    rw [← mem_listing hlt]
    exact hall.mem_iff

/-! ## the condition is necessary -/

variable (p options start stop) in
/-- What is scanned is what is to be listed. -/
structure Exact : Prop where
  lt : start < stop
  perm : ((((runs p.Readable start (stop - start)).map toRange).flatMap (p.scanOf options)).map
    MemoryString.toTextRun).Perm (p.listing options start stop)

namespace Exact

theorem listed (h : p.Exact options start stop) (hrange : MaximalRun p.Readable start stop a n)
    {x : MemoryString} (hx : x ∈ p.scanIn options (a, n) wide) :
    p.Listed options start stop x.toTextRun ∧ x.length ≠ 0 := by
  have hlisted : p.Listed options start stop x.toTextRun := by
    refine (mem_listing h.lt).mp (h.perm.mem_iff.mp (List.mem_map_of_mem ?_))
    refine List.mem_flatMap.mpr
      ⟨toRange (a, n), List.mem_map_of_mem ((mem_ranges h.lt).mpr hrange), ?_⟩
    exact mem_kinds.mpr ⟨wide, hx⟩
  obtain ⟨_, _, _, -, hrun, -⟩ := id hlisted
  refine ⟨hlisted, fun hzero => ?_⟩
  have hpos : 0 < x.length.toNat := hrun.pos
  rw [hzero] at hpos
  exact absurd hpos (by decide)

/-- What is to be listed is scanned. -/
theorem scanned (h : p.Exact options start stop) {x : TextRun}
    (hx : p.Listed options start stop x) :
    ∃ a n wide, MaximalRun p.Readable start stop a n
      ∧ ∃ y ∈ p.scanIn options (a, n) wide, y.toTextRun = x := by
  obtain ⟨y, hy, rfl⟩ := List.mem_map.mp (h.perm.mem_iff.mpr ((mem_listing h.lt).mpr hx))
  obtain ⟨range, hrange, hy⟩ := List.mem_flatMap.mp hy
  obtain ⟨⟨a, n⟩, hrun, rfl⟩ := List.mem_map.mp hrange
  obtain ⟨wide, hy⟩ := mem_kinds.mp hy
  exact ⟨a, n, wide, (mem_ranges h.lt).mp hrun, y, hy, rfl⟩

/-- The units at odd addresses are not to be listed. -/
theorem scanIn_odd (h : p.Exact options start stop)
    (hrange : MaximalRun p.Readable start stop a n) (hodd : a % 2 = 1) :
    p.scanIn options (a, n) true = [] := by
  refine List.eq_nil_iff_forall_not_mem.mpr fun x hx => ?_
  obtain ⟨⟨_, _, u, -, -, -, haddress, -⟩, hne⟩ := h.listed hrange hx
  obtain ⟨hwide, hplace, -⟩ := mem_scanIn hrange.pos hx hne
  have heven : x.address = unitAt x.wide 0 u := haddress
  rw [hwide, unitAt, if_pos rfl] at heven
  have hparity := hplace rfl
  omega

/-- If the empty run is long enough, no range ends in it. -/
theorem ends (h : p.Exact options start stop) (hmin : options.minLength = 0)
    (hrange : MaximalRun p.Readable start stop a n) (wide : Bool) :
    ∃ u k, p.RunIn options wide 0 a (a + n) u k ∧ u + k = endUnit wide 0 (a + n) := by
  have hlast : ∃ u k, p.RunIn options wide (a % 2) a (a + n) u k
      ∧ u + k = endUnit wide (a % 2) (a + n) := by
    have hfirst := @firstUnit_le_endUnit wide (a % 2) a n hrange.pos
    have hopen : openRun (p.IsText options wide (a % 2)) (firstUnit wide (a % 2) a)
        (endUnit wide (a % 2) (a + n) - firstUnit wide (a % 2) a) ≠ 0 := by
      intro hzero
      obtain ⟨x, hx, hlength⟩ := exists_mem_scan_of_empty (p := p) hmin
        (by rw [hzero, Nat.zero_mod])
      have hx' : x ∈ p.scanIn options (a, n) wide := hx
      exact (h.listed hrange hx').2 hlength
    have hrun := openRun_iff.mpr ⟨hopen, rfl, rfl⟩
    rw [Nat.add_sub_cancel' hfirst] at hrun
    exact ⟨_, _, hrun⟩
  cases wide with
  | false => exact hlast
  | true =>
    obtain heven | hodd := Nat.mod_two_eq_zero_or_one a
    · rwa [heven] at hlast
    · exact absurd (h.scanIn_odd hrange hodd) (scan_ne_nil hmin)

theorem even (h : p.Exact options start stop) (hrange : MaximalRun p.Readable start stop a n)
    (hodd : a % 2 = 1) :
    options.minLength ≠ 0
      ∧ (∀ u k, p.RunIn options true 0 a (a + n) u k → k < options.minLength.toNat)
      ∧ ∀ u k, p.RunIn options true 1 a (a + n) u k → k % 2 ^ 32 < options.minLength.toNat := by
  have hnil := h.scanIn_odd hrange hodd
  have hmin : options.minLength ≠ 0 := fun hmin => scan_ne_nil hmin hnil
  refine ⟨hmin, fun u k hrun => ?_, fun u k hrun => ?_⟩
  · by_contra hlong
    obtain ⟨a', n', wide, hrange', y, hy, heq⟩ := h.scanned (x := p.textRun options true (u, k))
      ⟨a, n, u, hrange, hrun, Nat.not_lt.mp hlong, rfl, rfl⟩
    obtain ⟨hwide, -, hlo', hhi', -⟩ := mem_scanIn hrange'.pos hy (h.listed hrange' hy).2
    obtain ⟨hlo, hhi⟩ := hrun.place (v := u) (by omega) hrange.pos (Nat.le_refl _)
      (Nat.lt_add_of_pos_right hrun.pos)
    have haddress : y.address = unitAt true 0 u := congrArg TextRun.address heq
    rw [haddress] at hlo' hhi'
    -- the run is scanned in its own range, where nothing is
    obtain ⟨rfl, rfl⟩ := hrange.eq_of_mem hrange' hlo hhi hlo' hhi'
    obtain rfl : true = wide := (congrArg TextRun.wide heq).symm.trans hwide
    rw [hnil] at hy
    cases hy
  · by_contra hlong
    have hzero : options.minLength.toNat ≠ 0 := fun h0 => hmin (UInt32.toNat_inj.mp h0)
    rw [← hodd] at hrun
    obtain ⟨x, hx, -⟩ := exists_mem_scan ((mem_runsIn hrange.pos).mpr hrun) (by omega)
      (Nat.not_lt.mp hlong)
    have hx' : x ∈ p.scanIn options (a, n) true := hx
    rw [hnil] at hx'
    cases hx'

theorem scannable (h : p.Exact options start stop) : p.Scannable options start stop where
  short x hx := by
    obtain ⟨_, _, _, -, y, -, rfl⟩ := h.scanned hx
    exact y.length.toNat_lt
  ends _ hmin _ _ hrange wide := h.ends hmin hrange wide
  even _ _ _ hrange hodd := h.even hrange hodd

end Exact

/-! ## the strings found -/

/-- **The strings found are the maximal runs** exactly if the condition holds, as long as progress
does not stop the scan and there is room for all of them. -/
theorem findStrings_iff (p : Process) (hread : p.ReadsMemory) (options : StringScanOptions)
    (progress : Option (ℕ → ℕ → Bool))
    (hprogress : ∀ onProgress ∈ progress, ∀ scanned total, onProgress scanned total = true)
    (start stop : ℕ)
    (hfew : ∃ l : List TextRun, l.length < options.maxResults
      ∧ ∀ x, p.Listed options start stop x → x ∈ l) :
    p.Lists options start stop (p.findStrings options progress start stop).1
      ↔ p.Scannable options start stop := by
  by_cases hgoes : start < stop ∧ (options.ascii = true ∨ options.unicode = true)
  · obtain ⟨hlt, hscans⟩ := hgoes
    obtain ⟨results, hresults, hcollected⟩ := findStrings_collected hread hprogress hlt hscans
    obtain ⟨l, hroom, hl⟩ := hfew
    have hlisting : (p.listing options start stop).length < options.maxResults :=
      (nodup_listing.subperm fun x hx => hl x ((mem_listing hlt).mp hx)).length_le.trans_lt hroom
    rw [hresults, lists_iff hlt]
    constructor
    · intro hperm
      have hlength := hperm.length_eq
      rw [List.length_map] at hlength
      obtain ⟨-, hall⟩ | ⟨hfull, -⟩ := hcollected
      · exact Exact.scannable ⟨hlt, (hall.map _).symm.trans hperm⟩
      · omega
    · intro h
      have hscan := h.scan_eq hlt hscans
      have hlength := congrArg List.length hscan
      rw [List.length_map] at hlength
      obtain ⟨-, hall⟩ | ⟨-, hfull⟩ := hcollected
      · exact hscan ▸ hall.map _
      · omega
  · have hnone : (options.ascii = true ∨ options.unicode = true) → ∀ a n,
        ¬MaximalRun p.Readable start stop a n := by
      intro hscans a n hrange
      have hpos := hrange.pos
      have hlower := hrange.lower
      have hupper := hrange.upper
      exact hgoes ⟨by omega, hscans⟩
    have hlisted : ∀ x, ¬p.Listed options start stop x := by
      rintro x ⟨a, n, u, hrange, hrun, -⟩
      refine hnone ?_ a n hrange
      have htext := (hrun.all u (Nat.le_refl _) (Nat.lt_add_of_pos_right hrun.pos)).1
      unfold StringScanOptions.scans at htext
      split at htext
      · exact Or.inr htext
      · exact Or.inl htext
    have hstops : start ≥ stop ∨ (!options.ascii) = true ∧ (!options.unicode) = true := by
      simp only [Bool.not_eq_true']
      by_contra hcontra
      refine hgoes ⟨by omega, ?_⟩
      by_contra hscans
      exact hcontra (Or.inr (by simpa using hscans))
    have hnil : (p.findStrings options progress start stop).1 = [] := by
      rw [findStrings, if_pos hstops]
    rw [hnil]
    refine iff_of_true
      ⟨List.Pairwise.nil, List.nodup_nil, fun x => iff_of_false List.not_mem_nil (hlisted x)⟩
      ⟨fun x hx => absurd hx (hlisted x), fun hscans _ a n hrange => ?_,
        fun hunicode a n hrange => ?_⟩
    · exact absurd hrange (hnone hscans a n)
    · exact absurd hrange (hnone (Or.inr hunicode) a n)

/-- A string across two regions -/
theorem findStrings_iff_twoRegions :
    twoRegions.Lists { minLength := 2 } 0x1FFE 0x2004
      (twoRegions.findStrings { minLength := 2 } none 0x1FFE 0x2004).1 := by
  have hlt : 0x1FFE < 0x2004 := by decide
  have hranges : runs twoRegions.Readable 0x1FFE (0x2004 - 0x1FFE) = [(0x1FFE, 6)] := by decide
  refine (findStrings_iff twoRegions (fun _ _ _ => rfl) { minLength := 2 } none nofun 0x1FFE 0x2004
    ⟨_, ?_, fun x hx => (mem_listing hlt).mpr hx⟩).mpr ⟨fun x hx => ?_, ?_, ?_⟩
  · decide
  · have hshort : ∀ x ∈ twoRegions.listing { minLength := 2 } 0x1FFE 0x2004, x.length < 2 ^ 32 := by
      decide
    exact hshort x ((mem_listing hlt).mpr hx)
  · exact fun _ hmin => absurd hmin (by decide)
  · intro _ a n hrange hodd
    rw [← mem_ranges hlt, hranges, List.mem_singleton, Prod.mk.injEq] at hrange
    rw [hrange.1] at hodd
    cases hodd

end Process

/-- A wide string in a readable region -/
def wideString : Process where
  regions := [⟨0x1000, memCommit, 0x04⟩]
  memory address := if address = 2 then 0x48 else if address = 4 then 0x69 else 0
  readProcessMemory address count := (true, (List.range count).map fun i =>
    if address + i = 2 then 0x48 else if address + i = 4 then 0x69 else 0)

/-- From an odd address on, a string at an even address is missed. -/
theorem wideString_missed :
    wideString.ReadsMemory
      ∧ (∃ l : List TextRun, l.length < 200000
        ∧ ∀ x, wideString.Listed { minLength := 2 } 1 6 x → x ∈ l)
      ∧ (wideString.findStrings { minLength := 2 } none 1 6).1 = []
      ∧ wideString.Listed { minLength := 2 } 1 6 ⟨2, 2, true, [0x48, 0x69]⟩
      ∧ ¬wideString.Lists { minLength := 2 } 1 6
        (wideString.findStrings { minLength := 2 } none 1 6).1 := by
  have hlt : 1 < 6 := by decide
  have hnone : (wideString.findStrings { minLength := 2 } none 1 6).1 = [] := by decide +kernel
  have hlisted : wideString.Listed { minLength := 2 } 1 6 ⟨2, 2, true, [0x48, 0x69]⟩ :=
    (Process.mem_listing hlt).mp (by decide)
  refine ⟨fun _ _ _ => rfl, ⟨_, ?_, fun x hx => (Process.mem_listing hlt).mpr hx⟩, hnone, hlisted,
    fun h => ?_⟩
  · decide
  · have hmem := (h.mem _).mpr hlisted
    rw [hnone] at hmem
    cases hmem

end WinSys.Memory
