import WinSys.Infra.Runs
import WinSys.Memory.Strings

/-!
# The runs of text of one kind

The units of a kind are bytes, or pairs of bytes from the even addresses on, or from the odd ones.
`scanUnits` is the scan of one kind alone, that keeps every long enough run. It is compared with the
maximal runs of text. A run's length is counted in 32 bits.

* `Process.scan_eq`: what is kept of short runs
* `Process.mem_scan`, `Process.exists_mem_scan`: what is kept of any
-/

namespace WinSys.Memory

open Infra

/-- A list of what is kept of each -/
theorem flatMap_eq_map_filter {α β : Type*} {l : List α} {f : α → List β} {q : α → Prop}
    [DecidablePred q] {g : α → β} (h : ∀ x ∈ l, f x = if q x then [g x] else []) :
    l.flatMap f = (l.filter (q ·)).map g := by
  induction l with
  | nil => rfl
  | cons x l ih =>
    rw [List.flatMap_cons, h x List.mem_cons_self, ih fun y hy => h y (List.mem_cons_of_mem _ hy)]
    by_cases hq : q x
    · simp [hq]
    · simp [hq]

def StringScanOptions.scans (options : StringScanOptions) (wide : Bool) : Bool :=
  if wide then options.unicode else options.ascii

/-- Without the limit of the number of results -/
def StringRun.kept (run : StringRun) (wide : Bool) (options : StringScanOptions) :
    List MemoryString :=
  if run.length ≥ options.minLength then
    [{ address := run.start, length := run.length, wide, text := run.text }]
  else []

/-- Of a wide string, the units at even addresses (`odd` is 0), or the ones at odd addresses (1). -/
def unitAt (wide : Bool) (odd u : ℕ) : ℕ := if wide then 2 * u + odd else u

/-- The first unit that begins at an address or behind it -/
def firstUnit (wide : Bool) (odd address : ℕ) : ℕ :=
  if wide then (address + 1 - odd) / 2 else address

/-- The first unit that does not end before an address -/
def endUnit (wide : Bool) (odd address : ℕ) : ℕ :=
  if wide then (address - odd) / 2 else address

namespace Process

variable (p : Process) (options : StringScanOptions) (wide : Bool) (odd : ℕ)

def charAt (address : ℕ) : UInt32 :=
  if wide then (p.memory address).toUInt32 ||| (p.memory (address + 1)).toUInt32 <<< 8
  else (p.memory address).toUInt32

def IsText (u : ℕ) : Prop :=
  options.scans wide = true ∧ isTextChar (p.charAt wide (unitAt wide odd u)) wide = true

instance : DecidablePred (p.IsText options wide odd) :=
  fun _ => inferInstanceAs (Decidable (_ ∧ _))

def textFrom (u k : ℕ) : List UInt16 :=
  (List.range k).map fun i => (p.charAt wide (unitAt wide odd (u + i))).toUInt16

/-- A maximal run of text of a range -/
def RunIn (start stop u k : ℕ) : Prop :=
  MaximalRun (p.IsText options wide odd) (firstUnit wide odd start) (endUnit wide odd stop) u k

/-! ## the scan of one kind -/

variable (lo : ℕ)

def scanUnits : ℕ → StringRun × List MemoryString
  | 0 => ({}, [])
  | n + 1 =>
    let (run, kept) := scanUnits n
    if p.IsText options wide odd (lo + n) then
      (run.add (unitAt wide odd (lo + n)) (p.charAt wide (unitAt wide odd (lo + n))).toUInt16
        options.maxText, kept)
    else if run.length ≠ 0 then (run.clear, kept ++ run.kept wide options)
    else (run, kept)

/-- With what is kept at the end -/
def scan (n : ℕ) : List MemoryString :=
  (p.scanUnits options wide odd lo n).2
    ++ (p.scanUnits options wide odd lo n).1.kept wide options

/-- What is kept of a run that ends at a place -/
def endOf (n : ℕ) : List MemoryString :=
  if (p.scanUnits options wide odd lo n).1.length = 0 then []
  else (p.scanUnits options wide odd lo n).1.kept wide options

/-- A run as it is found, unless it is too long -/
def entry (r : ℕ × ℕ) : MemoryString where
  address := unitAt wide odd r.1
  length := UInt32.ofNat r.2
  wide
  text := (p.textFrom wide odd r.1 r.2).take options.maxText.toNat

section Lemmas

variable {p options wide odd lo} {n u k : ℕ}

theorem scanUnits_succ (h : p.IsText options wide odd (lo + n)) :
    p.scanUnits options wide odd lo (n + 1)
      = ((p.scanUnits options wide odd lo n).1.add (unitAt wide odd (lo + n))
          (p.charAt wide (unitAt wide odd (lo + n))).toUInt16 options.maxText,
        (p.scanUnits options wide odd lo n).2) := by
  simp only [scanUnits, if_pos h]

theorem scanUnits_succ_of_not (h : ¬p.IsText options wide odd (lo + n)) :
    (p.scanUnits options wide odd lo (n + 1)).1
        = (if (p.scanUnits options wide odd lo n).1.length = 0 then
            (p.scanUnits options wide odd lo n).1
          else (p.scanUnits options wide odd lo n).1.clear)
      ∧ (p.scanUnits options wide odd lo (n + 1)).2
        = (p.scanUnits options wide odd lo n).2 ++ p.endOf options wide odd lo n := by
  by_cases hzero : (p.scanUnits options wide odd lo n).1.length = 0
  · simp [scanUnits, endOf, h, hzero]
  · simp [scanUnits, endOf, h, hzero]

/-- What is not looked for is not found. -/
theorem scanUnits_of_not_scans (h : options.scans wide = false) :
    p.scanUnits options wide odd lo n = ({}, []) := by
  induction n with
  | zero => rfl
  | succ n ih =>
    have hnot : ¬p.IsText options wide odd (lo + n) := by simp [IsText, h]
    simp [scanUnits, ih, hnot]

/-- Of bytes, every address is one. -/
theorem scanUnits_false (odd odd' : ℕ) :
    p.scanUnits options false odd lo n = p.scanUnits options false odd' lo n := by
  induction n with
  | zero => rfl
  | succ n ih =>
    simp only [scanUnits, ih]
    rfl

theorem length_scanUnits_le {m : ℕ} (h : m ≤ n) :
    (p.scanUnits options wide odd lo m).2.length ≤ (p.scanUnits options wide odd lo n).2.length := by
  induction n, h using Nat.le_induction with
  | base => exact Nat.le_refl _
  | succ n _ ih =>
    refine ih.trans ?_
    by_cases hT : p.IsText options wide odd (lo + n)
    · rw [scanUnits_succ hT]
    · rw [(scanUnits_succ_of_not hT).2, List.length_append]
      exact Nat.le_add_right _ _

/-! ## the run that is open -/

theorem scanUnits_length :
    (p.scanUnits options wide odd lo n).1.length
      = UInt32.ofNat (openRun (p.IsText options wide odd) lo n) := by
  induction n with
  | zero => rfl
  | succ n ih =>
    by_cases hT : p.IsText options wide odd (lo + n)
    · rw [scanUnits_succ hT, openRun_succ hT, UInt32.ofNat_add, ← ih]
      rfl
    · rw [(scanUnits_succ_of_not hT).1, openRun_succ_of_not hT]
      split
      · next hzero => exact hzero
      · rfl

theorem toNat_scanUnits_length :
    (p.scanUnits options wide odd lo n).1.length.toNat
      = openRun (p.IsText options wide odd) lo n % 2 ^ 32 := by
  rw [scanUnits_length, UInt32.toNat_ofNat']

theorem scanUnits_length_eq_zero :
    (p.scanUnits options wide odd lo n).1.length = 0
      ↔ openRun (p.IsText options wide odd) lo n % 2 ^ 32 = 0 := by
  rw [← toNat_scanUnits_length, ← UInt32.toNat_inj]
  rfl

theorem scanUnits_start (h : openRun (p.IsText options wide odd) lo n % 2 ^ 32 ≠ 0) :
    (p.scanUnits options wide odd lo n).1.start
      = unitAt wide odd (lo + n - openRun (p.IsText options wide odd) lo n % 2 ^ 32) := by
  induction n with
  | zero => exact absurd rfl h
  | succ n ih =>
    by_cases hT : p.IsText options wide odd (lo + n)
    · have hle := openRun_le (p.IsText options wide odd) lo n
      rw [openRun_succ hT] at h ⊢
      rw [scanUnits_succ hT, StringRun.add]
      by_cases hzero : openRun (p.IsText options wide odd) lo n % 2 ^ 32 = 0
      · rw [if_pos (scanUnits_length_eq_zero.mpr hzero)]
        have hplace : lo + n
            = lo + (n + 1) - (openRun (p.IsText options wide odd) lo n + 1) % 2 ^ 32 := by omega
        rw [← hplace]
      · rw [if_neg fun h0 => hzero (scanUnits_length_eq_zero.mp h0), ih hzero]
        have hplace : lo + n - openRun (p.IsText options wide odd) lo n % 2 ^ 32
            = lo + (n + 1) - (openRun (p.IsText options wide odd) lo n + 1) % 2 ^ 32 := by omega
        rw [hplace]
    · rw [openRun_succ_of_not hT] at h
      exact absurd rfl h

/-- As long as no run is too long, the text is the open run's. -/
theorem scanUnits_text
    (h : ∀ r ∈ runs (p.IsText options wide odd) lo n, r.2 < 2 ^ 32) :
    (p.scanUnits options wide odd lo n).1.text
      = (p.textFrom wide odd (lo + n - openRun (p.IsText options wide odd) lo n)
          (openRun (p.IsText options wide odd) lo n)).take options.maxText.toNat := by
  induction n with
  | zero => simp [scanUnits, openRun, textFrom]
  | succ n ih =>
    have hle := openRun_le (p.IsText options wide odd) lo n
    by_cases hT : p.IsText options wide odd (lo + n)
    · have hplace : lo + (n + 1) - (openRun (p.IsText options wide odd) lo n + 1)
          = lo + n - openRun (p.IsText options wide odd) lo n := by omega
      have hlast : lo + n - openRun (p.IsText options wide odd) lo n
          + openRun (p.IsText options wide odd) lo n = lo + n := by omega
      rw [scanUnits_succ hT, openRun_succ hT, hplace, StringRun.add,
        ih (lt_of_runs_succ h)]
      simp only [textFrom, List.range_succ, List.map_append, List.map_singleton, hlast,
        List.length_take, List.length_map, List.length_range]
      split
      · next hlt =>
        rw [List.take_of_length_le (by simp; omega), List.take_of_length_le (by simp; omega)]
      · next hge => rw [List.take_append_of_le_length (by simp; omega)]
    · rw [(scanUnits_succ_of_not hT).1, openRun_succ_of_not hT]
      have hnil : ∀ u, p.textFrom wide odd u 0 = [] := fun _ => rfl
      rw [hnil, List.take_nil]
      split
      · next hzero =>
        have hopen := scanUnits_length_eq_zero.mp hzero
        rw [Nat.mod_eq_of_lt (openRun_lt (by omega) (lt_of_runs_succ h))] at hopen
        rw [ih (lt_of_runs_succ h), hopen, hnil, List.take_nil]
      · rfl

/-! ## the runs that ended -/

theorem flatMap_runs :
    (runs (p.IsText options wide odd) lo n).flatMap
        (fun r => p.endOf options wide odd lo (r.1 + r.2 - lo))
      = (closedRuns (p.IsText options wide odd) lo n).flatMap
          (fun r => p.endOf options wide odd lo (r.1 + r.2 - lo))
        ++ p.endOf options wide odd lo n := by
  have hle := openRun_le (p.IsText options wide odd) lo n
  by_cases hzero : openRun (p.IsText options wide odd) lo n = 0
  · have hend : p.endOf options wide odd lo n = [] :=
      if_pos (scanUnits_length_eq_zero.mpr (by rw [hzero, Nat.zero_mod]))
    rw [runs_of_not_open hzero, hend, List.append_nil]
  · have hplace : lo + n - openRun (p.IsText options wide odd) lo n
        + openRun (p.IsText options wide odd) lo n - lo = n := by omega
    rw [runs_of_open hzero, List.flatMap_append, List.flatMap_singleton, hplace]

theorem scanUnits_kept :
    (p.scanUnits options wide odd lo n).2
      = (closedRuns (p.IsText options wide odd) lo n).flatMap
          fun r => p.endOf options wide odd lo (r.1 + r.2 - lo) := by
  induction n with
  | zero => rfl
  | succ n ih =>
    by_cases hT : p.IsText options wide odd (lo + n)
    · rw [scanUnits_succ hT, closedRuns_succ hT, ih]
    · rw [(scanUnits_succ_of_not hT).2, closedRuns_succ_of_not hT, flatMap_runs, ih]

/-- If no run is open at the end, the empty one is kept, if it is long enough. -/
theorem scan_eq_flatMap :
    p.scan options wide odd lo n
      = (runs (p.IsText options wide odd) lo n).flatMap
          (fun r => p.endOf options wide odd lo (r.1 + r.2 - lo))
        ++ if (p.scanUnits options wide odd lo n).1.length = 0 then
            (p.scanUnits options wide odd lo n).1.kept wide options
          else [] := by
  rw [flatMap_runs, ← scanUnits_kept, List.append_assoc, scan, endOf]
  split
  · rw [List.nil_append]
  · rw [List.append_nil]

theorem kept_eq {run : StringRun} :
    run.kept wide options = if options.minLength.toNat ≤ run.length.toNat then
      [{ address := run.start, length := run.length, wide, text := run.text }] else [] :=
  if_congr UInt32.le_iff_toNat_le rfl rfl

variable {hi : ℕ}

/-- The end of a maximal run -/
theorem endOf_eq (hrun : MaximalRun (p.IsText options wide odd) lo hi u k) :
    p.endOf options wide odd lo (u + k - lo) =
      if k % 2 ^ 32 ≠ 0 ∧ options.minLength.toNat ≤ k % 2 ^ 32 then
        [{ address := unitAt wide odd (u + k - k % 2 ^ 32), length := UInt32.ofNat k, wide,
           text := (p.scanUnits options wide odd lo (u + k - lo)).1.text }]
      else [] := by
  have hopen := hrun.openRun_eq
  have hlower := hrun.lower
  have hplace : lo + (u + k - lo) = u + k := by omega
  by_cases hzero : k % 2 ^ 32 = 0
  · rw [if_neg fun h => h.1 hzero, endOf, if_pos (scanUnits_length_eq_zero.mpr (by rwa [hopen]))]
  · have hstart := scanUnits_start (n := u + k - lo) (by rwa [hopen])
    rw [endOf, if_neg fun h => hzero (hopen ▸ scanUnits_length_eq_zero.mp h), kept_eq,
      toNat_scanUnits_length, scanUnits_length, hstart, hopen, hplace]
    exact if_congr ⟨fun h => ⟨hzero, h⟩, fun h => h.2⟩ rfl rfl

/-- The end of a run, when none is too long -/
theorem endOf_short (hshort : ∀ r ∈ runs (p.IsText options wide odd) lo n, r.2 < 2 ^ 32)
    {r : ℕ × ℕ} (hrun : r ∈ runs (p.IsText options wide odd) lo n) :
    p.endOf options wide odd lo (r.1 + r.2 - lo)
      = if options.minLength.toNat ≤ r.2 then [p.entry options wide odd r] else [] := by
  obtain ⟨u, k⟩ := r
  have hk : k < 2 ^ 32 := hshort _ hrun
  have hmax := mem_runs_iff.mp hrun
  have hpos := hmax.pos
  have hlower := hmax.lower
  have hupper := hmax.upper
  have hplace : lo + (u + k - lo) - k = u := by omega
  have htext := scanUnits_text (lt_of_runs_le (m := u + k - lo) (by omega) hshort)
  rw [hmax.openRun_eq, hplace] at htext
  rw [endOf_eq hmax, Nat.mod_eq_of_lt hk, Nat.add_sub_cancel, htext]
  exact if_congr ⟨fun h => h.2, fun h => ⟨hpos.ne', h⟩⟩ rfl rfl

/-- **What is kept of one kind**, when no run is too long and none is open with no length -/
theorem scan_eq (hshort : ∀ r ∈ runs (p.IsText options wide odd) lo n, r.2 < 2 ^ 32)
    (hend : options.minLength = 0 → openRun (p.IsText options wide odd) lo n ≠ 0) :
    p.scan options wide odd lo n
      = ((runs (p.IsText options wide odd) lo n).filter (options.minLength.toNat ≤ ·.2)).map
          (p.entry options wide odd) := by
  have hblank : (if (p.scanUnits options wide odd lo n).1.length = 0 then
      (p.scanUnits options wide odd lo n).1.kept wide options else []) = [] := by
    split
    · next hzero =>
      have hopen := scanUnits_length_eq_zero.mp hzero
      rw [Nat.mod_eq_of_lt (openRun_lt (by omega) hshort)] at hopen
      have hmin : options.minLength.toNat ≠ 0 := fun h =>
        hend (UInt32.toNat_inj.mp h) hopen
      rw [kept_eq, hzero, if_neg (by simpa using hmin)]
    · rfl
  rw [scan_eq_flatMap, hblank, List.append_nil]
  exact flatMap_eq_map_filter fun r hr => endOf_short hshort hr

/-- Even an empty run is long enough. -/
theorem scan_ne_nil (hmin : options.minLength = 0) : p.scan options wide odd lo n ≠ [] := by
  rw [scan, kept_eq, hmin, if_pos (show UInt32.toNat 0 ≤ _ from Nat.zero_le _)]
  exact List.append_ne_nil_of_right_ne_nil _ (List.cons_ne_nil _ _)

theorem le_length_of_mem_scan {x : MemoryString} (h : x ∈ p.scan options wide odd lo n) :
    options.minLength.toNat ≤ x.length.toNat := by
  have hkept : ∀ run : StringRun, x ∈ run.kept wide options →
      options.minLength.toNat ≤ x.length.toNat := by
    intro run hx
    rw [kept_eq] at hx
    split at hx
    · next hmin =>
      obtain rfl := List.mem_singleton.mp hx
      exact hmin
    · cases hx
  rw [scan, scanUnits_kept, List.mem_append, List.mem_flatMap] at h
  obtain ⟨r, -, hx⟩ | hx := h
  · unfold endOf at hx
    split at hx
    · cases hx
    · exact hkept _ hx
  · exact hkept _ hx

theorem mem_scan {x : MemoryString} (h : x ∈ p.scan options wide odd lo n) (hne : x.length ≠ 0) :
    ∃ u k, (u, k) ∈ runs (p.IsText options wide odd) lo n
      ∧ k % 2 ^ 32 ≠ 0 ∧ options.minLength.toNat ≤ k % 2 ^ 32
      ∧ x.address = unitAt wide odd (u + k - k % 2 ^ 32) ∧ x.wide = wide := by
  rw [scan_eq_flatMap, List.mem_append, List.mem_flatMap] at h
  obtain ⟨⟨u, k⟩, hrun, hx⟩ | hx := h
  · rw [endOf_eq (mem_runs_iff.mp hrun)] at hx
    split at hx
    · next hkept =>
      obtain rfl := List.mem_singleton.mp hx
      exact ⟨u, k, hrun, hkept.1, hkept.2, rfl, rfl⟩
    · cases hx
  · split at hx
    · next hzero =>
      rw [kept_eq, hzero] at hx
      split at hx
      · obtain rfl := List.mem_singleton.mp hx
        exact absurd rfl hne
      · cases hx
    · cases hx

theorem exists_mem_scan (hrun : (u, k) ∈ runs (p.IsText options wide odd) lo n)
    (hzero : k % 2 ^ 32 ≠ 0) (hmin : options.minLength.toNat ≤ k % 2 ^ 32) :
    ∃ x ∈ p.scan options wide odd lo n, x.length.toNat = k % 2 ^ 32 := by
  obtain ⟨x, hx, hlength⟩ : ∃ x ∈ p.endOf options wide odd lo (u + k - lo),
      x.length.toNat = k % 2 ^ 32 := by
    rw [endOf_eq (mem_runs_iff.mp hrun), if_pos ⟨hzero, hmin⟩]
    exact ⟨_, List.mem_singleton_self _, UInt32.toNat_ofNat'⟩
  rw [scan_eq_flatMap]
  exact ⟨x, List.mem_append_left _ (List.mem_flatMap.mpr ⟨_, hrun, hx⟩), hlength⟩

/-- The empty run at the end -/
theorem exists_mem_scan_of_empty (hmin : options.minLength = 0)
    (hend : openRun (p.IsText options wide odd) lo n % 2 ^ 32 = 0) :
    ∃ x ∈ p.scan options wide odd lo n, x.length = 0 := by
  have hzero := scanUnits_length_eq_zero.mpr hend
  obtain ⟨x, hx, hlength⟩ : ∃ x ∈ (p.scanUnits options wide odd lo n).1.kept wide options,
      x.length = 0 := by
    rw [kept_eq, hzero, hmin, if_pos (Nat.le_refl _)]
    exact ⟨_, List.mem_singleton_self _, rfl⟩
  rw [scan_eq_flatMap, if_pos hzero]
  exact ⟨x, List.mem_append_right _ hx, hlength⟩

end Lemmas

end Process

end WinSys.Memory
