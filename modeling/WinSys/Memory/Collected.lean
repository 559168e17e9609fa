import WinSys.Memory.Occurs
import WinSys.Memory.TextRuns
import Mathlib.Data.List.Perm.Basic

/-!
# The chunks and the kinds do not matter

The readable ranges are the maximal runs of readable addresses. What is collected of a range, in
chunks and of both kinds at a time, is what the kinds' own scans keep, in some order, as far as the
results are not full.

* `Process.readableRanges_eq`: the ranges
* `Process.findStrings_collected`: what is collected
-/

namespace WinSys.Memory

open Infra

/-! ## the ranges -/

def toRange (r : ℕ × ℕ) : Range where
  start := r.1
  stop := r.1 + r.2

section Ranges

variable {P : ℕ → Prop} [DecidablePred P] {lo n m : ℕ}

theorem addRange_runs (hm : 0 < m) (h : ∀ j < m, P (lo + n + j)) :
    addRange ((runs P lo n).map toRange) (lo + n) (lo + n + m) = (runs P lo (n + m)).map toRange := by
  obtain ⟨hopen, hclosed⟩ := openRun_add h
  have hle := openRun_le P lo n
  rw [runs_of_open (n := n + m) (by omega), hopen, hclosed]
  by_cases hzero : openRun P lo n = 0
  · rw [runs_of_not_open hzero, hzero]
    have happend : addRange ((closedRuns P lo n).map toRange) (lo + n) (lo + n + m)
        = (closedRuns P lo n).map toRange ++ [{ start := lo + n, stop := lo + n + m }] := by
      unfold addRange
      rw [List.getLast?_map]
      cases hlast : (closedRuns P lo n).getLast? with
      | none =>
        rw [List.getLast?_eq_none_iff.mp hlast]
        rfl
      | some r =>
        have hbefore := closed_lt_open (List.mem_of_getLast? hlast)
        exact if_neg (show ¬r.1 + r.2 = lo + n by omega)
    have hplace : lo + (n + m) - (0 + m) = lo + n := by omega
    rw [happend, List.map_append, List.map_singleton, hplace, Nat.zero_add]
    rfl
  · have hstop : lo + n - openRun P lo n + openRun P lo n = lo + n := by omega
    have hplace : lo + (n + m) - (openRun P lo n + m) = lo + n - openRun P lo n := by omega
    have hnew : lo + n - openRun P lo n + (openRun P lo n + m) = lo + n + m := by omega
    rw [runs_of_open hzero, addRange]
    simp [toRange, hstop, hplace, hnew]

end Ranges

namespace Process

variable {p : Process} {start stop address : ℕ}

instance : DecidablePred p.Readable :=
  fun address => inferInstanceAs (Decidable (∃ mbi ∈ p.virtualQuery address, isReadable mbi = true))

/-- **The ranges are the maximal runs of readable addresses.** -/
theorem readableRanges_eq {ranges : List Range} {total : ℕ} (hstart : start ≤ address)
    (hranges : ranges = (runs p.Readable start (min address stop - start)).map toRange) :
    (p.readableRanges stop address ranges total).1
      = (runs p.Readable start (stop - start)).map toRange := by
  fun_induction readableRanges p stop address ranges total with
  | case1 address ranges total hlt hnone =>
    have hrest := @runs_add_of_not p.Readable _ start (address - start) (stop - address)
      fun j _ => not_readable_of_none hnone (by omega)
    have hall : address - start + (stop - address) = stop - start := by omega
    rw [hall] at hrest
    rw [hranges, hrest, Nat.min_eq_left hlt.le]
  | case2 address ranges total hlt mbi hmbi hnext regionEnd hreadable ih =>
    refine ih (by omega) ?_
    have hadd := @addRange_runs p.Readable _ start (address - start) (regionEnd - address)
      (by omega) fun j hj =>
        (readable_iff hmbi (by omega) (by omega)).mpr hreadable
    have hfrom : start + (address - start) = address := by omega
    have hto : address + (regionEnd - address) = regionEnd := by omega
    have hall : address - start + (regionEnd - address) = regionEnd - start := by omega
    rw [hfrom, hto, hall] at hadd
    rw [hranges, Nat.min_eq_left hlt.le, hadd]
  | case3 address ranges total hlt mbi hmbi hnext hunreadable ih =>
    refine ih (by omega) ?_
    have hrest := @runs_add_of_not p.Readable _ start (address - start)
      (min (mbi.baseAddress + mbi.regionSize) stop - address) fun j hj h =>
        hunreadable ((readable_iff hmbi (by omega) (by omega)).mp h)
    have hall : address - start + (min (mbi.baseAddress + mbi.regionSize) stop - address)
        = min (mbi.baseAddress + mbi.regionSize) stop - start := by omega
    rw [hall] at hrest
    rw [hranges, Nat.min_eq_left hlt.le, ← hrest]
  | case4 address ranges total hend =>
    rw [hranges, Nat.min_eq_right (Nat.not_lt.mp hend)]

end Process

/-! ## results that may be full -/

/-- The results are all that is expected, in some order, unless there is too much of it. -/
def Collected {α : Type*} (max : ℕ) (results expected : List α) : Prop :=
  results.length < max ∧ results.Perm expected ∨ max ≤ results.length ∧ max ≤ expected.length

namespace Collected

variable {α : Type*} {max : ℕ} {results expected expected' : List α}

theorem perm (h : Collected max results expected) (hperm : expected.Perm expected') :
    Collected max results expected' := by
  obtain ⟨hlt, hresults⟩ | ⟨hfull, hle⟩ := h
  · exact Or.inl ⟨hlt, hresults.trans hperm⟩
  · exact Or.inr ⟨hfull, hperm.length_eq ▸ hle⟩

theorem of_full (h : Collected max results expected) (hfull : max ≤ results.length)
    (hle : expected.length ≤ expected'.length) : Collected max results expected' := by
  obtain ⟨hlt, -⟩ | ⟨-, hmax⟩ := h
  · omega
  · exact Or.inr ⟨hfull, hmax.trans hle⟩

theorem endIn {options : StringScanOptions} {results expected : List MemoryString}
    (h : Collected options.maxResults results expected) (run : StringRun) (wide : Bool) :
    Collected options.maxResults (run.endIn wide options results)
      (expected ++ run.kept wide options) := by
  unfold StringRun.endIn StringRun.kept
  by_cases hmin : run.length ≥ options.minLength
  · rw [if_pos hmin]
    obtain ⟨hlt, hperm⟩ | ⟨hfull, hmax⟩ := h
    · rw [if_pos ⟨hmin, hlt⟩]
      have happend := hperm.append_right [(⟨run.start, run.length, wide, run.text⟩ : MemoryString)]
      have hlength := happend.length_eq
      rw [List.length_append, List.length_singleton] at hlength
      obtain hroom | hfull := Nat.lt_or_ge (results.length + 1) options.maxResults
      · refine Or.inl ⟨?_, happend⟩
        rwa [List.length_append, List.length_singleton]
      · refine Or.inr ⟨?_, hlength ▸ hfull⟩
        rwa [List.length_append, List.length_singleton]
    · rw [if_neg fun h => absurd h.2 (Nat.not_lt.mpr hfull)]
      exact of_full (Or.inr ⟨hfull, hmax⟩) hfull (by rw [List.length_append]; omega)
  · rw [if_neg hmin, if_neg fun h => hmin h.1, List.append_nil]
    exact h

end Collected

theorem StringRun.endIn_of_full {options : StringScanOptions} {results : List MemoryString}
    (h : options.maxResults ≤ results.length) (run : StringRun) (wide : Bool) :
    run.endIn wide options results = results :=
  if_neg fun hroom => absurd hroom.2 (Nat.not_lt.mpr h)

/-! ## the two kinds -/

namespace Scan

variable {options : StringScanOptions} {s : Scan} {run : StringRun} {wide : Bool}

@[simp]
theorem run_setRun : (s.setRun wide run).run wide = run := by
  cases wide <;> rfl

@[simp]
theorem run_setRun_other : (s.setRun wide run).run (!wide) = s.run (!wide) := by
  cases wide <;> rfl

@[simp]
theorem results_setRun : (s.setRun wide run).results = s.results := by
  cases wide <;> rfl

@[simp]
theorem run_endRun : (s.endRun options wide).run wide = (s.run wide).clear := by
  cases wide <;> rfl

@[simp]
theorem run_endRun_other : (s.endRun options wide).run (!wide) = s.run (!wide) := by
  cases wide <;> rfl

@[simp]
theorem results_endRun :
    (s.endRun options wide).results = (s.run wide).endIn wide options s.results := rfl

end Scan

/-- What is found of bytes, and of units -/
def kinds {α : Type*} (f : Bool → List α) : List α := f false ++ f true

theorem kinds_append {α : Type*} {f g : Bool → List α} {l : List α} (wide : Bool)
    (h : g wide = f wide ++ l) (hother : g (!wide) = f (!wide)) : (kinds f ++ l).Perm (kinds g) := by
  cases wide with
  | false =>
    simp only [Bool.not_false] at hother
    rw [kinds, kinds, h, hother, List.append_assoc, List.append_assoc]
    exact List.perm_append_comm.append_left _
  | true =>
    simp only [Bool.not_true] at hother
    rw [kinds, kinds, h, hother, List.append_assoc]

namespace Process

variable (p : Process) (options : StringScanOptions)

/-- The scan of one kind from an address on, as it is: of a wide string, the units begin there. -/
def scanFrom (start : ℕ) (wide : Bool) (n : ℕ) : StringRun × List MemoryString :=
  p.scanUnits options wide (start % 2) (firstUnit wide (start % 2) start) n

/-- The units of a kind that begin in the first `m` of `n` bytes -/
def unitCount (n m : ℕ) (wide : Bool) : ℕ := if wide then min ((m + 1) / 2) (n / 2) else m

/-- Each run is as if its kind had been scanned alone. -/
structure Scanned (start : ℕ) (before : List MemoryString) (counts : Bool → ℕ) (s : Scan) :
    Prop where
  run : ∀ wide, s.run wide = (p.scanFrom options start wide (counts wide)).1
  results : Collected options.maxResults s.results
    (before ++ kinds fun wide => (p.scanFrom options start wide (counts wide)).2)

variable {p options} {start : ℕ} {before : List MemoryString} {counts counts' : Bool → ℕ} {s : Scan}
  {wide : Bool}

theorem Scanned.congr (h : p.Scanned options start before counts s)
    (hcounts : ∀ wide, options.scans wide = true → counts' wide = counts wide) :
    p.Scanned options start before counts' s := by
  have hsame : ∀ wide, p.scanFrom options start wide (counts' wide)
      = p.scanFrom options start wide (counts wide) := by
    intro wide
    cases hscans : options.scans wide with
    | true => rw [hcounts wide hscans]
    | false => rw [scanFrom, scanFrom, scanUnits_of_not_scans hscans, scanUnits_of_not_scans hscans]
  exact ⟨fun wide => by rw [hsame, h.run], by simpa only [hsame] using h.results⟩

/-- One more character of a kind -/
theorem Scanned.scanChar (h : p.Scanned options start before counts s) (wide : Bool)
    (hscans : options.scans wide = true) (hcounts : counts' wide = counts wide + 1)
    (hother : counts' (!wide) = counts (!wide)) {address : ℕ}
    (haddress : address
      = unitAt wide (start % 2) (firstUnit wide (start % 2) start + counts wide)) :
    p.Scanned options start before counts'
      (s.scanChar options wide address (p.charAt wide address)) := by
  have hrun := h.run wide
  have hkinds : ∀ l : List MemoryString,
      (p.scanFrom options start wide (counts' wide)).2
        = (p.scanFrom options start wide (counts wide)).2 ++ l →
      (before ++ (kinds fun wide => (p.scanFrom options start wide (counts wide)).2) ++ l).Perm
        (before ++ kinds fun wide => (p.scanFrom options start wide (counts' wide)).2) := by
    intro l hl
    rw [List.append_assoc]
    refine (kinds_append wide hl ?_).append_left before
    rw [hother]
  by_cases hT : p.IsText options wide (start % 2) (firstUnit wide (start % 2) start + counts wide)
  · have htext : isTextChar (p.charAt wide address) wide = true := haddress ▸ hT.2
    have hsucc := scanUnits_succ hT
    rw [← haddress] at hsucc
    rw [Scan.scanChar, if_pos htext]
    refine ⟨(Bool.forall_bool' wide).mpr ⟨?_, ?_⟩, ?_⟩
    · rw [Scan.run_setRun, hrun, hcounts, scanFrom, scanFrom, hsucc]
    · rw [Scan.run_setRun_other, h.run, hother]
    · have hnil := hkinds [] (by rw [hcounts, scanFrom, scanFrom, hsucc, List.append_nil])
      rw [List.append_nil] at hnil
      rw [Scan.results_setRun]
      exact h.results.perm hnil
  · have htext : ¬isTextChar (p.charAt wide address) wide = true :=
      fun h => hT ⟨hscans, haddress ▸ h⟩
    obtain ⟨hnext, hkept⟩ := scanUnits_succ_of_not hT
    rw [Scan.scanChar, if_neg htext]
    have hresults := h.results
    by_cases hzero : (s.run wide).length = 0
    · have hzero' := hzero
      rw [hrun, scanFrom] at hzero'
      rw [if_neg (not_not.mpr hzero)]
      refine ⟨(Bool.forall_bool' wide).mpr ⟨?_, ?_⟩, ?_⟩
      · rw [hrun, hcounts, scanFrom, scanFrom, hnext, if_pos hzero']
      · rw [h.run, hother]
      · have hnil := hkinds [] (by rw [hcounts, scanFrom, scanFrom, hkept, endOf, if_pos hzero'])
        rw [List.append_nil] at hnil
        exact hresults.perm hnil
    · have hzero' := hzero
      rw [hrun, scanFrom] at hzero'
      rw [if_pos hzero]
      refine ⟨(Bool.forall_bool' wide).mpr ⟨?_, ?_⟩, ?_⟩
      · rw [Scan.run_endRun, hrun, hcounts, scanFrom, scanFrom, hnext, if_neg hzero']
      · rw [Scan.run_endRun_other, h.run, hother]
      · rw [Scan.results_endRun, hrun]
        refine (hresults.endIn _ _).perm (hkinds _ ?_)
        rw [hcounts, scanFrom, scanFrom, hkept, endOf, if_neg hzero']

/-! ## a chunk -/

/-- One more byte -/
theorem Scanned.scanByte {n m address i : ℕ} {data : Bytes}
    (h : p.Scanned options start before (unitCount n m) s) (hm : m < n)
    (haddress : address + i = start + m) (hparity : i % 2 = m % 2)
    (hnext : i % 2 = 0 → (i + 1 < data.length ↔ m + 1 < n))
    (hdata : ∀ j < data.length, u8At data j = p.memory (address + j)) (hi : i < data.length) :
    p.Scanned options start before (unitCount n (m + 1)) (s.scanByte options data address i) := by
  have hbyte : (u8At data i).toUInt32 = p.charAt false (address + i) := by
    rw [hdata i hi]
    rfl
  -- the byte
  have hascii : p.Scanned options start before
      (fun wide => if wide then unitCount n m true else m + 1)
      (if options.ascii then s.scanChar options false (address + i) (u8At data i).toUInt32
        else s) := by
    split
    · next hscans =>
      rw [hbyte]
      refine h.scanChar false hscans ?_ ?_ haddress
      · rfl
      · rfl
    · next hscans =>
      refine h.congr fun wide hwide => ?_
      cases wide with
      | false => exact absurd hwide hscans
      | true => rfl
  -- the unit that begins with it
  unfold Scan.scanByte
  simp only
  split
  · next hunit =>
    obtain ⟨hscans, heven, hlt⟩ := hunit
    rw [Nat.and_one_is_mod] at heven
    have hmn := (hnext heven).mp hlt
    have hwide : (u8At data i).toUInt32 ||| (u8At data (i + 1)).toUInt32 <<< 8
        = p.charAt true (address + i) := by
      rw [hdata i hi, hdata (i + 1) hlt]
      rfl
    rw [hwide]
    refine hascii.scanChar true hscans ?_ rfl ?_
    · simp only [unitCount, if_true]
      omega
    · simp only [unitCount, unitAt, firstUnit, if_true]
      omega
  · next hunit =>
    refine hascii.congr fun wide hwide => ?_
    cases wide with
    | false => rfl
    | true =>
      have hnot : ¬(i % 2 = 0 ∧ i + 1 < data.length) := by
        rw [Nat.and_one_is_mod] at hunit
        exact fun h => hunit ⟨hwide, h⟩
      simp only [unitCount, if_true]
      by_cases heven : i % 2 = 0
      · have hlast : ¬m + 1 < n := fun h => hnot ⟨heven, (hnext heven).mpr h⟩
        omega
      · omega

theorem Scanned.foldl {n m address : ℕ}
    (h : p.Scanned options start before (unitCount n m) s) (data : Bytes)
    (haddress : address = start + m) (heven : m % 2 = 0) (hn : m + data.length ≤ n)
    (hnext : m + data.length = n ∨ data.length % 2 = 0)
    (hdata : ∀ j < data.length, u8At data j = p.memory (address + j)) :
    p.Scanned options start before (unitCount n (m + data.length))
      ((List.range data.length).foldl (Scan.scanByte options data address) s) := by
  have hsteps : ∀ i ≤ data.length, p.Scanned options start before (unitCount n (m + i))
      ((List.range i).foldl (Scan.scanByte options data address) s) := by
    intro i
    induction i with
    | zero => exact fun _ => h
    | succ i ih =>
      intro hi
      rw [List.range_succ, List.foldl_append]
      exact (ih (by omega)).scanByte (by omega) (by omega) (by omega) (fun _ => by omega) hdata hi
  exact hsteps _ (Nat.le_refl _)

/-! ## a range -/

variable {progress : Option (ℕ → ℕ → Bool)} {stop : ℕ}

theorem Scanned.chunk {address count : ℕ} (hread : p.ReadsMemory)
    (hreadable : ∀ b, address ≤ b → b < stop → p.Readable b) (hstart : start ≤ address)
    (heven : (address - start) % 2 = 0) (hlt : address < stop)
    (hcount : count = min chunkSize (stop - address))
    (h : p.Scanned options start before
      (unitCount (stop - start) (min address stop - start)) s) :
    ∃ data, p.readProcessMemory address count = (true, data) ∧ data.length = count
      ∧ p.Scanned options start before
        (unitCount (stop - start) (min (address + chunkSize) stop - start))
        ((List.range data.length).foldl (Scan.scanByte options data address) s) := by
  have hdata := hread address count fun b hb hb' => hreadable b hb (by omega)
  have hchunk : chunkSize % 2 = 0 := by decide
  -- the kernel would compute with the size
  generalize chunkSize = size at *
  have hlength : ((List.range count).map fun i => p.memory (address + i)).length = count := by
    rw [List.length_map, List.length_range]
  refine ⟨_, hdata, hlength, ?_⟩
  rw [Nat.min_eq_left hlt.le] at h
  have hscanned := h.foldl ((List.range count).map fun i => p.memory (address + i))
    (by omega) heven (by omega) (by omega) fun j hj => u8At_read (hlength ▸ hj)
  have hplace : address - start + count = min (address + size) stop - start := by omega
  rw [hlength, hplace] at hscanned
  rwa [hlength]

/-- The chunks of a range, all of them unless the results are full -/
theorem scanChunks_eq (hread : p.ReadsMemory)
    (hprogress : ∀ onProgress ∈ progress, ∀ scanned total, onProgress scanned total = true)
    (total : ℕ) {address : ℕ} (scanned : ℕ)
    (hreadable : ∀ b, address ≤ b → b < stop → p.Readable b) (hstart : start ≤ address)
    (heven : (address - start) % 2 = 0)
    (h : p.Scanned options start before
      (unitCount (stop - start) (min address stop - start)) s) :
    ∃ scanned' s' m, p.scanChunks options progress total stop address scanned s = .ok (scanned', s')
      ∧ p.Scanned options start before (unitCount (stop - start) m) s' ∧ m ≤ stop - start
      ∧ (m = stop - start ∨ options.maxResults ≤ s'.results.length) := by
  fun_induction scanChunks p options progress total stop address scanned s with
  | case1 address scanned s hlt count read hfailed ih =>
    obtain ⟨data, hdata, hlength, -⟩ := h.chunk hread hreadable hstart heven hlt.1 rfl
    have hread' : read = (true, data) := hdata
    rw [hread'] at hfailed
    exact absurd hfailed (by simp)
  | case2 address scanned s hlt count read _ s₁ s₂ scanned₁ hgoes ih =>
    obtain ⟨data, hdata, hlength, hchunk⟩ := h.chunk hread hreadable hstart heven hlt.1 rfl
    have hread' : read = (true, data) := hdata
    have hs₂ : s₂ = (List.range data.length).foldl (Scan.scanByte options data address) s := by
      simp only [s₂, s₁, hread']
      exact if_neg (by omega)
    have heven' : (address + chunkSize - start) % 2 = 0 := by
      have hsize : chunkSize % 2 = 0 := by decide
      omega
    exact ih (fun b hb => hreadable b (by omega)) (by omega) heven' (hs₂ ▸ hchunk)
  | case3 address scanned s hlt count read _ s₁ s₂ scanned₁ hstops =>
    refine absurd ?_ hstops
    cases progress with
    | none => rfl
    | some onProgress => exact hprogress onProgress rfl _ _
  | case4 address scanned s hend =>
    refine ⟨scanned, s, _, rfl, h, by omega, ?_⟩
    obtain hbehind | hfull := Nat.lt_or_ge address stop
    · refine Or.inr ?_
      simpa [Scan.full, hbehind] using hend
    · exact Or.inl (by omega)

/-- What the kinds' own scans of a range keep -/
def scanOf (p : Process) (options : StringScanOptions) (range : Range) : List MemoryString :=
  kinds fun wide => p.scan options wide (range.start % 2)
    (firstUnit wide (range.start % 2) range.start)
    (endUnit wide (range.start % 2) range.stop - firstUnit wide (range.start % 2) range.start)

theorem unitCount_all (hle : start ≤ stop) (wide : Bool) :
    unitCount (stop - start) (stop - start) wide
      = endUnit wide (start % 2) stop - firstUnit wide (start % 2) start := by
  cases wide with
  | false => rfl
  | true =>
    simp only [unitCount, endUnit, firstUnit, if_true]
    omega

theorem unitCount_le {n m : ℕ} (h : m ≤ n) (wide : Bool) : unitCount n m wide ≤ unitCount n n wide := by
  cases wide with
  | false => exact h
  | true =>
    simp only [unitCount, if_true]
    omega

/-- The whole range, when its runs end -/
theorem Scanned.endRuns {m : ℕ} (hle : start ≤ stop)
    (h : p.Scanned options start before (unitCount (stop - start) m) s) (hm : m ≤ stop - start)
    (hall : m = stop - start ∨ options.maxResults ≤ s.results.length) :
    Collected options.maxResults (s.endRuns options).results
      (before ++ p.scanOf options { start, stop }) := by
  have hresults : (s.endRuns options).results
      = (s.run true).endIn true options ((s.run false).endIn false options s.results) := rfl
  have hscan : ∀ wide, p.scan options wide (start % 2) (firstUnit wide (start % 2) start)
      (endUnit wide (start % 2) stop - firstUnit wide (start % 2) start)
        = (p.scanFrom options start wide (unitCount (stop - start) (stop - start) wide)).2
          ++ (p.scanFrom options start wide (unitCount (stop - start) (stop - start) wide)).1.kept
            wide options := by
    intro wide
    rw [unitCount_all hle]
    rfl
  rw [hresults, h.run, h.run]
  simp only [scanOf, hscan]
  obtain rfl | hfull := hall
  · refine ((h.results.endIn _ _).endIn _ _).perm ?_
    simp only [kinds, List.append_assoc]
    refine (List.Perm.append_left _ ?_).append_left _
    rw [← List.append_assoc, ← List.append_assoc]
    exact List.perm_append_comm.append_right _
  · rw [StringRun.endIn_of_full hfull, StringRun.endIn_of_full hfull]
    refine h.results.of_full hfull ?_
    have hless : ∀ wide, (p.scanFrom options start wide (unitCount (stop - start) m wide)).2.length
        ≤ (p.scanFrom options start wide
            (unitCount (stop - start) (stop - start) wide)).2.length :=
      fun wide => length_scanUnits_le (unitCount_le hm wide)
    have hfalse := hless false
    have htrue := hless true
    simp only [kinds, List.length_append]
    omega

/-- A range -/
theorem scanRange_eq (hread : p.ReadsMemory)
    (hprogress : ∀ onProgress ∈ progress, ∀ scanned total, onProgress scanned total = true)
    (total scanned : ℕ) {results : List MemoryString} {range : Range} (hle : range.start ≤ range.stop)
    (hreadable : ∀ b, range.start ≤ b → b < range.stop → p.Readable b)
    (h : Collected options.maxResults results before) :
    ∃ scanned' results',
      p.scanRange options progress total (scanned, results) range = .ok (scanned', results')
      ∧ Collected options.maxResults results' (before ++ p.scanOf options range) := by
  have hinit : p.Scanned options range.start before
      (unitCount (range.stop - range.start) (min range.start range.stop - range.start))
      { results } := by
    have hnone : ∀ wide, p.scanFrom options range.start wide (unitCount (range.stop - range.start)
        (min range.start range.stop - range.start) wide) = ({}, []) := by
      intro wide
      have hcount : unitCount (range.stop - range.start) 0 wide = 0 := by
        cases wide <;> simp [unitCount]
      rw [Nat.min_eq_left hle, Nat.sub_self, hcount]
      rfl
    refine ⟨fun wide => ?_, ?_⟩
    · rw [hnone]
      cases wide <;> rfl
    · simp only [hnone]
      simpa [kinds] using h
  obtain ⟨scanned', s', m, hchunks, hscanned, hm, hall⟩ := scanChunks_eq hread
    hprogress total scanned hreadable (Nat.le_refl _) (by rw [Nat.sub_self]) hinit
  refine ⟨scanned', (s'.endRuns options).results, ?_, hscanned.endRuns hle hm hall⟩
  simp only [scanRange, hchunks]
  rfl

theorem scanRanges_eq (hread : p.ReadsMemory)
    (hprogress : ∀ onProgress ∈ progress, ∀ scanned total, onProgress scanned total = true)
    (total scanned : ℕ) {results : List MemoryString} {ranges : List Range}
    (hranges : ∀ range ∈ ranges, range.start ≤ range.stop
      ∧ ∀ b, range.start ≤ b → b < range.stop → p.Readable b)
    (h : Collected options.maxResults results before) :
    ∃ scanned' results',
      ranges.foldlM (p.scanRange options progress total) (scanned, results)
        = .ok (scanned', results')
      ∧ Collected options.maxResults results' (before ++ ranges.flatMap (p.scanOf options)) := by
  induction ranges generalizing results scanned before with
  | nil => exact ⟨scanned, results, rfl, by simpa using h⟩
  | cons range ranges ih =>
    obtain ⟨hle, hreadable⟩ := hranges range List.mem_cons_self
    obtain ⟨scanned₁, results₁, hrange, hcollected⟩ := scanRange_eq hread hprogress
      total scanned hle hreadable h
    obtain ⟨scanned₂, results₂, hrest, hcollected'⟩ := ih scanned₁
      (fun range h => hranges range (List.mem_cons_of_mem _ h)) hcollected
    refine ⟨scanned₂, results₂, ?_, ?_⟩
    · rw [List.foldlM_cons, hrange]
      exact hrest
    · rwa [List.flatMap_cons, ← List.append_assoc]

/-- **What is collected** is what the kinds' own scans of the ranges keep. -/
theorem findStrings_collected (hread : p.ReadsMemory)
    (hprogress : ∀ onProgress ∈ progress, ∀ scanned total, onProgress scanned total = true)
    (hlt : start < stop) (hscans : options.ascii = true ∨ options.unicode = true) :
    ∃ results, (p.findStrings options progress start stop).1 = sortByAddress results
      ∧ Collected options.maxResults results
        (((runs p.Readable start (stop - start)).map toRange).flatMap (p.scanOf options)) := by
  have hranges : (p.readableRanges stop start [] 0).1
      = (runs p.Readable start (stop - start)).map toRange :=
    readableRanges_eq (Nat.le_refl start)
      (by rw [Nat.min_eq_left hlt.le, Nat.sub_self]; rfl)
  have hreadable : ∀ range ∈ (p.readableRanges stop start [] 0).1, range.start ≤ range.stop
      ∧ ∀ b, range.start ≤ b → b < range.stop → p.Readable b := by
    intro range hrange
    rw [hranges] at hrange
    obtain ⟨r, hr, rfl⟩ := List.mem_map.mp hrange
    have hrun := mem_runs_iff.mp hr
    exact ⟨Nat.le_add_right _ _, hrun.all⟩
  have hnone : Collected options.maxResults ([] : List MemoryString) [] := by
    obtain hroom | hfull := Nat.lt_or_ge 0 options.maxResults
    · exact Or.inl ⟨hroom, List.Perm.refl _⟩
    · exact Or.inr ⟨hfull, hfull⟩
  obtain ⟨scanned, results, hscan, hcollected⟩ := scanRanges_eq hread hprogress
    (p.readableRanges stop start [] 0).2 0 hreadable hnone
  refine ⟨results, ?_, ?_⟩
  · have hgoes : ¬(start ≥ stop ∨ (!options.ascii) = true ∧ (!options.unicode) = true) := by
      simp only [Bool.not_eq_true']
      rintro (h | ⟨hascii, hunicode⟩)
      · omega
      · simp [hascii, hunicode] at hscans
    simp only [findStrings, if_neg hgoes, hscan]
  · rwa [List.nil_append, hranges] at hcollected

end Process

end WinSys.Memory
