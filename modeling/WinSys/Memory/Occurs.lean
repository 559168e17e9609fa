import WinSys.Infra.First
import WinSys.Memory.Find

/-!
# The search finds the first occurrence

An occurrence is a place where the pattern matches, byte for byte under the folding, inside the
range and inside readable regions. Each loop of `find` is a first search of the places it passes:
the exact and the folded search of a buffer, the chunks of a readable range, and the ranges.

* `Process.Occurs`: an occurrence
* `Process.find_first`: `find` gives the first one
-/

namespace WinSys.Memory

open Infra

/-! ## a match -/

/-- A byte of the pattern that is folded: of a wide pattern, the low byte of a whole unit whose high
byte is zero. -/
def Folds (pattern : Bytes) (ignoreCase wide : Bool) (j : ℕ) : Prop :=
  ignoreCase = true ∧ (wide = true → j % 2 = 0 ∧ j + 1 < pattern.length ∧ u8At pattern (j + 1) = 0)

instance (pattern : Bytes) (ignoreCase wide : Bool) (j : ℕ) :
    Decidable (Folds pattern ignoreCase wide j) := inferInstanceAs (Decidable (_ ∧ _))

/-- The pattern is what a memory has at an address. -/
def MatchAt (memory : ℕ → UInt8) (pattern : Bytes) (ignoreCase wide : Bool) (address : ℕ) : Prop :=
  ∀ j < pattern.length,
    if Folds pattern ignoreCase wide j then fold (memory (address + j)) = fold (u8At pattern j)
    else memory (address + j) = u8At pattern j

instance (memory : ℕ → UInt8) (pattern : Bytes) (ignoreCase wide : Bool) (address : ℕ) :
    Decidable (MatchAt memory pattern ignoreCase wide address) :=
  inferInstanceAs (Decidable (∀ j < _, _))

section Search

variable {data pattern : Bytes} {wide : Bool} {i : ℕ}

theorem memcmp_iff :
    memcmp data pattern i = true ↔ MatchAt (u8At data) pattern false wide i := by
  have hexact : ∀ j, ¬Folds pattern false wide j := fun j h => absurd h.1 (by decide)
  simp only [memcmp, List.all_eq_true, List.mem_range, decide_eq_true_eq, MatchAt, if_neg (hexact _)]

theorem matchesFolded_narrow :
    matchesFolded data pattern false i = true ↔ MatchAt (u8At data) pattern true false i := by
  have hfolds : ∀ j, Folds pattern true false j := fun j => ⟨rfl, nofun⟩
  simp only [matchesFolded, Bool.not_false, if_true, List.all_eq_true, List.mem_range,
    decide_eq_true_eq, MatchAt, if_pos (hfolds _)]

/-- The units and the odd last byte are the bytes. -/
theorem matchesFolded_wide :
    matchesFolded data pattern true i = true ↔ MatchAt (u8At data) pattern true true i := by
  have hfolds : ∀ j, Folds pattern true true j ↔
      j % 2 = 0 ∧ j + 1 < pattern.length ∧ u8At pattern (j + 1) = 0 := by
    intro j
    simp [Folds]
  simp only [matchesFolded, Bool.not_true, Bool.false_eq_true, if_false, Bool.and_eq_true,
    List.all_eq_true, List.mem_range, Bool.or_eq_true, decide_eq_true_eq]
  constructor
  · rintro ⟨hunits, hlast⟩ j hj
    rw [if_congr (hfolds j) rfl rfl]
    obtain heven | hodd := Nat.mod_two_eq_zero_or_one j
    · by_cases hunit : j + 1 < pattern.length
      · have hlow := (hunits (j / 2) (by omega)).2
        have hj2 : 2 * (j / 2) = j := by omega
        rw [hj2] at hlow
        by_cases hzero : u8At pattern (j + 1) = 0
        · rw [if_pos ⟨heven, hunit, hzero⟩]
          simpa [hzero] using hlow
        · rw [if_neg fun h => hzero h.2.2]
          simpa [hzero] using hlow
      · have hsize : pattern.length - 1 = j := by omega
        rw [if_neg fun h => hunit h.2.1, ← hsize]
        exact hlast.resolve_left (by omega)
    · have hhigh := (hunits (j / 2) (by omega)).1
      have hj2 : 2 * (j / 2) + 1 = j := by omega
      rw [hj2] at hhigh
      rw [if_neg fun h => by omega]
      exact hhigh
  · intro h
    refine ⟨fun k hk => ⟨?_, ?_⟩, ?_⟩
    · have hhigh := h (2 * k + 1) (by omega)
      rw [if_neg fun hf => by have := ((hfolds _).mp hf).1; omega] at hhigh
      exact hhigh
    · have hlow := h (2 * k) (by omega)
      rw [if_congr (hfolds _) rfl rfl] at hlow
      by_cases hzero : u8At pattern (2 * k + 1) = 0
      · rw [if_pos ⟨by omega, by omega, hzero⟩] at hlow
        simpa [hzero] using hlow
      · rw [if_neg fun h => hzero h.2.2] at hlow
        simpa [hzero] using hlow
    · by_cases heven : pattern.length % 2 = 0
      · exact Or.inl heven
      · have hlast := h (pattern.length - 1) (by omega)
        rw [if_neg fun hf => by have := ((hfolds _).mp hf).2.1; omega] at hlast
        exact Or.inr hlast

theorem matchesFolded_iff :
    matchesFolded data pattern wide i = true ↔ MatchAt (u8At data) pattern true wide i := by
  cases wide with
  | false => exact matchesFolded_narrow
  | true => exact matchesFolded_wide

/-- A match has the pattern's first byte, folded. -/
theorem MatchAt.first {memory : ℕ → UInt8} {ignoreCase : Bool} (hne : pattern ≠ [])
    (h : MatchAt memory pattern ignoreCase wide i) : fold (memory i) = fold (u8At pattern 0) := by
  have hfirst := h 0 (List.length_pos_iff.mpr hne)
  split at hfirst
  · exact hfirst
  · exact congrArg fold hfirst

theorem MatchAt.first_exact {memory : ℕ → UInt8} (hne : pattern ≠ [])
    (h : MatchAt memory pattern false wide i) : memory i = u8At pattern 0 := by
  have hfirst := h 0 (List.length_pos_iff.mpr hne)
  rwa [if_neg fun hf => absurd hf.1 (by decide)] at hfirst

/-! ## the search in a buffer -/

theorem memchr_first (n : ℕ) (b : UInt8) :
    FirstIn (fun k => u8At data k = b) i (i + n) (memchr data i n b) := by
  have hfind := FirstIn.find?_range (p := fun j => decide (u8At data (i + j) = b)) n
  simp only [decide_eq_true_eq] at hfind
  exact FirstIn.shift (P := fun k => u8At data k = b) hfind

theorem searchExact_first (hne : pattern ≠ []) (last : ℕ) :
    FirstIn (MatchAt (u8At data) pattern false wide) i (last + 1)
      (searchExact data pattern last i) := by
  fun_induction searchExact data pattern last i with
  | case1 i hi hfound =>
    have hno := @memchr_first data i (last - i + 1) (u8At pattern 0)
    rw [hfound] at hno
    exact fun k hk hlt hmatch => hno k hk (by omega) (hmatch.first_exact hne)
  | case2 i hi found hfound hmatch =>
    have hfirst := @memchr_first data i (last - i + 1) (u8At pattern 0)
    rw [hfound] at hfirst
    refine ⟨hfirst.1, by have := hfirst.2.1; omega, memcmp_iff.mp hmatch, fun k hk hlt h => ?_⟩
    exact hfirst.2.2.2 k hk hlt (h.first_exact hne)
  | case3 i hi found hfound hmatch ih =>
    have hfirst := @memchr_first data i (last - i + 1) (u8At pattern 0)
    rw [hfound] at hfirst
    have hahead := hfirst.1
    refine FirstIn.right (fun k hk hlt h => ?_) ih (by omega)
    obtain hbefore | rfl := Nat.lt_succ_iff_lt_or_eq.mp hlt
    · exact hfirst.2.2.2 k hk hbefore (h.first_exact hne)
    · exact hmatch (memcmp_iff.mpr h)
  | case4 i hi => exact FirstIn.empty (by omega)

/-- **A buffer is searched for the first match** that is all in it. -/
theorem search_first (hne : pattern ≠ []) (ignoreCase : Bool) {n : ℕ}
    (hn : data.length < n + pattern.length) :
    FirstIn (fun k => k + pattern.length ≤ data.length
        ∧ MatchAt (u8At data) pattern ignoreCase wide k) 0 n
      (search data pattern ignoreCase wide) := by
  unfold search
  split
  · exact fun k _ _ h => by omega
  · next hlong =>
    have hbound : FirstIn (MatchAt (u8At data) pattern ignoreCase wide) 0
        (data.length - pattern.length + 1)
        (if !ignoreCase then searchExact data pattern (data.length - pattern.length) 0
        else (List.range (data.length - pattern.length + 1)).find? fun i =>
          fold (u8At data i) = fold (u8At pattern 0) && matchesFolded data pattern wide i) := by
      cases ignoreCase with
      | false => exact searchExact_first hne _
      | true =>
        refine (FirstIn.find?_range _).congr fun k _ _ => ?_
        rw [Bool.and_eq_true, decide_eq_true_eq, matchesFolded_iff]
        exact ⟨fun h => h.2, fun h => ⟨h.first hne, h⟩⟩
    refine FirstIn.extend (hbound.congr fun k _ hlt => ?_) (by omega) fun k hk _ h => by omega
    exact ⟨fun h => ⟨by omega, h⟩, fun h => h.2⟩

end Search

/-! ## regions -/

theorem locate_same {regions : List Region} {start address other stop : ℕ} {r : Region}
    (h : locate regions start address = some (r, stop)) (hle : address ≤ other)
    (hlt : other < stop) : locate regions start other = some (r, stop) := by
  induction regions generalizing start with
  | nil => cases h
  | cons r' regions ih =>
    unfold locate at h ⊢
    split at h
    · cases h
      rw [if_pos hlt]
    · next hbehind =>
      rw [if_neg (by omega)]
      exact ih h

theorem locate_none {regions : List Region} {start address other : ℕ}
    (h : locate regions start address = none) (hle : address ≤ other) :
    locate regions start other = none := by
  induction regions generalizing start with
  | nil => rfl
  | cons r regions ih =>
    unfold locate at h ⊢
    split at h
    · cases h
    · next hbehind =>
      rw [if_neg (by omega)]
      exact ih h

namespace Process

variable {p : Process} {address other stop : ℕ}

def Readable (p : Process) (address : ℕ) : Prop :=
  ∃ mbi, p.virtualQuery address = some mbi ∧ isReadable mbi = true

/-- A region is readable as a whole. -/
theorem readable_iff {mbi : MemoryBasicInformation} (h : p.virtualQuery address = some mbi)
    (hle : address ≤ other) (hlt : other < mbi.baseAddress + mbi.regionSize) :
    p.Readable other ↔ isReadable mbi = true := by
  obtain ⟨r, regionEnd, hlocate, hend, hstate, hprotect, -⟩ := p.virtualQuery_end h
  have hsame := locate_same hlocate hle (hend ▸ hlt)
  have hquery : ∀ mbi', p.virtualQuery other = some mbi' → isReadable mbi' = isReadable mbi := by
    intro mbi' h'
    obtain ⟨r', _, hlocate', -, hstate', hprotect', -⟩ := p.virtualQuery_end h'
    rw [hsame] at hlocate'
    cases hlocate'
    rw [isReadable, isReadable, hstate', hprotect', hstate, hprotect]
  constructor
  · rintro ⟨mbi', h', hreadable⟩
    rwa [← hquery mbi' h']
  · intro hreadable
    have hsome : ∃ mbi', p.virtualQuery other = some mbi' := by
      unfold virtualQuery
      rw [hsame]
      exact ⟨_, rfl⟩
    obtain ⟨mbi', h'⟩ := hsome
    exact ⟨mbi', h', by rwa [hquery mbi' h']⟩

theorem not_readable_of_none (h : p.virtualQuery address = none) (hle : address ≤ other) :
    ¬p.Readable other := by
  rintro ⟨mbi, h', -⟩
  have hnone := locate_none (Option.map_eq_none_iff.mp h) hle
  rw [virtualQuery, hnone] at h'
  cases h'

/-- The readable regions are joined up to the range's end or to what cannot be read. -/
theorem readableEnd_spec (stop regionEnd : ℕ) :
    (∀ b, regionEnd ≤ b → b < p.readableEnd stop regionEnd → p.Readable b)
      ∧ (stop ≤ p.readableEnd stop regionEnd ∨ ¬p.Readable (p.readableEnd stop regionEnd)) := by
  fun_induction readableEnd p stop regionEnd with
  | case1 regionEnd _ hnone =>
    exact ⟨fun b hb hlt => absurd hlt (Nat.not_lt.mpr hb),
      Or.inr (not_readable_of_none hnone (Nat.le_refl _))⟩
  | case2 regionEnd _ next hnext hlt hreadable ih =>
    refine ⟨fun b hb hb' => ?_, ih.2⟩
    obtain hinside | hbehind := Nat.lt_or_ge b (next.baseAddress + next.regionSize)
    · exact (readable_iff hnext hb hinside).mpr hreadable
    · exact ih.1 b hbehind hb'
  | case3 regionEnd _ next hnext hlt hreadable =>
    refine ⟨fun b hb hlt => absurd hlt (Nat.not_lt.mpr hb), Or.inr fun h => hreadable ?_⟩
    exact (readable_iff hnext (Nat.le_refl _) hlt).mp h
  | case4 regionEnd hend =>
    exact ⟨fun b hb hlt => absurd hlt (Nat.not_lt.mpr hb), Or.inl (Nat.not_lt.mp hend)⟩

/-! ## the search of a readable range -/

/-- What is readable is read successfully, as it is. -/
def ReadsMemory (p : Process) : Prop :=
  ∀ address count, (∀ b, address ≤ b → b < address + count → p.Readable b) →
    p.readProcessMemory address count
      = (true, (List.range count).map fun i => p.memory (address + i))

variable {pattern : Bytes} {ignoreCase wide : Bool}

theorem u8At_read {count i : ℕ} (h : i < count) :
    u8At ((List.range count).map fun i => p.memory (address + i)) i = p.memory (address + i) := by
  simp [u8At, List.getD_eq_getElem?_getD, h]

theorem matchAt_read {count i : ℕ} (h : i + pattern.length ≤ count) :
    MatchAt (u8At ((List.range count).map fun i => p.memory (address + i))) pattern ignoreCase wide i
      ↔ MatchAt p.memory pattern ignoreCase wide (address + i) := by
  refine forall₂_congr fun j hj => ?_
  rw [u8At_read (by omega), Nat.add_assoc]

theorem findInChunks_first (hread : p.ReadsMemory) (hne : pattern ≠ [])
    (hreadable : ∀ b, address ≤ b → b < stop → p.Readable b) :
    FirstIn (fun a => a + pattern.length ≤ stop ∧ MatchAt p.memory pattern ignoreCase wide a)
      address stop (p.findInChunks pattern stop ignoreCase wide address) := by
  have hsize := List.length_pos_iff.mpr hne
  have hchunk : 0 < chunkSize := Nat.two_pow_pos 20
  -- a chunk is a search of the places in it
  have hfirst : ∀ address count, count = min (chunkSize + pattern.length - 1) (stop - address) →
      address < stop → (∀ b, address ≤ b → b < stop → p.Readable b) →
      p.readProcessMemory address count
          = (true, (List.range count).map fun i => p.memory (address + i))
        ∧ FirstIn (fun a => a + pattern.length ≤ stop
            ∧ MatchAt p.memory pattern ignoreCase wide a) address (address + chunkSize)
          ((search (p.readProcessMemory address count).2 pattern ignoreCase wide).map
            (address + ·)) := by
    intro address count hcount hlt hreadable
    have hdata := hread address count fun b hb hb' => hreadable b hb (by omega)
    refine ⟨hdata, FirstIn.shift ?_⟩
    rw [hdata]
    refine (search_first hne ignoreCase (n := chunkSize) ?_).congr fun k _ hk => ?_
    · rw [List.length_map, List.length_range]
      omega
    · rw [List.length_map, List.length_range]
      constructor
      · rintro ⟨hle, hmatch⟩
        exact ⟨by omega, (matchAt_read hle).mp hmatch⟩
      · rintro ⟨hle, hmatch⟩
        exact ⟨by omega, (matchAt_read (by omega)).mpr hmatch⟩
  fun_induction findInChunks p pattern stop ignoreCase wide address with
  | case1 address hlt count read hfailed =>
    have hdata := (hfirst address count rfl hlt hreadable).1
    simp [read, hdata] at hfailed
  | case2 address hlt count read _ i hfound =>
    have hsearch := (hfirst address count rfl hlt hreadable).2
    rw [hfound, Option.map_some] at hsearch
    exact hsearch.within (by have := hsearch.2.2.1.1; omega)
  | case3 address hlt count read _ hnone ih =>
    have hsearch := (hfirst address count rfl hlt hreadable).2
    rw [hnone, Option.map_none] at hsearch
    exact hsearch.right (ih fun b hb => hreadable b (by omega)) (Nat.le_add_right _ _)
  | case4 address hend => exact FirstIn.empty (Nat.not_lt.mp hend)

/-! ## the whole search -/

/-- The pattern is all in the range and in readable regions. -/
def Occurs (p : Process) (pattern : Bytes) (ignoreCase wide : Bool) (start stop address : ℕ) :
    Prop :=
  start ≤ address ∧ address + pattern.length ≤ stop
    ∧ (∀ j < pattern.length, p.Readable (address + j))
    ∧ MatchAt p.memory pattern ignoreCase wide address

/-- An occurrence can be read where it begins. -/
theorem Occurs.readable {start : ℕ} (hne : pattern ≠ [])
    (h : p.Occurs pattern ignoreCase wide start stop address) : p.Readable address :=
  h.2.2.1 0 (List.length_pos_iff.mpr hne)

/-- In joined regions a match is an occurrence: what follows them is not readable, or not in the
range. -/
theorem joined_first (hread : p.ReadsMemory) (hne : pattern ≠ []) {start : ℕ}
    (hstart : start ≤ address) {mbi : MemoryBasicInformation}
    (hmbi : p.virtualQuery address = some mbi) (hreadable : isReadable mbi = true) {joined : ℕ}
    (hjoined : joined = p.readableEnd stop (mbi.baseAddress + mbi.regionSize)) :
    FirstIn (p.Occurs pattern ignoreCase wide start stop) address (min joined stop)
      (p.findInChunks pattern (min joined stop) ignoreCase wide address) := by
  obtain ⟨hbehind, hends⟩ := readableEnd_spec (p := p) stop (mbi.baseAddress + mbi.regionSize)
  rw [← hjoined] at hbehind hends
  have hall : ∀ b, address ≤ b → b < joined → p.Readable b := by
    intro b hb hlt
    obtain hinside | hafter := Nat.lt_or_ge b (mbi.baseAddress + mbi.regionSize)
    · exact (readable_iff hmbi hb hinside).mpr hreadable
    · exact hbehind b hafter hlt
  have hchunks : FirstIn (fun a => a + pattern.length ≤ min joined stop
      ∧ MatchAt p.memory pattern ignoreCase wide a) address (min joined stop)
      (p.findInChunks pattern (min joined stop) ignoreCase wide address) := findInChunks_first hread hne
    fun b hb (hb' : b < min joined stop) => hall b hb (by omega)
  refine hchunks.congr fun b hb hb' => ?_
  constructor
  · rintro ⟨hinside, hmatch⟩
    exact ⟨by omega, by omega, fun j hj => hall _ (by omega) (by omega), hmatch⟩
  · rintro ⟨-, hinside, hreads, hmatch⟩
    refine ⟨?_, hmatch⟩
    by_contra hcross
    obtain hstop | hunreadable := hends
    · omega
    · have hat := hreads (joined - b) (by omega)
      rw [Nat.add_sub_cancel' (by omega)] at hat
      exact hunreadable hat

theorem findFrom_first (hread : p.ReadsMemory) (hne : pattern ≠ []) {start : ℕ}
    (hstart : start ≤ address) :
    FirstIn (p.Occurs pattern ignoreCase wide start stop) address stop
      (p.findFrom pattern stop ignoreCase wide address) := by
  fun_induction findFrom p pattern stop ignoreCase wide address with
  | case1 address _ hnone =>
    exact fun b hb _ h => not_readable_of_none hnone hb (h.readable hne)
  | case2 address _ mbi hmbi _ _ hreadable _ joined a hfound =>
    have hfirst : FirstIn (p.Occurs pattern ignoreCase wide start stop) address (min joined stop)
        (some a) := hfound ▸ joined_first hread hne hstart hmbi hreadable rfl
    exact hfirst.within (hfirst.2.1.trans_le (Nat.min_le_right _ _))
  | case3 address _ mbi hmbi _ _ hreadable hend joined hnone ih =>
    have hfirst : FirstIn (p.Occurs pattern ignoreCase wide start stop) address (min joined stop)
        none := hnone ▸ joined_first hread hne hstart hmbi hreadable rfl
    have hjoined := hfirst.extend (Nat.min_le_left joined stop) fun b hb hlt h => by
      have hsize := List.length_pos_iff.mpr hne
      have hinside := h.2.1
      omega
    exact hjoined.right (ih (hstart.trans hend.le)) hend.le
  | case4 address _ mbi hmbi hnext regionEnd hunreadable ih =>
    refine FirstIn.right (fun b hb hlt h => hunreadable ?_) (ih (hstart.trans hnext.le)) hnext.le
    exact (readable_iff hmbi hb hlt).mp (h.readable hne)
  | case5 address hend => exact FirstIn.empty (Nat.not_lt.mp hend)

/-- **The search finds the first occurrence**, and nothing only if there is none. -/
theorem find_first (p : Process) (hread : p.ReadsMemory) (pattern : Bytes) (hne : pattern ≠ [])
    (ignoreCase wide : Bool) (start stop : ℕ) :
    (∀ a, p.find pattern stop ignoreCase wide start = some a ↔
      p.Occurs pattern ignoreCase wide start stop a
        ∧ ∀ b < a, ¬p.Occurs pattern ignoreCase wide start stop b)
    ∧ (p.find pattern stop ignoreCase wide start = none ↔
      ∀ a, ¬p.Occurs pattern ignoreCase wide start stop a) := by
  have hsize := List.length_pos_iff.mpr hne
  have hfirst : FirstIn (p.Occurs pattern ignoreCase wide start stop) start stop
      (p.find pattern stop ignoreCase wide start) := by
    unfold find
    split
    · next hempty => exact FirstIn.empty (hempty.resolve_left hne)
    · exact findFrom_first hread hne (Nat.le_refl _)
  have hrange : ∀ a, p.Occurs pattern ignoreCase wide start stop a → start ≤ a ∧ a < stop :=
    fun a h => ⟨h.1, by have := h.2.1; omega⟩
  constructor
  · intro a
    rw [hfirst.eq_some_iff]
    constructor
    · rintro ⟨⟨-, -, ha⟩, hleast⟩
      exact ⟨ha, fun b hlt hb => hleast b (hrange b hb).1 hlt hb⟩
    · rintro ⟨ha, hleast⟩
      exact ⟨⟨(hrange a ha).1, (hrange a ha).2, ha⟩, fun b _ hlt => hleast b hlt⟩
  · rw [hfirst.eq_none_iff]
    exact ⟨fun h a ha => h a (hrange a ha).1 (hrange a ha).2 ha, fun h b _ _ => h b⟩

end Process

/-! ## a process -/

/-- Two adjacent readable regions between free ones; every read is successful. -/
def twoRegions : Process where
  regions := [⟨0x1000, 0x10000, 0⟩, ⟨0x1000, memCommit, 0x04⟩, ⟨0x1000, memCommit, 0x02⟩,
    ⟨0x1000, 0x10000, 0⟩]
  memory address := if address = 0x1FFF then 0x48 else if address = 0x2000 then 0x69 else 0
  readProcessMemory address count := (true, (List.range count).map fun i =>
    if address + i = 0x1FFF then 0x48 else if address + i = 0x2000 then 0x69 else 0)

/-- A match across the regions' border, with the case ignored. -/
theorem find_first_twoRegions :
    twoRegions.find [0x68, 0x49] 0x4000 true false 0 = some 0x1FFF := by
  refine ((Process.find_first twoRegions (fun _ _ _ => rfl) [0x68, 0x49] (by decide) true false 0
    0x4000).1 0x1FFF).mpr ⟨⟨by decide, by decide, ?_, by decide⟩, ?_⟩
  · intro j hj
    obtain rfl | rfl : j = 0 ∨ j = 1 := by
      simp only [List.length_cons, List.length_nil] at hj
      omega
    · exact ⟨_, rfl, by decide⟩
    · exact ⟨_, rfl, by decide⟩
  · rintro b hlt ⟨-, -, -, hmatch⟩
    have hbyte : twoRegions.memory b = 0 := by
      have hne : b ≠ 0x1FFF ∧ b ≠ 0x2000 := by omega
      simp [twoRegions, hne]
    have hfirst := hmatch.first (by decide)
    rw [hbyte] at hfirst
    exact absurd hfirst (by decide)

end WinSys.Memory
