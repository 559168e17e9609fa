import WinSys.Infra.Bytes
import Mathlib.Order.Basic
import Mathlib.Order.Nat

/-!
# Searching another process's memory

The address space is a list of regions from address 0 on, with what is in them; `VirtualQueryEx`
tells the region of an address. `ProcessMemory::Find` joins adjacent readable regions and searches
them in chunks. User addresses are below 2 ^ 47, so no sum of an address and a chunk wraps.
-/

namespace WinSys.Memory

open Infra

/-! ## the address space -/

structure Region where
  size : ℕ
  state : UInt32
  protect : UInt32

structure MemoryBasicInformation where
  baseAddress : ℕ
  regionSize : ℕ
  state : UInt32
  protect : UInt32

def memCommit : UInt32 := 0x1000

def pageNoAccess : UInt32 := 0x01

def pageGuard : UInt32 := 0x100

def pageSize : ℕ := 0x1000

def isReadable (mbi : MemoryBasicInformation) : Bool :=
  mbi.state = memCommit && mbi.protect ≠ 0 && mbi.protect &&& (pageNoAccess ||| pageGuard) = 0

/-- The region of an address, with its end. -/
def locate : List Region → ℕ → ℕ → Option (Region × ℕ)
  | [], _, _ => none
  | r :: regions, start, address =>
    if address < start + r.size then some (r, start + r.size)
    else locate regions (start + r.size) address

/-- A process whose memory does not change. A read tells whether it was successful, and gives what
was read. -/
structure Process where
  regions : List Region
  memory : ℕ → UInt8
  readProcessMemory : (address count : ℕ) → Bool × Bytes

namespace Process

variable (p : Process)

/-- `VirtualQueryEx`: from the address's page to the end of its region. -/
def virtualQuery (address : ℕ) : Option MemoryBasicInformation :=
  (locate p.regions 0 address).map fun (r, stop) =>
    { baseAddress := address / pageSize * pageSize
      regionSize := stop - address / pageSize * pageSize
      state := r.state
      protect := r.protect }

theorem locate_lt {regions : List Region} {start address stop : ℕ} {r : Region}
    (h : locate regions start address = some (r, stop)) : address < stop := by
  induction regions generalizing start with
  | nil => cases h
  | cons r' regions ih =>
    unfold locate at h
    split at h
    · next hlt =>
      cases h
      exact hlt
    · exact ih h

/-- A region ends behind the address. -/
theorem virtualQuery_end {address : ℕ} {mbi : MemoryBasicInformation}
    (h : p.virtualQuery address = some mbi) :
    ∃ r stop, locate p.regions 0 address = some (r, stop)
      ∧ mbi.baseAddress + mbi.regionSize = stop ∧ mbi.state = r.state ∧ mbi.protect = r.protect
      ∧ address < stop := by
  obtain ⟨⟨r, stop⟩, hlocate, rfl⟩ := Option.map_eq_some_iff.mp h
  have hlt := locate_lt hlocate
  have hpage := Nat.div_mul_le_self address pageSize
  exact ⟨r, stop, hlocate, by simp only; omega, rfl, rfl, hlt⟩

theorem virtualQuery_lt {address : ℕ} {mbi : MemoryBasicInformation}
    (h : p.virtualQuery address = some mbi) : address < mbi.baseAddress + mbi.regionSize := by
  obtain ⟨_, _, -, hend, -, -, hlt⟩ := p.virtualQuery_end h
  omega

end Process

/-! ## the search in a buffer -/

def chunkSize : ℕ := 2 ^ 20

def fold (b : UInt8) : UInt8 := if b ≥ 0x41 ∧ b ≤ 0x5A then b ||| 0x20 else b

section Search

variable (data : Bytes) (pattern : Bytes)

/-- The pattern at `data[i]`, ignoring case; wide: by UTF-16 units, folding only a unit whose high
byte is zero. -/
def matchesFolded (wide : Bool) (i : ℕ) : Bool :=
  if !wide then
    (List.range pattern.length).all fun j => fold (u8At data (i + j)) = fold (u8At pattern j)
  else
    (List.range (pattern.length / 2)).all (fun k =>
      let j := 2 * k
      u8At data (i + (j + 1)) = u8At pattern (j + 1)
        && (if u8At pattern (j + 1) = 0 then fold (u8At data (i + j)) = fold (u8At pattern j)
          else u8At data (i + j) = u8At pattern j))
    -- an odd last byte (not UTF-16 really) exactly
    && (pattern.length % 2 = 0
      || u8At data (i + (pattern.length - 1)) = u8At pattern (pattern.length - 1))

/-- The first of `n` bytes from `i` on that is `b`. -/
def memchr (i n : ℕ) (b : UInt8) : Option ℕ :=
  (List.range n).find? (fun j => u8At data (i + j) = b) |>.map (i + ·)

/-- `memcmp` is 0. -/
def memcmp (i : ℕ) : Bool :=
  (List.range pattern.length).all fun j => u8At data (i + j) = u8At pattern j

variable {data} in
/-- What is found lies ahead. -/
theorem memchr_ahead {last i found : ℕ} {b : UInt8} (hi : i ≤ last)
    (hfound : memchr data i (last - i + 1) b = some found) :
    last + 1 - (found + 1) < last + 1 - i := by
  obtain ⟨j, hj, rfl⟩ := Option.map_eq_some_iff.mp hfound
  have hmem := List.mem_range.mp (List.mem_of_find?_eq_some hj)
  omega

/-- The exact search from `i` on: the pattern's first byte is looked for. -/
def searchExact (last i : ℕ) : Option ℕ :=
  if _hi : i ≤ last then
    match hfound : memchr data i (last - i + 1) (u8At pattern 0) with
    | none => none
    | some found =>
      if memcmp data pattern found then some found
      else searchExact last (found + 1)
  else none
termination_by last + 1 - i
decreasing_by exact memchr_ahead _hi hfound

/-- The first match in the data. -/
def search (ignoreCase wide : Bool) : Option ℕ :=
  if data.length < pattern.length then none
  else
    let last := data.length - pattern.length
    if !ignoreCase then searchExact data pattern last 0
    else (List.range (last + 1)).find? fun i =>
      fold (u8At data i) = fold (u8At pattern 0) && matchesFolded data pattern wide i

end Search

/-! ## the search in a process -/

namespace Process

variable (p : Process) (pattern : Bytes) (stop : ℕ) (ignoreCase wide : Bool)

/-- The end of the readable regions that end or begin at `regionEnd`. -/
def readableEnd (regionEnd : ℕ) : ℕ :=
  if _hstop : regionEnd < stop then
    match hnext : p.virtualQuery regionEnd with
    | none => regionEnd
    | some next =>
      have _hlt := p.virtualQuery_lt hnext
      if isReadable next then readableEnd (next.baseAddress + next.regionSize) else regionEnd
  else regionEnd
termination_by stop - regionEnd
decreasing_by exact Nat.sub_lt_sub_left _hstop _hlt

/-- The chunks from `address` on, each with what a match that starts in it needs of the next. -/
def findInChunks (address : ℕ) : Option ℕ :=
  if _hlt : address < stop then
    let count := min (chunkSize + pattern.length - 1) (stop - address)
    let read := p.readProcessMemory address count
    if !read.1 && read.2.isEmpty then none
    else
      match search read.2 pattern ignoreCase wide with
      | some i => some (address + i)
      | none => findInChunks (address + chunkSize)
  else none
termination_by stop - address
decreasing_by exact Nat.sub_lt_sub_left _hlt (Nat.lt_add_of_pos_right (Nat.two_pow_pos 20))

theorem le_readableEnd (regionEnd : ℕ) : regionEnd ≤ p.readableEnd stop regionEnd := by
  fun_induction readableEnd p stop regionEnd with
  | case1 => exact Nat.le_refl _
  | case2 regionEnd _ next _ hlt _ ih => exact hlt.le.trans ih
  | case3 => exact Nat.le_refl _
  | case4 => exact Nat.le_refl _

def findFrom (address : ℕ) : Option ℕ :=
  if _hlt : address < stop then
    match hmbi : p.virtualQuery address with
    | none => none
    | some mbi =>
      have _hnext := p.virtualQuery_lt hmbi
      let regionEnd := mbi.baseAddress + mbi.regionSize
      if isReadable mbi then
        have _hend := _hnext.trans_le (p.le_readableEnd stop regionEnd)
        -- the readable regions after it too, so a match may cross into them
        let regionEnd := p.readableEnd stop regionEnd
        match p.findInChunks pattern (min regionEnd stop) ignoreCase wide address with
        | some found => some found
        | none => findFrom regionEnd
      else findFrom regionEnd
  else none
termination_by stop - address
decreasing_by
  · exact Nat.sub_lt_sub_left _hlt _hend
  · exact Nat.sub_lt_sub_left _hlt _hnext

/-- `ProcessMemory::Find` in `start..stop` -/
def find (start : ℕ) : Option ℕ :=
  if pattern = [] ∨ start ≥ stop then none else p.findFrom pattern stop ignoreCase wide start

end Process

end WinSys.Memory
