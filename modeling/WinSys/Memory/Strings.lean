import WinSys.Memory.Find

/-!
# The strings in a process's memory

`ProcessMemory::FindStrings` first collects the readable ranges, of adjacent regions, and reads each
in chunks. Two runs of text are collected at a time, of single bytes and of UTF-16 units. The caller
is told how far the scan got, and may stop it.
-/

namespace WinSys.Memory

open Infra

structure StringScanOptions where
  minLength : UInt32 := 4
  ascii : Bool := true
  unicode : Bool := true
  maxResults : ℕ := 200000
  maxText : UInt32 := 1024

structure MemoryString where
  address : ℕ
  length : UInt32
  wide : Bool
  text : List UInt16
deriving DecidableEq

/-- Printable ASCII and tab; a wide string's Latin-1 letters too -/
def isTextChar (ch : UInt32) (wide : Bool) : Bool :=
  (ch ≥ 0x20 && ch < 0x7F) || ch = 0x09 || (wide && ch ≥ 0xA0 && ch ≤ 0xFF)

/-! ## a run of text -/

structure StringRun where
  start : ℕ := 0
  length : UInt32 := 0
  text : List UInt16 := []

namespace StringRun

def add (run : StringRun) (address : ℕ) (ch : UInt16) (maxText : UInt32) : StringRun where
  start := if run.length = 0 then address else run.start
  length := run.length + 1
  text := if run.text.length < maxText.toNat then run.text ++ [ch] else run.text

/-- What a run is when it has ended. -/
def clear (run : StringRun) : StringRun := { run with length := 0, text := [] }

/-- A long enough run is kept. -/
def endIn (run : StringRun) (wide : Bool) (options : StringScanOptions)
    (results : List MemoryString) : List MemoryString :=
  if run.length ≥ options.minLength ∧ results.length < options.maxResults then
    results ++ [{ address := run.start, length := run.length, wide, text := run.text }]
  else results

end StringRun

/-! ## the scan of a chunk -/

/-- The two runs, and what was found before them. -/
structure Scan where
  ascii : StringRun := {}
  wide : StringRun := {}
  results : List MemoryString

namespace Scan

variable (options : StringScanOptions)

def full (s : Scan) : Bool := s.results.length ≥ options.maxResults

def run (s : Scan) (wide : Bool) : StringRun := if wide then s.wide else s.ascii

def setRun (s : Scan) (wide : Bool) (run : StringRun) : Scan :=
  if wide then { s with wide := run } else { s with ascii := run }

/-- `StringRun::End` -/
def endRun (wide : Bool) (s : Scan) : Scan :=
  { s.setRun wide (s.run wide).clear with results := (s.run wide).endIn wide options s.results }

def endRuns (s : Scan) : Scan := (s.endRun options false).endRun options true

/-- A character goes on with its run, or ends it. -/
def scanChar (wide : Bool) (address : ℕ) (ch : UInt32) (s : Scan) : Scan :=
  if isTextChar ch wide then
    s.setRun wide ((s.run wide).add address ch.toUInt16 options.maxText)
  else if (s.run wide).length ≠ 0 then s.endRun options wide
  else s

/-- The byte `i` of a chunk, and the unit that begins with it -/
def scanByte (data : Bytes) (address : ℕ) (s : Scan) (i : ℕ) : Scan :=
  let s :=
    if options.ascii then s.scanChar options false (address + i) (u8At data i).toUInt32 else s
  if options.unicode ∧ i &&& 1 = 0 ∧ i + 1 < data.length then
    s.scanChar options true (address + i)
      ((u8At data i).toUInt32 ||| (u8At data (i + 1)).toUInt32 <<< 8)
  else s

end Scan

/-! ## the readable ranges -/

structure Range where
  start : ℕ
  stop : ℕ
deriving DecidableEq

/-- A readable region behind the ranges: the last range goes on with it if they are adjacent. -/
def addRange (ranges : List Range) (address regionEnd : ℕ) : List Range :=
  match ranges.getLast? with
  | some back =>
    if back.stop = address then ranges.dropLast ++ [{ back with stop := regionEnd }]
    else ranges ++ [{ start := address, stop := regionEnd }]
  | none => [{ start := address, stop := regionEnd }]

namespace Process

variable (p : Process)

/-- The readable ranges of `address..stop`, and how many bytes they are. -/
def readableRanges (stop address : ℕ) (ranges : List Range) (total : ℕ) : List Range × ℕ :=
  if _hlt : address < stop then
    match hmbi : p.virtualQuery address with
    | none => (ranges, total)
    | some mbi =>
      have _hnext := p.virtualQuery_lt hmbi
      let regionEnd := min (mbi.baseAddress + mbi.regionSize) stop
      if isReadable mbi then
        readableRanges stop (mbi.baseAddress + mbi.regionSize) (addRange ranges address regionEnd)
          (total + (regionEnd - address))
      else readableRanges stop (mbi.baseAddress + mbi.regionSize) ranges total
  else (ranges, total)
termination_by stop - address
decreasing_by all_goals exact Nat.sub_lt_sub_left _hlt _hnext

/-! ## the scan -/

variable (options : StringScanOptions) (progress : Option (ℕ → ℕ → Bool)) (total : ℕ)

/-- The chunks from `address` on. A scan that is stopped has only its results. -/
def scanChunks (stop address scanned : ℕ) (s : Scan) : Except (List MemoryString) (ℕ × Scan) :=
  if _hlt : address < stop ∧ !s.full options then
    let count := min chunkSize (stop - address)
    let read := p.readProcessMemory address count
    if !read.1 && read.2.isEmpty then
      -- a page that went away: what was collected ends here
      scanChunks stop (address + chunkSize) (scanned + count) (s.endRuns options)
    else
      let s := (List.range read.2.length).foldl (Scan.scanByte options read.2 address) s
      let s := if read.2.length < count then s.endRuns options else s
      let scanned := scanned + count
      if progress.all fun onProgress => onProgress scanned total then
        scanChunks stop (address + chunkSize) scanned s
      else .error (s.endRuns options).results
  else .ok (scanned, s)
termination_by stop - address
decreasing_by
  all_goals exact Nat.sub_lt_sub_left _hlt.1 (Nat.lt_add_of_pos_right (Nat.two_pow_pos 20))

def scanRange (scanned : ℕ × List MemoryString) (range : Range) :
    Except (List MemoryString) (ℕ × List MemoryString) := do
  let (scanned, s) ← p.scanChunks options progress total range.stop range.start scanned.1
    { results := scanned.2 }
  pure (scanned, (s.endRuns options).results)

/-- Each kind is in address order; together they are merged. -/
def sortByAddress (results : List MemoryString) : List MemoryString :=
  results.mergeSort fun a b => a.address ≤ b.address

/-- `ProcessMemory::FindStrings` in `start..stop`, and whether it was truncated -/
def findStrings (start stop : ℕ) : List MemoryString × Bool :=
  if start ≥ stop ∨ (!options.ascii ∧ !options.unicode) then ([], false)
  else
    let (ranges, total) := p.readableRanges stop start [] 0
    match ranges.foldlM (p.scanRange options progress total) (0, []) with
    | .error results => (sortByAddress results, true)
    | .ok (_, results) => (sortByAddress results, results.length ≥ options.maxResults)

end Process

end WinSys.Memory
