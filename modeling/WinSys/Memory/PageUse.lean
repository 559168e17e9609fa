import WinSys.Infra.Attempts
import Mathlib.Algebra.BigOperators.Group.Finset.Piecewise
import Mathlib.Data.Fintype.BigOperators
import Mathlib.Data.UInt

/-!
# The use of physical memory

`PageUseCounts::Read` asks for the pages of each range of memory in batches and counts them by use
and list; a page on the zeroed, free or bad list has no use.

* `PageUseCounts.Tallied`: every page is counted once
* `allRequests`, `Since`: the requests for the pages, and what has been counted of them
* `since_readRange`, `flatten_requests`: a range's requests are its pages
* `read_counts`
-/

namespace WinSys.PhysicalMemory

open Infra

/-! ## the source -/

/-- `PageList`: a bit field of three bits. -/
inductive PageList where
  | zeroed | free | standby | modified | modifiedNoWrite | bad | active | transition
deriving DecidableEq, Repr

instance : Fintype PageList where
  elems := {.zeroed, .free, .standby, .modified, .modifiedNoWrite, .bad, .active, .transition}
  complete list := by cases list <;> decide

/-- `PageUse`: a bit field of four bits. -/
abbrev PageUse := Fin 16

/-- What a `MMPFN_IDENTITY` says of a page. -/
@[ext]
structure Identity where
  useDescription : PageUse
  listDescription : PageList
deriving DecidableEq, Repr

structure PhysicalMemoryRange where
  basePage : UInt64
  pageCount : UInt64
deriving DecidableEq, Repr

structure PageUseCounts where
  pages : PageUse → PageList → UInt64
  unused : PageList → UInt64
  totalPages : UInt64
  pageSize : UInt64

/-- What the page held before means nothing now. -/
def PageList.isUnused : PageList → Bool
  | .zeroed | .free | .bad => true
  | _ => false

def PageUseCounts.add (counts : PageUseCounts) (frame : Identity) : PageUseCounts :=
  if frame.listDescription.isUnused then
    { counts with
      unused := fun list => counts.unused list + if list = frame.listDescription then 1 else 0 }
  else
    { counts with
      pages := fun use list => counts.pages use list
        + if use = frame.useDescription ∧ list = frame.listDescription then 1 else 0 }

/-- What answers `Read`; `ranges` by the version, the number of the call and the room it has, and
`pfnQuery` by the number of the call. -/
structure System where
  ranges : UInt32 → ℕ → UInt32 → Tried (List PhysicalMemoryRange)
  pageSize : UInt64
  pfnQuery : ℕ → List UInt64 → Except UInt32 (List Identity)
  cancelled : ℕ → Bool
  dosError : UInt32 → UInt32

def statusPrivilegeNotHeld : UInt32 := 0xC0000061
def statusAccessDenied : UInt32 := 0xC0000022
def statusBufferTooSmall : UInt32 := 0xC0000023
def errorCancelled : UInt32 := 1223

def moreRoom (size needed : UInt32) : UInt32 := if needed > size then needed else size * 4

/-- `QueryRanges`, whose structure has a size before its ranges. -/
def System.queryRanges (system : System) (version headerSize : UInt32) :
    Except UInt32 (List PhysicalMemoryRange) :=
  match attempts (system.ranges version) moreRoom 4 0 (headerSize + 64 * 16) with
  | .done ranges => .ok ranges
  | .more _ => .error statusBufferTooSmall
  | .failed status => .error status

/-- `GetRanges`: the second version of the structure, or the first where that is not known. -/
def System.getRanges (system : System) : Except UInt32 (List PhysicalMemoryRange) :=
  match system.queryRanges 2 16 with
  | .ok ranges => .ok ranges
  | .error status =>
    if status = statusPrivilegeNotHeld ∨ status = statusAccessDenied then .error status
    else system.queryRanges 1 8

/-- How far `Read` is: the counts, and the calls that were made. -/
structure Progress where
  counts : PageUseCounts
  call : ℕ

def batch : ℕ := 64 * 1024

/-- The frames of a request. -/
def PhysicalMemoryRange.request (range : PhysicalMemoryRange) (done count : ℕ) : List UInt64 :=
  (List.range count).map fun i => range.basePage + done.toUInt64 + i.toUInt64

/-- The loop over a range's batches, of so many turns at most. -/
def System.readRange (system : System) (range : PhysicalMemoryRange) :
    ℕ → ℕ → Progress → Except UInt32 Progress
  | 0, _, p => .ok p
  | turns + 1, done, p =>
    if range.pageCount.toNat ≤ done then .ok p
    else if system.cancelled p.call then .error errorCancelled
    else
      let count := min batch (range.pageCount.toNat - done)
      match system.pfnQuery p.call (range.request done count) with
      | .error status => .error (system.dosError status)
      | .ok frames =>
        readRange system range turns (done + count)
          ⟨frames.foldl PageUseCounts.add p.counts, p.call + 1⟩

def PageUseCounts.start (pageSize : UInt64) : PageUseCounts where
  pages _ _ := 0
  unused _ := 0
  totalPages := 0
  pageSize := pageSize

/-- The loop over the ranges. -/
def System.readRanges (system : System) : List PhysicalMemoryRange → Progress → Except UInt32 Progress
  | [], p => .ok p
  | range :: ranges, p =>
    let p := { p with
      counts := { p.counts with totalPages := p.counts.totalPages + range.pageCount } }
    -- a turn is at least one page
    match system.readRange range range.pageCount.toNat 0 p with
    | .ok p => readRanges system ranges p
    | .error error => .error error

/-- `PageUseCounts::Read` -/
def System.read (system : System) : Except UInt32 PageUseCounts :=
  match system.getRanges with
  | .error status => .error (system.dosError status)
  | .ok ranges =>
    match system.readRanges ranges ⟨.start system.pageSize, 0⟩ with
    | .ok p => .ok p.counts
    | .error error => .error error

/-! ## every page once -/

namespace PageUseCounts

variable (counts : PageUseCounts) (frame : Identity) (frames : List Identity)

/-- A page of a use on a list where that means something. -/
def held (use : PageUse) (list : PageList) (frame : Identity) : Bool :=
  !frame.listDescription.isUnused && frame == ⟨use, list⟩

/-- A page on a list where its use means nothing. -/
def idle (list : PageList) (frame : Identity) : Bool :=
  frame.listDescription.isUnused && frame.listDescription == list

theorem pages_add (use : PageUse) (list : PageList) :
    (counts.add frame).pages use list
      = counts.pages use list + if held use list frame then 1 else 0 := by
  unfold add held
  cases frame.listDescription.isUnused with
  | true => exact (UInt64.add_zero _).symm
  | false =>
    have hsame : (use = frame.useDescription ∧ list = frame.listDescription)
        ↔ (!false && frame == ⟨use, list⟩) = true := by
      rw [Bool.not_false, Bool.true_and, beq_iff_eq, Identity.ext_iff, eq_comm, @eq_comm _ list]
    exact congrArg (counts.pages use list + ·) (if_congr hsame rfl rfl)

theorem unused_add (list : PageList) :
    (counts.add frame).unused list
      = counts.unused list + if idle list frame then 1 else 0 := by
  unfold add idle
  cases frame.listDescription.isUnused with
  | true =>
    have hsame : list = frame.listDescription ↔ (true && frame.listDescription == list) = true := by
      rw [Bool.true_and, beq_iff_eq, eq_comm]
    exact congrArg (counts.unused list + ·) (if_congr hsame rfl rfl)
  | false => exact (UInt64.add_zero _).symm

/-- All the pages that are counted. -/
def total : UInt64 := ∑ use, ∑ list, counts.pages use list + ∑ list, counts.unused list

theorem total_add : (counts.add frame).total = counts.total + 1 := by
  unfold total add
  cases frame.listDescription.isUnused with
  | true => simp [Finset.sum_add_distrib, add_assoc]
  | false => simp [Finset.sum_add_distrib, ite_and, add_right_comm]

variable {counts frame} {f : PageUseCounts → UInt64} {p : Identity → Bool}

/-- What every page of a kind adds one to counts the pages of the kind. -/
theorem foldl_add_eq (hf : ∀ counts frame, f (counts.add frame) = f counts + if p frame then 1 else 0)
    (counts : PageUseCounts) :
    f (frames.foldl add counts) = f counts + (frames.countP p).toUInt64 := by
  induction frames generalizing counts with
  | nil => exact (UInt64.add_zero _).symm
  | cons frame frames ih =>
    rw [List.foldl_cons, ih, hf, List.countP_cons, UInt64.add_assoc]
    by_cases h : p frame = true
    · rw [if_pos h, if_pos h, Nat.toUInt64_eq, Nat.toUInt64_eq, UInt64.ofNat_add, UInt64.add_comm 1]
      rfl
    · rw [if_neg h, if_neg h, UInt64.zero_add, Nat.add_zero]

/-- What pages add to the counts: each is counted once, for its use and its list. -/
structure Tallied (start counts : PageUseCounts) (frames : List Identity) : Prop where
  pages : ∀ use list, counts.pages use list
    = start.pages use list + (frames.countP (held use list)).toUInt64
  unused : ∀ list, counts.unused list
    = start.unused list + (frames.countP (idle list)).toUInt64
  total : counts.total = start.total + frames.length.toUInt64

theorem Tallied.nil (counts : PageUseCounts) : Tallied counts counts [] where
  pages _ _ := (UInt64.add_zero _).symm
  unused _ := (UInt64.add_zero _).symm
  total := (UInt64.add_zero _).symm

theorem Tallied.foldl_add (start : PageUseCounts) : Tallied start (frames.foldl add start) frames where
  pages use list :=
    @foldl_add_eq frames (·.pages use list) _ (fun counts frame => pages_add counts frame use list) start
  unused list :=
    @foldl_add_eq frames (·.unused list) _ (fun counts frame => unused_add counts frame list) start
  total := by
    have hone := @foldl_add_eq frames PageUseCounts.total (fun _ => true)
      (fun counts frame => total_add counts frame) start
    rwa [List.countP_true] at hone

theorem Tallied.trans {start mid counts : PageUseCounts} {frames more : List Identity}
    (h : Tallied start mid frames) (h' : Tallied mid counts more) :
    Tallied start counts (frames ++ more) where
  pages use list := by
    rw [h'.pages, h.pages, List.countP_append, UInt64.add_assoc]
    exact congrArg _ (UInt64.ofNat_add _ _).symm
  unused list := by
    rw [h'.unused, h.unused, List.countP_append, UInt64.add_assoc]
    exact congrArg _ (UInt64.ofNat_add _ _).symm
  total := by
    rw [h'.total, h.total, List.length_append, UInt64.add_assoc]
    exact congrArg _ (UInt64.ofNat_add _ _).symm

theorem kept_foldl_add (counts : PageUseCounts) :
    (frames.foldl add counts).totalPages = counts.totalPages
      ∧ (frames.foldl add counts).pageSize = counts.pageSize := by
  induction frames generalizing counts with
  | nil => exact ⟨rfl, rfl⟩
  | cons frame frames ih =>
    rw [List.foldl_cons, (ih _).1, (ih _).2]
    unfold add
    split <;> exact ⟨rfl, rfl⟩

end PageUseCounts

/-! ## the batches -/

/-- The pages of a range. -/
def PhysicalMemoryRange.frames (range : PhysicalMemoryRange) : List UInt64 :=
  range.request 0 range.pageCount.toNat

/-- How many requests so many pages take. -/
def batches (pages : ℕ) : ℕ := (pages + (batch - 1)) / batch

/-- The requests for a range's pages from `done` on. -/
def PhysicalMemoryRange.requests (range : PhysicalMemoryRange) (done : ℕ) : List (List UInt64) :=
  (List.range (batches (range.pageCount.toNat - done))).map fun i =>
    range.request (done + i * batch) (min batch (range.pageCount.toNat - done - i * batch))

@[simp]
theorem length_request (range : PhysicalMemoryRange) (done count : ℕ) :
    (range.request done count).length = count := by
  rw [PhysicalMemoryRange.request, List.length_map, List.length_range]

theorem request_add (range : PhysicalMemoryRange) (done m n : ℕ) :
    range.request done (m + n) = range.request done m ++ range.request (done + m) n := by
  unfold PhysicalMemoryRange.request
  rw [List.range_add, List.map_append, List.map_map]
  refine congrArg (_ ++ ·) (List.map_congr_left fun i _ => ?_)
  simp only [Function.comp_apply, Nat.toUInt64_eq, UInt64.ofNat_add, UInt64.add_assoc]

section Range

variable {range : PhysicalMemoryRange} {done : ℕ}

theorem requests_of_le (h : range.pageCount.toNat ≤ done) : range.requests done = [] := by
  rw [PhysicalMemoryRange.requests, Nat.sub_eq_zero_of_le h]
  rfl

/-- A turn of the loop makes the first of the requests. -/
theorem requests_of_lt (h : done < range.pageCount.toNat) : range.requests done
    = range.request done (min batch (range.pageCount.toNat - done))
      :: range.requests (done + min batch (range.pageCount.toNat - done)) := by
  have hone : batches (range.pageCount.toNat - done)
      = batches (range.pageCount.toNat - (done + min batch (range.pageCount.toNat - done))) + 1 := by
    unfold batches batch
    omega
  rw [PhysicalMemoryRange.requests, hone, List.range_succ_eq_map, List.map_cons, List.map_map,
    Nat.zero_mul, Nat.add_zero, Nat.sub_zero]
  refine congrArg (_ :: ·) (List.map_congr_left fun i hi => ?_)
  -- there is a second request only behind a whole batch
  have hfull : min batch (range.pageCount.toNat - done) = batch := by
    have hsome := List.mem_range.mp hi
    unfold batches batch at hsome
    unfold batch
    omega
  rw [hfull, Function.comp_apply, Nat.succ_mul]
  refine congrArg₂ range.request (by omega) (congrArg (min batch ·) (by omega))

/-- **A range's requests are its pages**, however many pages a batch takes. -/
theorem flatten_requests (range : PhysicalMemoryRange) (done : ℕ) :
    (range.requests done).flatten = range.request done (range.pageCount.toNat - done) := by
  induction hleft : range.pageCount.toNat - done using Nat.strongRecOn generalizing done with
  | _ left ih =>
    by_cases hend : range.pageCount.toNat ≤ done
    · rw [requests_of_le hend, ← hleft, Nat.sub_eq_zero_of_le hend]
      rfl
    · have hbatch : 0 < batch := by decide
      rw [requests_of_lt (Nat.lt_of_not_le hend), List.flatten_cons,
        ih (range.pageCount.toNat - (done + min batch (range.pageCount.toNat - done)))
          (by omega) _ rfl, ← request_add]
      exact congrArg (range.request done) (by omega)

end Range

/-- A call says what each page of the request is, or fails. -/
def System.Answers (system : System) (identity : ℕ → UInt64 → Identity) : Prop :=
  ∀ call request, (∃ status, system.pfnQuery call request = .error status)
    ∨ system.pfnQuery call request = .ok (request.map (identity call))

/-- The requests are made from a call on, one a call, and none fails or is cancelled before it. -/
def System.Answered (system : System) (first : ℕ) (requests : List (List UInt64)) : Prop :=
  ∀ i (h : i < requests.length), system.cancelled (first + i) = false
    ∧ ∃ frames, system.pfnQuery (first + i) requests[i] = .ok frames

/-- The pages of requests, each as it was at its request's call. -/
def seen (identity : ℕ → UInt64 → Identity) (first : ℕ) (requests : List (List UInt64)) :
    List Identity :=
  (requests.zipIdx first).flatMap fun request => request.1.map (identity request.2)

section Requests

variable {system : System} {identity : ℕ → UInt64 → Identity} {first : ℕ}
  {requests more : List (List UInt64)} {request : List UInt64}

theorem answered_nil : system.Answered first [] := fun _ h => absurd h (Nat.not_lt_zero _)

theorem answered_cons : system.Answered first (request :: requests) ↔
    (system.cancelled first = false ∧ ∃ frames, system.pfnQuery first request = .ok frames)
      ∧ system.Answered (first + 1) requests := by
  constructor
  · refine fun h => ⟨h 0 (Nat.succ_pos _), fun i hi => ?_⟩
    rw [Nat.add_assoc, Nat.add_comm 1]
    exact h (i + 1) (Nat.succ_lt_succ hi)
  · rintro ⟨hfirst, hrest⟩ (_ | i) hi
    · exact hfirst
    · have hnext := hrest i (Nat.lt_of_succ_lt_succ hi)
      rw [Nat.add_assoc, Nat.add_comm 1] at hnext
      exact hnext

theorem answered_append : system.Answered first (requests ++ more) ↔
    system.Answered first requests ∧ system.Answered (first + requests.length) more := by
  induction requests generalizing first with
  | nil => exact (and_iff_right answered_nil).symm
  | cons request requests ih =>
    rw [List.cons_append, answered_cons, answered_cons, ih, List.length_cons, Nat.add_assoc,
      Nat.add_comm 1]
    exact and_assoc.symm

theorem seen_append : seen identity first (requests ++ more)
    = seen identity first requests ++ seen identity (first + requests.length) more := by
  rw [seen, List.zipIdx_append, List.flatMap_append, Nat.add_comm first]
  rfl

theorem length_seen : (seen identity first requests).length = requests.flatten.length := by
  induction requests generalizing first with
  | nil => rfl
  | cons request requests ih =>
    rw [seen, List.zipIdx_cons, List.flatMap_cons, List.length_append, List.length_map,
      List.flatten_cons, List.length_append, ← ih]
    rfl

end Requests

/-- What has been counted from one point to another: the requests, each at its call. -/
structure Since (system : System) (identity : ℕ → UInt64 → Identity) (start : Progress)
    (requests : List (List UInt64)) (p : Progress) : Prop where
  call : p.call = start.call + requests.length
  answered : system.Answered start.call requests
  counts : PageUseCounts.Tallied start.counts p.counts (seen identity start.call requests)

variable {system : System} {identity : ℕ → UInt64 → Identity} {start p q : Progress}
  {requests more : List (List UInt64)}

theorem Since.refl (start : Progress) : Since system identity start [] start where
  call := rfl
  answered := answered_nil
  counts := .nil _

theorem Since.trans (h : Since system identity start requests p)
    (h' : Since system identity p more q) : Since system identity start (requests ++ more) q where
  call := by rw [h'.call, h.call, List.length_append, Nat.add_assoc]
  answered := answered_append.mpr ⟨h.answered, h.call ▸ h'.answered⟩
  counts := by
    rw [seen_append, ← h.call]
    exact h.counts.trans h'.counts

/-- One batch. -/
theorem Since.batch {request frames} (hgoing : system.cancelled p.call = false)
    (hanswer : system.pfnQuery p.call request = .ok frames)
    (hframes : frames = request.map (identity p.call)) :
    Since system identity p [request]
      ⟨frames.foldl PageUseCounts.add p.counts, p.call + 1⟩ where
  call := rfl
  answered := answered_cons.mpr ⟨⟨hgoing, _, hanswer⟩, answered_nil⟩
  counts := by
    have hseen : seen identity p.call [request] = frames := by
      rw [hframes]
      exact List.append_nil _
    rw [hseen]
    exact .foldl_add _ _

/-- A range's pages are counted by its requests. -/
theorem since_readRange (h : system.Answers identity) {range : PhysicalMemoryRange} {turns done : ℕ}
    (hturns : range.pageCount.toNat - done ≤ turns)
    (hread : system.readRange range turns done p = .ok q) :
    Since system identity p (range.requests done) q
      ∧ q.counts.totalPages = p.counts.totalPages ∧ q.counts.pageSize = p.counts.pageSize := by
  induction turns generalizing done p with
  | zero =>
    cases hread
    rw [requests_of_le (by omega)]
    exact ⟨.refl _, rfl, rfl⟩
  | succ turns ih =>
    rw [System.readRange] at hread
    by_cases hend : range.pageCount.toNat ≤ done
    · rw [if_pos hend] at hread
      cases hread
      rw [requests_of_le hend]
      exact ⟨.refl _, rfl, rfl⟩
    · rw [if_neg hend] at hread
      cases hgoing : system.cancelled p.call with
      | true =>
        rw [hgoing, if_pos rfl] at hread
        cases hread
      | false =>
        rw [hgoing, if_neg Bool.false_ne_true] at hread
        set count := min PhysicalMemory.batch (range.pageCount.toNat - done) with hcount
        have hpos : 0 < count := Nat.lt_min.mpr ⟨by decide, by omega⟩
        obtain ⟨status, hfail⟩ | hanswer := h p.call (range.request done count)
        · simp only [hfail] at hread
          cases hread
        · simp only [hanswer] at hread
          obtain ⟨hsince, htotal, hsize⟩ := ih (by omega) hread
          obtain ⟨hkept, hkept'⟩ := PageUseCounts.kept_foldl_add
            ((range.request done count).map (identity p.call)) p.counts
          rw [requests_of_lt (Nat.lt_of_not_le hend)]
          exact ⟨(Since.batch hgoing hanswer rfl).trans hsince, htotal.trans hkept,
            hsize.trans hkept'⟩

/-- A range is read to its end where none of its requests fails or is cancelled. -/
theorem exists_readRange {range : PhysicalMemoryRange} {turns done : ℕ}
    (h : system.Answered p.call (range.requests done)) :
    ∃ q, system.readRange range turns done p = .ok q := by
  induction turns generalizing done p with
  | zero => exact ⟨p, rfl⟩
  | succ turns ih =>
    rw [System.readRange]
    by_cases hend : range.pageCount.toNat ≤ done
    · exact ⟨p, if_pos hend⟩
    · rw [requests_of_lt (Nat.lt_of_not_le hend)] at h
      obtain ⟨⟨hgoing, frames, hframes⟩, hrest⟩ := answered_cons.mp h
      rw [if_neg hend, hgoing, if_neg Bool.false_ne_true]
      simp only [hframes]
      exact ih hrest

/-! ## the ranges -/

/-- The pages of the ranges. -/
def allFrames (ranges : List PhysicalMemoryRange) : List UInt64 :=
  ranges.flatMap PhysicalMemoryRange.frames

/-- The requests for the ranges' pages, one range after another. -/
def allRequests (ranges : List PhysicalMemoryRange) : List (List UInt64) :=
  ranges.flatMap fun range => range.requests 0

/-- Every page is asked for once, in order. -/
theorem flatten_allRequests (ranges : List PhysicalMemoryRange) :
    (allRequests ranges).flatten = allFrames ranges := by
  induction ranges with
  | nil => rfl
  | cons range ranges ih =>
    rw [allRequests, List.flatMap_cons, List.flatten_append, ← allRequests, ih, flatten_requests]
    rfl

/-- No request is for more pages than a batch. -/
theorem length_le_batch {ranges : List PhysicalMemoryRange} {request : List UInt64}
    (h : request ∈ allRequests ranges) : request.length ≤ batch := by
  obtain ⟨range, -, hrequest⟩ := List.mem_flatMap.mp h
  obtain ⟨i, -, rfl⟩ := List.mem_map.mp hrequest
  rw [length_request]
  exact Nat.min_le_left _ _

/-- The total of the ranges is how many pages they have. -/
theorem length_allFrames (ranges : List PhysicalMemoryRange) :
    (allFrames ranges).length.toUInt64 = (ranges.map PhysicalMemoryRange.pageCount).sum := by
  induction ranges with
  | nil => rfl
  | cons range ranges ih =>
    rw [allFrames, List.flatMap_cons, List.length_append, ← allFrames, List.map_cons, List.sum_cons,
      ← ih, PhysicalMemoryRange.frames, length_request, Nat.toUInt64_eq, Nat.toUInt64_eq,
      UInt64.ofNat_add, UInt64.ofNat_toNat]

theorem since_readRanges (h : system.Answers identity) {ranges : List PhysicalMemoryRange}
    (hread : system.readRanges ranges p = .ok q) :
    Since system identity p (allRequests ranges) q
      ∧ q.counts.totalPages = p.counts.totalPages + (ranges.map PhysicalMemoryRange.pageCount).sum
      ∧ q.counts.pageSize = p.counts.pageSize := by
  induction ranges generalizing p with
  | nil =>
    cases hread
    exact ⟨.refl _, (UInt64.add_zero _).symm, rfl⟩
  | cons range ranges ih =>
    rw [System.readRanges] at hread
    set p' : Progress := { p with
      counts := { p.counts with totalPages := p.counts.totalPages + range.pageCount } } with hp'
    cases hrange : system.readRange range range.pageCount.toNat 0 p' with
    | error error =>
      simp only [hrange] at hread
      cases hread
    | ok mid =>
      simp only [hrange] at hread
      obtain ⟨hsince, htotal, hsize⟩ := since_readRange h (Nat.sub_le _ _) hrange
      obtain ⟨hsince', htotal', hsize'⟩ := ih hread
      -- the count of the range's pages is no page's
      have hfrom : Since system identity p (range.requests 0) mid := ⟨hsince.call, hsince.answered,
        hsince.counts.pages, hsince.counts.unused, hsince.counts.total⟩
      refine ⟨hfrom.trans hsince', ?_, hsize'.trans hsize⟩
      rw [htotal', htotal, List.map_cons, List.sum_cons, hp', UInt64.add_assoc]

theorem exists_readRanges (h : system.Answers identity) {ranges : List PhysicalMemoryRange}
    (hanswered : system.Answered p.call (allRequests ranges)) :
    ∃ q, system.readRanges ranges p = .ok q := by
  induction ranges generalizing p with
  | nil => exact ⟨p, rfl⟩
  | cons range ranges ih =>
    rw [allRequests, List.flatMap_cons, answered_append] at hanswered
    rw [System.readRanges]
    set p' : Progress := { p with
      counts := { p.counts with totalPages := p.counts.totalPages + range.pageCount } } with hp'
    obtain ⟨mid, hmid⟩ := @exists_readRange system p' range range.pageCount.toNat 0 hanswered.1
    obtain ⟨hsince, -⟩ := since_readRange h (Nat.sub_le _ _) hmid
    simp only [hmid]
    refine ih ?_
    rw [hsince.call]
    exact hanswered.2

/-! ## what is counted -/

/-- The ranges that a version of the structure has; there is a call at which they are no more than
at the call before. -/
structure System.Has (system : System) (version : UInt32) (ranges : List PhysicalMemoryRange)
    (need : ℕ → UInt32) : Prop where
  serves : Serves (system.ranges version) (fun _ _ => ranges) need
  settled : ∃ call < 3, need (call + 1) ≤ need call

/-- The ranges are in the second version of the structure, or in the first where the second is not
known. -/
inductive System.Lists (system : System) (ranges : List PhysicalMemoryRange) : Prop
  | second {need : ℕ → UInt32} (h : system.Has 2 ranges need)
  | first {need : ℕ → UInt32} {status : UInt32} (h : system.Has 1 ranges need)
      (hunknown : ∀ size, system.ranges 2 0 size = .failed status)
      (hstatus : status ≠ statusPrivilegeNotHeld ∧ status ≠ statusAccessDenied)

variable {ranges : List PhysicalMemoryRange}

theorem System.Has.queryRanges_eq {version : UInt32} {need : ℕ → UInt32}
    (h : system.Has version ranges need) (headerSize : UInt32) :
    system.queryRanges version headerSize = .ok ranges := by
  have hgrow : Enlarges moreRoom need := fun _ _ hlt => by
    rw [moreRoom, if_pos hlt]
    exact UInt32.le_refl _
  obtain ⟨call, hcall, hsettled⟩ := h.settled
  obtain ⟨_, _, _, _, hdone⟩ := attempts_of_settled h.serves hgrow 4 0 (headerSize + 64 * 16)
    (Nat.succ_lt_succ hcall) (by rwa [Nat.zero_add])
  rw [System.queryRanges, hdone]

theorem System.Lists.getRanges_eq (h : system.Lists ranges) : system.getRanges = .ok ranges := by
  rw [System.getRanges]
  cases h with
  | second h => rw [h.queryRanges_eq]
  | @first need status h hunknown hstatus =>
    have hfirst : system.queryRanges 2 16 = .error status := by
      rw [System.queryRanges, attempts, hunknown]
    rw [hfirst]
    simp only [if_neg (not_or.mpr hstatus)]
    exact h.queryRanges_eq 8

/-- **Each page is counted once, with what it was when it was asked for**: `Read` asks for every
page of the ranges, in batches, one a call; what it gives is the count of the pages as they were at
their batch's call, by use and list where that means something, and all of them are the total of the
ranges. It gives counts exactly if none of these calls fails or comes after a cancellation. -/
theorem read_counts (hlists : system.Lists ranges) (h : system.Answers identity) :
    ((allRequests ranges).flatten = allFrames ranges
        ∧ ∀ request ∈ allRequests ranges, request.length ≤ batch)
      ∧ ((∃ counts, system.read = .ok counts) ↔ system.Answered 0 (allRequests ranges))
      ∧ ∀ counts, system.read = .ok counts →
        counts.pageSize = system.pageSize
          ∧ counts.totalPages = (ranges.map PhysicalMemoryRange.pageCount).sum
          ∧ counts.total = counts.totalPages
          ∧ (∀ use list, counts.pages use list = ((seen identity 0 (allRequests ranges)).countP
              (PageUseCounts.held use list)).toUInt64)
          ∧ ∀ list, counts.unused list = ((seen identity 0 (allRequests ranges)).countP
              (PageUseCounts.idle list)).toUInt64 := by
  set start : Progress := ⟨.start system.pageSize, 0⟩ with hstart
  have hread : system.read = (match system.readRanges ranges start with
      | .ok p => .ok p.counts
      | .error error => .error error) := by
    rw [System.read, hlists.getRanges_eq]
  -- where there are counts they are those of the requests
  have hgiven : ∀ counts, system.read = .ok counts → ∃ p : Progress, p.counts = counts
      ∧ system.readRanges ranges start = .ok p := by
    intro counts hcounts
    rw [hread] at hcounts
    cases hranges : system.readRanges ranges start with
    | error error =>
      rw [hranges] at hcounts
      cases hcounts
    | ok p =>
      rw [hranges] at hcounts
      cases hcounts
      exact ⟨p, rfl, rfl⟩
  refine ⟨⟨flatten_allRequests ranges, fun request => length_le_batch⟩, ⟨?_, ?_⟩, ?_⟩
  · rintro ⟨counts, hcounts⟩
    obtain ⟨p, -, hp⟩ := hgiven counts hcounts
    exact (since_readRanges h hp).1.answered
  · intro hanswered
    obtain ⟨p, hp⟩ := exists_readRanges (p := start) h hanswered
    exact ⟨p.counts, by rw [hread, hp]⟩
  · intro counts hcounts
    obtain ⟨p, rfl, hp⟩ := hgiven counts hcounts
    obtain ⟨hsince, htotal, hsize⟩ := since_readRanges h hp
    refine ⟨hsize, htotal.trans (UInt64.zero_add _), ?_, fun use list => ?_, fun list => ?_⟩
    · have hzero : start.counts.total = 0 := by
        simp [hstart, PageUseCounts.start, PageUseCounts.total]
      rw [hsince.counts.total, length_seen, flatten_allRequests, hzero, length_allFrames, htotal]
      rfl
    · exact (hsince.counts.pages use list).trans (UInt64.zero_add _)
    · exact (hsince.counts.unused list).trans (UInt64.zero_add _)

/-! Two ranges of memory, one of which takes two batches, in the first version of the structure. -/

def someRanges : List PhysicalMemoryRange := [⟨1, 3⟩, ⟨0x100000, 70000⟩]

def someIdentity (call : ℕ) (frame : UInt64) : Identity :=
  if frame % 2 = 0 then ⟨if call = 0 then 0 else 1, .active⟩ else ⟨0, .zeroed⟩

def someSystem : System where
  ranges version := if version = 1 then serving (fun _ _ => someRanges) fun _ => 40
    else fun _ _ => .failed 0xC0000059
  pageSize := 4096
  pfnQuery call request := .ok (request.map (someIdentity call))
  cancelled _ := false
  dosError status := status

theorem read_counts_someSystem : ∃ counts, someSystem.read = .ok counts
    ∧ counts.totalPages = 70003 ∧ counts.total = counts.totalPages := by
  have hlists : someSystem.Lists someRanges :=
    .first ⟨serves_serving _ _, 0, by decide, UInt32.le_refl _⟩ (fun _ => rfl) (by decide)
  obtain ⟨-, hexists, hcounts⟩ := @read_counts someSystem someIdentity someRanges hlists
    fun _ _ => .inr rfl
  obtain ⟨counts, hread⟩ := hexists.mpr fun _ _ => ⟨rfl, _, rfl⟩
  obtain ⟨-, htotal, hall, -⟩ := hcounts counts hread
  exact ⟨counts, hread, htotal, hall⟩

end WinSys.PhysicalMemory
