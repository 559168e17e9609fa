import WinSys.Infra.Attempts
import WinSys.Infra.Memo
import WinSys.Infra.Wide
import Mathlib.Data.Finset.Card
import Mathlib.Data.List.Sort

/-!
# The jobs of a process

`JobInfo::FindProcessJobs` goes through the system's handle table: it opens the owners of the handles
to jobs, duplicates the handles and keeps the jobs the process is in, each once. An object that was
checked is not duplicated again where its address is known.

* `Scanned`: what has been found, and what has been seen
* `jobs_sortJobs`: the jobs in order
* `findProcessJobs_jobs`
-/

namespace WinSys.Job

open Infra

/-! ## the source -/

/-- An entry of the handle table; the address of an object is 0 if it is not known. -/
structure HandleEntry where
  object : UInt64
  uniqueProcessId : UInt64
  handleValue : UInt64
  objectTypeIndex : UInt16
deriving DecidableEq, Repr

variable {Object : Type} [DecidableEq Object]

/-- What answers `FindProcessJobs`: the table by the number of the call and its room; the objects are
the jobs. -/
structure System (Object : Type) where
  handles : ℕ → UInt32 → Tried (List HandleEntry)
  typeName : UInt16 → WString
  openProcess : UInt32 → Bool
  duplicateHandle : UInt64 → UInt64 → Option Object
  isProcessInJob : Object → Option Bool
  name : Object → WString
  silo : Object → Bool
  activeProcesses : Object → UInt32
  dosError : UInt32 → UInt32

structure ProcessJob (Object : Type) where
  handle : Object
  name : WString
  silo : Bool
  activeProcesses : UInt32
deriving DecidableEq

namespace System

variable (system : System Object)

def isJobType (index : UInt16) : Bool := system.typeName index == wide "Job"

/-- A process's owner that can be duplicated from; its ID is cut. -/
def canOpen (pid : UInt64) : Bool := system.openProcess pid.toUInt32

/-- The state of the loop. -/
structure Scan where
  isJobType : Memo system.isJobType
  owners : Memo system.canOpen
  seen : List UInt64
  jobs : List (ProcessJob Object)

def processJob (job : Object) : ProcessJob Object where
  handle := job
  name := system.name job
  silo := system.silo job
  activeProcesses := system.activeProcesses job

/-- A job that was duplicated. -/
def keep (job : Object) (s : system.Scan) : system.Scan :=
  if system.isProcessInJob job ≠ some true then s
  else if s.jobs.any fun other => other.handle = job then s
  else { s with jobs := s.jobs ++ [system.processJob job] }

/-- A turn of the loop. -/
def scanEntry (s : system.Scan) (entry : HandleEntry) : system.Scan :=
  let type := s.isJobType.get entry.objectTypeIndex
  let s := { s with isJobType := type.2 }
  if !type.1 || (entry.object != 0 && s.seen.contains entry.object) then s
  else
    let owner := s.owners.get entry.uniqueProcessId
    let s := { s with owners := owner.2 }
    if !owner.1 then s
    else
      match system.duplicateHandle entry.uniqueProcessId entry.handleValue with
      | none => s
      | some job =>
        system.keep job
          (if entry.object != 0 then { s with seen := entry.object :: s.seen } else s)

def scan (table : List HandleEntry) : system.Scan :=
  table.foldl system.scanEntry ⟨.empty, .empty, [], []⟩

end System

def sortJobs (jobs : List (ProcessJob Object)) : List (ProcessJob Object) :=
  jobs.mergeSort fun a b => a.activeProcesses ≤ b.activeProcesses

/-- No two neighbours have as many processes. -/
def isOrdered : List (ProcessJob Object) → Bool
  | a :: b :: jobs => a.activeProcesses != b.activeProcesses && isOrdered (b :: jobs)
  | _ => true

def grow (size len : UInt32) : UInt32 := max (size * 2) (len + 0x100000)

def statusInfoLengthMismatch : UInt32 := 0xC0000004

/-- `JobInfo::FindProcessJobs`, with what it gives in `ordered`. -/
def System.findProcessJobs (system : System Object) : Except UInt32 (List (ProcessJob Object) × Bool) :=
  match attempts system.handles grow 6 0 0x400000 with
  | .done table =>
    let jobs := sortJobs (system.scan table).jobs
    .ok (jobs, isOrdered jobs)
  | .more _ => .error (system.dosError statusInfoLengthMismatch)
  | .failed status => .error (system.dosError status)

/-! ## the scan -/

namespace System

variable {system : System Object} {s : system.Scan} {before : List HandleEntry} {entry : HandleEntry}
  {job : Object}

/-- The job that an entry is a handle to, if it can be duplicated. -/
def jobOf (system : System Object) (entry : HandleEntry) : Option Object :=
  if system.isJobType entry.objectTypeIndex && system.canOpen entry.uniqueProcessId then
    system.duplicateHandle entry.uniqueProcessId entry.handleValue
  else none

/-- What is at a known address is one object. -/
def Addressed (system : System Object) (table : List HandleEntry) : Prop :=
  ∀ e ∈ table, ∀ e' ∈ table, e.object ≠ 0 → e.object = e'.object →
    ∀ job job', system.jobOf e = some job → system.jobOf e' = some job' → job = job'

/-- The jobs of the entries before are found, each once; an address that was seen is a job's. -/
structure Scanned (system : System Object) (before : List HandleEntry) (s : system.Scan) : Prop where
  once : (s.jobs.map ProcessJob.handle).Nodup
  own : ∀ j ∈ s.jobs, j = system.processJob j.handle
  mem : ∀ job, job ∈ s.jobs.map ProcessJob.handle ↔
    system.isProcessInJob job = some true ∧ ∃ e ∈ before, system.jobOf e = some job
  seen : ∀ address ∈ s.seen, address ≠ 0 ∧ ∃ e ∈ before, e.object = address ∧ (system.jobOf e).isSome

omit [DecidableEq Object] in
theorem scanned_nil : Scanned system [] ⟨.empty, .empty, [], []⟩ where
  once := List.nodup_nil
  own := nofun
  mem _ := ⟨nofun, fun ⟨_, _, h, _⟩ => nomatch h⟩
  seen := nofun

omit [DecidableEq Object] in
/-- An entry that adds no job. -/
theorem Scanned.skip (h : Scanned system before s) {s' : system.Scan} (hjobs : s'.jobs = s.jobs)
    (hseen : s'.seen = s.seen)
    (hnew : ∀ job, system.jobOf entry = some job → system.isProcessInJob job = some true →
      ∃ e ∈ before, system.jobOf e = some job) : Scanned system (before ++ [entry]) s' where
  once := hjobs ▸ h.once
  own := hjobs ▸ h.own
  mem job := by
    rw [hjobs, h.mem]
    refine and_congr_right fun hin => ⟨fun ⟨e, he, hjob⟩ => ?_, fun ⟨e, he, hjob⟩ => ?_⟩
    · exact ⟨e, List.mem_append_left _ he, hjob⟩
    · obtain he | he := List.mem_append.mp he
      · exact ⟨e, he, hjob⟩
      · rw [List.mem_singleton.mp he] at hjob
        exact hnew job hjob hin
  seen address haddress := by
    obtain ⟨hne, e, he, hsame⟩ := h.seen address (hseen ▸ haddress)
    exact ⟨hne, e, List.mem_append_left _ he, hsame⟩

theorem mem_handles_iff {jobs : List (ProcessJob Object)} :
    (jobs.any fun other => other.handle = job) = true ↔ job ∈ jobs.map ProcessJob.handle := by
  simp [List.any_eq_true, List.mem_map]

/-- An entry whose job was duplicated. -/
theorem Scanned.keep (h : Scanned system before s) (hjob : system.jobOf entry = some job) {s' : system.Scan}
    (hjobs : s'.jobs = s.jobs)
    (hseen : ∀ address ∈ s'.seen, address ∈ s.seen ∨ address ≠ 0 ∧ entry.object = address) :
    Scanned system (before ++ [entry]) (system.keep job s') := by
  have hseen' : ∀ address ∈ s'.seen, address ≠ 0 ∧ ∃ e ∈ before ++ [entry], e.object = address
      ∧ (system.jobOf e).isSome := by
    intro address haddress
    obtain hold | ⟨hne, hsame⟩ := hseen address haddress
    · obtain ⟨hne, e, he, hsame⟩ := h.seen address hold
      exact ⟨hne, e, List.mem_append_left _ he, hsame⟩
    · exact ⟨hne, entry, List.mem_append_right _ (List.mem_singleton_self _), hsame,
        Option.isSome_of_mem hjob⟩
  have hmem : ∀ job', (∃ e ∈ before ++ [entry], system.jobOf e = some job') ↔
      (∃ e ∈ before, system.jobOf e = some job') ∨ job' = job := by
    intro job'
    simp only [List.mem_append, List.mem_singleton, or_and_right, exists_or, exists_eq_left, hjob,
      Option.some.injEq]
    rw [@eq_comm _ job]
  unfold System.keep
  by_cases hin : system.isProcessInJob job = some true
  · rw [if_neg (not_not.mpr hin)]
    by_cases hfound : job ∈ s'.jobs.map ProcessJob.handle
    · rw [if_pos (mem_handles_iff.mpr hfound)]
      refine ⟨hjobs ▸ h.once, hjobs ▸ h.own, fun job' => ?_, hseen'⟩
      rw [hmem, hjobs, h.mem]
      refine and_congr_right fun _ => ⟨.inl, fun hor => hor.elim id fun hsame => ?_⟩
      rw [hjobs, h.mem] at hfound
      exact hsame ▸ hfound.2
    · rw [if_neg (mt mem_handles_iff.mp hfound)]
      rw [hjobs] at hfound
      constructor
      · rw [hjobs, List.map_append, List.map_singleton]
        refine List.nodup_append'.mpr ⟨h.once, List.nodup_singleton _, ?_⟩
        exact List.disjoint_singleton.mpr hfound
      · rw [hjobs]
        refine List.forall_mem_append.mpr ⟨h.own, List.forall_mem_singleton.mpr rfl⟩
      · intro job'
        rw [hmem, hjobs, List.map_append, List.mem_append, h.mem, List.map_singleton,
          List.mem_singleton]
        constructor
        · rintro (⟨hin', he⟩ | rfl)
          · exact ⟨hin', .inl he⟩
          · exact ⟨hin, .inr rfl⟩
        · rintro ⟨hin', he | hsame⟩
          · exact .inl ⟨hin', he⟩
          · exact .inr hsame
      · exact hseen'
  · rw [if_pos hin]
    refine ⟨hjobs ▸ h.once, hjobs ▸ h.own, fun job' => ?_, hseen'⟩
    rw [hmem, hjobs, h.mem]
    refine and_congr_right fun hin' => ⟨.inl, fun hor => hor.elim id fun hsame => ?_⟩
    exact absurd (hsame ▸ hin') hin

/-- **A turn**, in a table where an address is one object. -/
theorem Scanned.scanEntry (h : Scanned system before s)
    (haddressed : Addressed system (before ++ [entry])) :
    Scanned system (before ++ [entry]) (system.scanEntry s entry) := by
  unfold System.scanEntry
  simp only [Memo.fst_get]
  cases htype : system.isJobType entry.objectTypeIndex with
  | false =>
    rw [Bool.not_false, Bool.true_or, if_pos rfl]
    refine h.skip rfl rfl fun job hjob => ?_
    rw [jobOf, htype] at hjob
    cases hjob
  | true =>
    rw [Bool.not_true, Bool.false_or]
    by_cases hskip : (entry.object != 0 && s.seen.contains entry.object) = true
    · rw [if_pos hskip]
      obtain ⟨hne, hcontains⟩ := (Bool.and_eq_true _ _).mp hskip
      obtain ⟨-, e, he, hsame, hsome⟩ := h.seen _ (List.contains_iff_mem.mp hcontains)
      refine h.skip rfl rfl fun job hjob _ => ?_
      obtain ⟨job', hjob'⟩ := Option.isSome_iff_exists.mp hsome
      refine ⟨e, he, hjob'.trans (congrArg some ?_)⟩
      refine haddressed e (List.mem_append_left _ he) entry
        (List.mem_append_right _ (List.mem_singleton_self _)) ?_ hsame job' job hjob' hjob
      exact hsame ▸ bne_iff_ne.mp hne
    · rw [if_neg hskip]
      cases howner : system.canOpen entry.uniqueProcessId with
      | false =>
        rw [Bool.not_false, if_pos rfl]
        refine h.skip rfl rfl fun job hjob => ?_
        rw [jobOf, htype, howner] at hjob
        cases hjob
      | true =>
        have hjobOf : system.jobOf entry
            = system.duplicateHandle entry.uniqueProcessId entry.handleValue := by
          rw [jobOf, htype, howner]
          rfl
        rw [Bool.not_true, if_neg Bool.false_ne_true]
        cases hduplicate : system.duplicateHandle entry.uniqueProcessId entry.handleValue with
        | none =>
          refine h.skip rfl rfl fun job hjob => ?_
          rw [hjobOf, hduplicate] at hjob
          cases hjob
        | some job =>
          refine h.keep (hjobOf.trans hduplicate) ?_ fun address haddress => ?_
          · split <;> rfl
          · by_cases hne : (entry.object != 0) = true
            · simp only [hne, if_true] at haddress
              obtain rfl | hold := List.mem_cons.mp haddress
              · exact .inr ⟨bne_iff_ne.mp hne, rfl⟩
              · exact .inl hold
            · simp only [hne] at haddress
              exact .inl haddress

theorem scanned_scan {table : List HandleEntry} (haddressed : Addressed system table) :
    Scanned system table (system.scan table) := by
  suffices hall : ∀ before rest s, before ++ rest = table → Scanned system before s →
      Scanned system table (rest.foldl system.scanEntry s) from hall [] table _ rfl scanned_nil
  intro before rest
  induction rest generalizing before with
  | nil =>
    rintro s rfl h
    rwa [List.append_nil]
  | cons entry rest ih =>
    intro s htable h
    have hsplit : before ++ [entry] ++ rest = table := by rw [List.append_assoc]; exact htable
    refine ih (before ++ [entry]) _ hsplit (h.scanEntry fun e he e' he' => ?_)
    exact haddressed e (hsplit ▸ List.mem_append_left _ he) e' (hsplit ▸ List.mem_append_left _ he')

end System

/-! ## the order -/

section Order

variable {jobs : List (ProcessJob Object)}

omit [DecidableEq Object]

theorem sorted_sortJobs (jobs : List (ProcessJob Object)) :
    (sortJobs jobs).Pairwise (·.activeProcesses ≤ ·.activeProcesses) := by
  refine (List.pairwise_mergeSort ?_ ?_ jobs).imp fun h => of_decide_eq_true h
  · intro a b c hab hbc
    exact decide_eq_true (UInt32.le_trans (of_decide_eq_true hab) (of_decide_eq_true hbc))
  · intro a b
    simpa using UInt32.le_total a.activeProcesses b.activeProcesses

theorem isOrdered_iff (h : jobs.Pairwise (·.activeProcesses ≤ ·.activeProcesses)) :
    isOrdered jobs = true ↔ jobs.Pairwise (·.activeProcesses < ·.activeProcesses) := by
  induction jobs with
  | nil => exact iff_of_true rfl .nil
  | cons a jobs ih =>
    rw [List.pairwise_cons] at h ⊢
    cases jobs with
    | nil => exact iff_of_true rfl ⟨nofun, .nil⟩
    | cons b jobs =>
      rw [isOrdered, Bool.and_eq_true, bne_iff_ne, ih h.2]
      have hle := h.1 b List.mem_cons_self
      refine and_congr_left fun hrest => ⟨fun hne c hc => ?_, fun hall hsame => ?_⟩
      · have hlt : a.activeProcesses < b.activeProcesses :=
          UInt32.lt_of_le_of_ne hle hne
        obtain rfl | hc := List.mem_cons.mp hc
        · exact hlt
        · exact UInt32.lt_trans hlt ((List.pairwise_cons.mp hrest).1 c hc)
      · exact UInt32.lt_irrefl _ (hsame ▸ hall b List.mem_cons_self)

/-- Of nested jobs, those with fewer processes are inside. -/
theorem pairwise_ssubset {processes : Object → Finset ℕ}
    (hcount : ∀ j ∈ jobs, (processes j.handle).card = j.activeProcesses.toNat)
    (hnested : ∀ j ∈ jobs, ∀ j' ∈ jobs, processes j.handle ⊆ processes j'.handle
      ∨ processes j'.handle ⊆ processes j.handle)
    (h : jobs.Pairwise (·.activeProcesses < ·.activeProcesses)) :
    jobs.Pairwise fun j j' => processes j.handle ⊂ processes j'.handle := by
  refine h.imp_of_mem fun {j j'} hj hj' hlt => ?_
  have hcard : (processes j.handle).card < (processes j'.handle).card := by
    rw [hcount j hj, hcount j' hj']
    exact UInt32.lt_iff_toNat_lt.mp hlt
  obtain hsub | hsub := hnested j hj j' hj'
  · exact Finset.ssubset_iff_subset_ne.mpr ⟨hsub, fun hsame => (hsame ▸ hcard).false⟩
  · exact absurd (Finset.card_le_card hsub) (Nat.not_le.mpr hcard)

end Order

/-! ## what is found -/

/-- A call is given the table if there is room enough for it, and it stops growing. -/
structure System.Gives (system : System Object) (table : ℕ → List HandleEntry) (need : ℕ → UInt32) :
    Prop where
  serves : Serves system.handles (fun call _ => table call) need
  limited : ∀ call, (need call).toNat + 2 ^ 20 < 2 ^ 32
  settled : ∃ call < 5, need (call + 1) ≤ need call

theorem le_grow (size len : UInt32) : len + 0x100000 ≤ grow size len := by
  show _ ≤ if size * 2 ≤ len + 0x100000 then len + 0x100000 else size * 2
  split
  · exact UInt32.le_refl _
  · next h => exact UInt32.le_of_lt (UInt32.not_le.mp h)

omit [DecidableEq Object] in
theorem System.Gives.table_eq {system : System Object} {table : ℕ → List HandleEntry}
    {need : ℕ → UInt32} (h : system.Gives table need) :
    ∃ call < 6, attempts system.handles grow 6 0 0x400000 = .done (table call) := by
  have hgrow : Enlarges grow need := fun call size _ => by
    have hlimit := h.limited call
    have hmore : need call ≤ need call + 0x100000 := by
      rw [UInt32.le_iff_toNat_le, UInt32.toNat_add]
      have hconst : (0x100000 : UInt32).toNat = 2 ^ 20 := rfl
      omega
    exact UInt32.le_trans hmore (le_grow _ _)
  obtain ⟨j, hj, hsettled⟩ := h.settled
  obtain ⟨i, hi, _, _, hdone⟩ := attempts_of_settled h.serves hgrow 6 0 0x400000
    (Nat.succ_lt_succ hj) (by rwa [Nat.zero_add])
  exact ⟨0 + i, by omega, hdone⟩

/-- **The jobs of the process are found**, from the handle table at one of the calls: those to which
there is a handle that can be duplicated, each once, those with fewer processes first. Where no two
have as many, `ordered` is set, and they are from the innermost to the outermost. -/
theorem findProcessJobs_jobs {system : System Object} {table : ℕ → List HandleEntry}
    {need : ℕ → UInt32} (h : system.Gives table need)
    (haddressed : ∀ call, system.Addressed (table call)) :
    ∃ call < 6, ∃ jobs ordered, system.findProcessJobs = .ok (jobs, ordered)
      ∧ (jobs.map ProcessJob.handle).Nodup
      ∧ (∀ job, job ∈ jobs.map ProcessJob.handle ↔ system.isProcessInJob job = some true
          ∧ ∃ entry ∈ table call, system.jobOf entry = some job)
      ∧ (∀ j ∈ jobs, j = system.processJob j.handle)
      ∧ jobs.Pairwise (·.activeProcesses ≤ ·.activeProcesses)
      ∧ (ordered = true ↔ jobs.Pairwise (·.activeProcesses < ·.activeProcesses))
      ∧ ∀ processes : Object → Finset ℕ,
          (∀ j ∈ jobs, (processes j.handle).card = j.activeProcesses.toNat) →
          (∀ j ∈ jobs, ∀ j' ∈ jobs, processes j.handle ⊆ processes j'.handle
            ∨ processes j'.handle ⊆ processes j.handle) →
          ordered = true → jobs.Pairwise fun j j' => processes j.handle ⊂ processes j'.handle := by
  obtain ⟨call, hcall, hdone⟩ := h.table_eq
  have hscanned := System.scanned_scan (haddressed call)
  set jobs := (system.scan (table call)).jobs with hjobs
  have hperm : (sortJobs jobs).Perm jobs := List.mergeSort_perm _ _
  have hsorted := sorted_sortJobs jobs
  refine ⟨call, hcall, sortJobs jobs, isOrdered (sortJobs jobs), ?_, ?_, fun job => ?_, fun j hj => ?_,
    hsorted, isOrdered_iff hsorted, fun processes hcount hnested hordered => ?_⟩
  · rw [System.findProcessJobs, hdone]
  · exact (hperm.map _).nodup_iff.mpr hscanned.once
  · rw [(hperm.map _).mem_iff]
    exact hscanned.mem job
  · exact hscanned.own j (hperm.mem_iff.mp hj)
  · exact pairwise_ssubset hcount hnested ((isOrdered_iff hsorted).mp hordered)

/-! A job with its own handle in two processes, at one address, and the job around it, whose address
isn't known; a process that can't be opened and an object of another type. -/

def someTable : List HandleEntry :=
  [⟨0x7000, 4, 16, 9⟩, ⟨0x5000, 8, 20, 7⟩, ⟨0, 8, 24, 7⟩, ⟨0x5000, 12, 4, 7⟩, ⟨0, 12, 8, 7⟩,
    ⟨0, 16, 4, 7⟩]

def someSystem : System ℕ where
  handles := serving (fun _ _ => someTable) fun _ => 0x500000
  typeName index := if index = 7 then wide "Job" else wide "Event"
  openProcess pid := pid != 16
  duplicateHandle pid handle :=
    if handle = 20 || pid = 12 && handle = 4 then some 1 else if handle = 8 || handle = 24 then some 2
    else none
  isProcessInJob _ := some true
  name _ := []
  silo _ := false
  activeProcesses job := if job = 1 then 2 else 3
  dosError status := status

example : (someSystem.scan someTable).jobs.map ProcessJob.handle = [1, 2] := by decide +kernel

theorem addressed_someTable : someSystem.Addressed someTable := by
  have hsame : ∀ e ∈ someTable, ∀ e' ∈ someTable, e.object ≠ 0 → e.object = e'.object →
      someSystem.jobOf e = someSystem.jobOf e' := by decide +kernel
  intro e he e' he' hne hobject job job' hjob hjob'
  rw [hsame e he e' he' hne hobject] at hjob
  exact Option.some.inj (hjob.symm.trans hjob')

theorem findProcessJobs_someSystem : ∃ jobs, someSystem.findProcessJobs = .ok (jobs, true)
    ∧ jobs.Pairwise fun j j' => Finset.range (j.handle + 1) ⊂ Finset.range (j'.handle + 1) := by
  obtain ⟨call, -, jobs, ordered, hjobs, honce, hmem, hown, hsorted, hordered, hnested⟩ :=
    @findProcessJobs_jobs ℕ _ someSystem (fun _ => someTable) _
      ⟨serves_serving _ _, fun _ => by decide, 0, by decide, UInt32.le_refl _⟩
      fun _ => addressed_someTable
  have hhandle : ∀ j ∈ jobs, j.handle = 1 ∨ j.handle = 2 := by
    have hall : ∀ entry ∈ someTable,
        (someSystem.jobOf entry).all (fun job => job == 1 || job == 2) = true := by decide +kernel
    intro j hj
    obtain ⟨-, entry, hentry, hjob⟩ := (hmem j.handle).mp (List.mem_map_of_mem hj)
    simpa [hjob] using hall entry hentry
  have hactive : ∀ j ∈ jobs, j.activeProcesses.toNat = j.handle + 1 := by
    intro j hj
    rw [congrArg ProcessJob.activeProcesses (hown j hj)]
    obtain h | h := hhandle j hj <;> rw [h] <;> rfl
  have hstrict : jobs.Pairwise (·.activeProcesses < ·.activeProcesses) := by
    refine (hsorted.and (List.pairwise_map.mp honce)).imp_of_mem fun {j j'} hj hj' h => ?_
    refine UInt32.lt_of_le_of_ne h.1 fun hsame => h.2 ?_
    have hcounts := congrArg UInt32.toNat hsame
    rw [hactive j hj, hactive j' hj'] at hcounts
    exact Nat.succ.inj hcounts
  have htrue := hordered.mpr hstrict
  subst htrue
  refine ⟨jobs, hjobs, hnested (fun job => Finset.range (job + 1)) (fun j hj => ?_) (fun j _ j' _ => ?_)
    rfl⟩
  · rw [Finset.card_range, hactive j hj]
  · simp only [Finset.range_subset_range]
    omega

end WinSys.Job
