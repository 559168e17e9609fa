import WinSys.Process.Creation

/-!
# Exits are handed out once

Whatever order the start and the stop of a process come in, and wherever `TakeExited` calls come
between, the first call after both returns the process and no other does. The record the two leave
is the same in both orders, but for the image name of a start without one that comes second.

* `Followed`: the tracker and what it was told of one process
* `ExitLaw`, `NamesKept`
* `exits_taken_once`
-/

namespace WinSys.Creation

open Infra
open Process (ProcessOrThreadKey)

/-! ## what a call is about -/

namespace Call

variable (key : ProcessOrThreadKey)

/-- The start of a process, if the call delivers it. -/
def startOf : Call → Option ProcessCreation
  | .onEvent system record =>
    if record.kernelProcess = false ∨ record.id = processStopId then none
    else (record.start system).filter fun c => c.key = key
  | _ => none

def stopOf : Call → Option ProcessStop
  | .onEvent _ record =>
    if record.kernelProcess = false ∨ record.id ≠ processStopId then none
    else record.stop.filter fun e => e.key = key
  | _ => none

def takes : Call → Bool
  | .takeExited => true
  | _ => false

def removes : Call → Bool
  | .remove k => k = key
  | _ => false

end Call

/-- The tracker, with what it was told of a process so far. -/
structure Followed where
  tracker : ProcessCreationTracker := {}
  /-- The time of the last call. -/
  clock : ℤ
  start : Option ProcessCreation := none
  stop : Option ProcessStop := none
  /-- `TakeExited` was called after both. -/
  taken : Bool := false

def Followed.both (w : Followed) : Bool := w.start.isSome && w.stop.isSome

def Followed.step (key : ProcessOrThreadKey) (w : Followed) (c : ℤ × Call) : Followed where
  tracker := w.tracker.step c.1 c.2
  clock := c.1
  start := c.2.startOf key <|> w.start
  stop := c.2.stopOf key <|> w.stop
  taken := w.taken || (c.2.takes && w.both)

/-- The clock doesn't go back, start and stop come once each and soon after the exit, and the
process isn't removed. -/
structure Regular (key : ProcessOrThreadKey) (w : Followed) (c : ℤ × Call) : Prop where
  clock : w.clock ≤ c.1
  start : ∀ s ∈ c.2.startOf key, w.start = none ∧ ∀ e ∈ w.stop, c.1 - e.exited.toInt < exitedKept
  stop : ∀ e ∈ c.2.stopOf key, w.stop = none ∧ e.exited ≠ 0 ∧ c.1 - e.exited.toInt < exitedKept
  kept : c.2.removes key = false

/-- The record of a start and a stop. -/
def merged (s : ProcessCreation) (e : ProcessStop) : ProcessCreation := { s with
  exitTime := e.exited
  exitCode := e.code
  imagePath := if s.imagePath = [] then e.name else s.imagePath }

/-- What a call returns of a process, and the record it leaves until the process is taken. -/
structure ExitLaw (key : ProcessOrThreadKey) (w : Followed) (c : ℤ × Call) : Prop where
  returned : c.2.takes = true →
    ((w.tracker.takeExited c.1).1.map ProcessCreation.key).count key
      = if w.both && !w.taken then 1 else 0
  merged : ∀ s ∈ (w.step key c).start, ∀ e ∈ (w.step key c).stop, (w.step key c).taken = false →
    (w.step key c).tracker.creations.lookup key = some (merged s e)

/-- A start that comes after the stop has an image name, unless the stop has none either. -/
def NamesKept (key : ProcessOrThreadKey) (w : Followed) (c : ℤ × Call) : Prop :=
  ∀ s ∈ c.2.startOf key, ∀ e ∈ w.stop, s.imagePath = [] → e.name = []

/-! ## one call -/

/-- What a start's record is before anything else is known. -/
structure ProcessCreation.Starts (key : ProcessOrThreadKey) (s : ProcessCreation) : Prop where
  key : s.key = key
  started : s.started = true
  exitTime : s.exitTime = 0
  exitCode : s.exitCode = none
  taken : s.taken = false

section Step

variable {key k : ProcessOrThreadKey} {t : ProcessCreationTracker} {now : ℤ} {c : Call}
  {s r : ProcessCreation} {e : ProcessStop} {system : System} {record : EventRecord}

theorem parse_fields {id : UInt16} {version : UInt8} {data : Bytes}
    (h : parse id version data = some s) :
    s = { pid := s.pid, createTime := s.createTime, parentPid := s.parentPid } := by
  unfold parse at h
  dsimp only at h
  by_cases hbad : id ≠ processStartId ∨ data.length < 16 + (if version ≥ 3 then 8 else 0)
  · rw [if_pos hbad] at h
    cases h
  · rw [if_neg hbad] at h
    cases h
    rfl

theorem starts_of_startOf (h : s ∈ c.startOf key) : s.Starts key := by
  cases c with
  | onEvent system record =>
    simp only [Call.startOf] at h
    split at h
    · cases h
    · obtain ⟨hs, hk⟩ := Option.filter_eq_some_iff.mp h
      unfold EventRecord.start at hs
      split at hs
      · cases hs
      · next r hr =>
        have hfields := parse_fields hr
        cases hs
        refine ⟨by simpa using hk, rfl, ?_, ?_, ?_⟩
        · rw [hfields]
        · rw [hfields]
        · rw [hfields]
  | takeExited => cases h
  | remove => cases h

theorem key_of_stopOf (h : e ∈ c.stopOf key) : e.key = key := by
  cases c with
  | onEvent system record =>
    simp only [Call.stopOf] at h
    split at h
    · cases h
    · obtain ⟨-, hk⟩ := Option.filter_eq_some_iff.mp h
      simpa using hk
  | takeExited => cases h
  | remove => cases h

/-- An event of a process changes its record. -/
theorem lookup_onEvent : (t.onEvent system record).creations.lookup key
    = match (Call.onEvent system record).startOf key, (Call.onEvent system record).stopOf key with
      | some s, _ => some (s.replace ((t.creations.lookup key).getD {}))
      | none, some e => some (e.fill ((t.creations.lookup key).getD {}))
      | none, none => t.creations.lookup key := by
  unfold ProcessCreationTracker.onEvent Call.startOf Call.stopOf
  by_cases hp : record.kernelProcess = false
  · simp [hp]
  · by_cases hid : record.id = processStopId
    · cases he : record.stop with
      | none => simp [hp, hid, he]
      | some e =>
        by_cases hk : e.key = key
        · subst hk
          simp [hp, hid, he, ProcessCreationTracker.onStop, Option.filter_some]
        · simp [hp, hid, he, hk, ProcessCreationTracker.onStop, Option.filter_some,
            Finmap.lookup_insert_of_ne _ (Ne.symm hk)]
    · cases hs : record.start system with
      | none => simp [hp, hid, hs]
      | some s =>
        by_cases hk : s.key = key
        · subst hk
          simp [hp, hid, hs, ProcessCreationTracker.onStart, Option.filter_some]
        · simp [hp, hid, hs, hk, ProcessCreationTracker.onStart, Option.filter_some,
            Finmap.lookup_insert_of_ne _ (Ne.symm hk)]

theorem startOf_stopOf : c.startOf key = none ∨ c.stopOf key = none := by
  cases c with
  | onEvent system record =>
    by_cases hid : record.id = processStopId
    · left
      simp [Call.startOf, hid]
    · right
      simp [Call.stopOf, hid]
  | takeExited => exact Or.inl rfl
  | remove => exact Or.inl rfl

theorem lookup_takeExited : (t.takeExited now).2.creations.lookup key
    = ((t.creations.lookup key).map ProcessCreation.take).filter fun r => !r.expired now := by
  show (Finmap.eraseIf _ _).lookup key = _
  rw [Finmap.lookup_eraseIf, Finmap.lookup_mapAll]

theorem lookup_remove (h : (Call.remove k).removes key = false) :
    (t.remove k).creations.lookup key = t.creations.lookup key := by
  refine Finmap.lookup_erase_ne fun heq => ?_
  simp [Call.removes, heq] at h

/-- A record is under its own key. -/
def Keyed (t : ProcessCreationTracker) : Prop :=
  ∀ k r, t.creations.lookup k = some r → r.key = k

theorem keyed_insert {r : ProcessCreation} (h : Keyed t) (hr : r.key = k) :
    Keyed { creations := t.creations.insert k r } := by
  intro j x hx
  have hx' : (t.creations.insert k r).lookup j = some x := hx
  rw [Finmap.lookup_insert_eq] at hx'
  split at hx'
  · next hj => rw [← Option.some.inj hx', hr, hj]
  · exact h j x hx'

theorem Keyed.step (h : Keyed t) : Keyed (t.step now c) := by
  cases c with
  | onEvent system record =>
    show Keyed (t.onEvent system record)
    unfold ProcessCreationTracker.onEvent
    split
    · exact h
    · split
      · split
        · exact h
        · exact keyed_insert h rfl
      · split
        · exact h
        · exact keyed_insert h rfl
  | takeExited =>
    intro k r hr
    have hr' : (t.takeExited now).2.creations.lookup k = some r := hr
    rw [lookup_takeExited, Option.filter_eq_some_iff, Option.map_eq_some_iff] at hr'
    obtain ⟨⟨x, hx, rfl⟩, -⟩ := hr'
    rw [← h k x hx, ProcessCreation.take]
    split <;> rfl
  | remove key =>
    intro k r hr
    have hr' : (t.creations.erase key).lookup k = some r := hr
    rw [Finmap.lookup_erase_eq] at hr'
    split at hr'
    · cases hr'
    · exact h k r hr'

/-- A call returns a process once at most: if its record says that it exited. -/
theorem count_returned (h : Keyed t) :
    ((t.takeExited now).1.map ProcessCreation.key).count key
      = if (t.creations.lookup key).any ProcessCreation.exits then 1 else 0 := by
  rw [← Finmap.count_filter_entries t.creations (fun _ r => r.exits) key]
  show Multiset.count key (((t.creations.entries.filter fun e => e.2.exits).map fun e =>
    e.2.take).map ProcessCreation.key) = _
  rw [Multiset.map_map]
  congr 1
  refine Multiset.map_congr rfl fun e he => ?_
  have hkey := h e.1 e.2 (Finmap.mem_lookup_iff.mpr (Multiset.mem_filter.mp he).1)
  rw [← hkey, Function.comp_apply, ProcessCreation.take]
  split <;> rfl

end Step

/-! ## what a call does to a record -/

/-- The record of a process after a call, by what the call is about. -/
inductive Stepped (key : ProcessOrThreadKey) (w : Followed) (c : ℤ × Call) (w' : Followed) : Prop
  | start (s : ProcessCreation) (hs : c.2.startOf key = some s) (hstart : w'.start = some s)
      (hstop : w'.stop = w.stop) (htaken : w'.taken = w.taken)
      (hr : w'.tracker.creations.lookup key
        = some (s.replace ((w.tracker.creations.lookup key).getD {})))
  | stop (e : ProcessStop) (he : c.2.stopOf key = some e) (hstart : w'.start = w.start)
      (hstop : w'.stop = some e) (htaken : w'.taken = w.taken)
      (hr : w'.tracker.creations.lookup key
        = some (e.fill ((w.tracker.creations.lookup key).getD {})))
  | take (htakes : c.2.takes = true) (hstart : w'.start = w.start) (hstop : w'.stop = w.stop)
      (htaken : w'.taken = (w.taken || w.both))
      (hr : w'.tracker.creations.lookup key
        = ((w.tracker.creations.lookup key).map ProcessCreation.take).filter
          fun r => !r.expired c.1)
  | other (htakes : c.2.takes = false) (hs : c.2.startOf key = none) (hstart : w'.start = w.start)
      (hstop : w'.stop = w.stop) (htaken : w'.taken = w.taken)
      (hr : w'.tracker.creations.lookup key = w.tracker.creations.lookup key)

theorem stepped {key : ProcessOrThreadKey} {w : Followed} {c : ℤ × Call}
    (h : c.2.removes key = false) : Stepped key w c (w.step key c) := by
  obtain ⟨now, call⟩ := c
  cases call with
  | onEvent system record =>
    have hlookup := @lookup_onEvent key w.tracker system record
    have htaken : (w.step key (now, .onEvent system record)).taken = w.taken := by
      simp [Followed.step, Call.takes]
    cases hs : (Call.onEvent system record).startOf key with
    | some s =>
      have hnone := (@startOf_stopOf key (.onEvent system record)).resolve_left (by simp [hs])
      rw [hs] at hlookup
      refine .start s hs ?_ ?_ htaken hlookup
      · show (_ <|> w.start) = some s
        rw [hs]
        rfl
      · show (_ <|> w.stop) = w.stop
        rw [hnone]
        rfl
    | none =>
      have hstart : (w.step key (now, .onEvent system record)).start = w.start := by
        show (_ <|> w.start) = w.start
        rw [hs]
        rfl
      cases he : (Call.onEvent system record).stopOf key with
      | some e =>
        rw [hs, he] at hlookup
        refine .stop e he hstart ?_ htaken hlookup
        show (_ <|> w.stop) = some e
        rw [he]
        rfl
      | none =>
        rw [hs, he] at hlookup
        refine .other rfl hs hstart ?_ htaken hlookup
        show (_ <|> w.stop) = w.stop
        rw [he]
        rfl
  | takeExited => exact .take rfl rfl rfl rfl lookup_takeExited
  | remove k => exact .other rfl rfl rfl rfl (by simp [Followed.step, Call.takes]) (lookup_remove h)

/-! ## what is carried between calls -/

/-- The record of a process, by what was told of it. -/
def Followed.Holds (w : Followed) (r : Option ProcessCreation) : Prop :=
  match w.start, w.stop with
  | none, none => r = none ∧ w.taken = false
  | some s, none => r = some s ∧ w.taken = false
  | none, some e =>
    -- once it was erased for its age, a start would come too late
    (r = some (e.fill {}) ∨ r = none ∧ exitedKept < w.clock - e.exited.toInt) ∧ w.taken = false
  | some s, some e =>
    if w.taken then ∀ c ∈ r, c.taken = true else r = some (merged s e)

structure Held (key : ProcessOrThreadKey) (w : Followed) : Prop where
  keyed : Keyed w.tracker
  starts : ∀ s ∈ w.start, s.Starts key
  stops : ∀ e ∈ w.stop, e.key = key ∧ e.exited ≠ 0
  record : w.Holds (w.tracker.creations.lookup key)

section Calls

variable {key : ProcessOrThreadKey} {w : Followed} {c : ℤ × Call} {s : ProcessCreation}
  {e : ProcessStop} {r : ProcessCreation} {now : ℤ}

theorem Held.begin (clock : ℤ) : Held key { clock := clock } where
  keyed k r h := by cases h
  starts s h := by cases h
  stops e h := by cases h
  record := ⟨rfl, rfl⟩

/-- A start that comes second leaves out its own missing image name only. -/
theorem replace_fill (s : ProcessCreation) (e : ProcessStop) :
    s.replace (e.fill {}) = { merged s e with imagePath := s.imagePath } := rfl

theorem replace_fill_eq_merged_iff : s.replace (e.fill {}) = merged s e
    ↔ (s.imagePath = [] → e.name = []) := by
  rw [replace_fill, merged]
  by_cases h : s.imagePath = []
  · simp [h, eq_comm]
  · simp [h]

theorem fill_start (hs : s.Starts key) (he : e.key = key) : e.fill s = merged s e := by
  have hkey := he.trans hs.key.symm
  rw [ProcessStop.key, ProcessCreation.key, ProcessOrThreadKey.mk.injEq] at hkey
  unfold merged ProcessStop.fill
  rw [hkey.1, hkey.2]

theorem replace_none (hs : s.Starts key) : s.replace {} = s := by
  have htime := hs.exitTime
  have hcode := hs.exitCode
  obtain ⟨⟩ := s
  simp only at htime hcode
  rw [ProcessCreation.replace, htime, hcode]

/-- A start finds the stop's record. -/
theorem Held.stopped (h : Held key w) (hr : Regular key w c) (hs : c.2.startOf key = some s)
    (he : w.stop = some e) : w.tracker.creations.lookup key = some (e.fill {}) := by
  obtain ⟨hstart, hsoon⟩ := hr.start s hs
  have hrecord := h.record
  unfold Followed.Holds at hrecord
  rw [hstart, he] at hrecord
  rcases hrecord.1 with hfill | ⟨-, hlate⟩
  · exact hfill
  · have hclock := hr.clock
    have hlt := hsoon e he
    omega

theorem exits_start (hs : s.Starts key) : s.exits = false := by
  simp [ProcessCreation.exits, hs.exitTime]

theorem expired_start (hs : s.Starts key) : s.expired now = false := by
  simp [ProcessCreation.expired, hs.exitTime]

theorem exits_fill : (e.fill {}).exits = false := by
  simp [ProcessCreation.exits, ProcessStop.fill]

theorem exits_merged (hs : s.Starts key) (he : e.exited ≠ 0) : (merged s e).exits = true := by
  simp [ProcessCreation.exits, merged, hs.started, hs.taken, he]

theorem take_of_not_exits (h : r.exits = false) : r.take = r := by
  rw [ProcessCreation.take, if_neg (by simp [h])]

theorem taken_take (h : r.exits = true ∨ r.taken = true) : r.take.taken = true := by
  unfold ProcessCreation.take
  split
  · rfl
  · next hno =>
    rcases h with h | h
    · exact absurd h hno
    · exact h

/-- A call keeps what is said of the record. -/
theorem Held.record_step (h : Held key w) (hr : Regular key w c) (hn : NamesKept key w c) :
    (w.step key c).Holds ((w.step key c).tracker.creations.lookup key) := by
  have hrecord := h.record
  have hclock : (w.step key c).clock = c.1 := rfl
  have hle := hr.clock
  unfold Followed.Holds at hrecord ⊢
  cases stepped hr.kept with
  | start s hs hstart hstop htaken hlookup =>
    rw [(hr.start s hs).1] at hrecord
    rw [hstart, hstop, htaken, hlookup]
    cases he : w.stop with
    | none =>
      rw [he] at hrecord
      obtain ⟨hnone, hnot⟩ := hrecord
      rw [hnone]
      exact ⟨congrArg some (replace_none (starts_of_startOf hs)), hnot⟩
    | some e =>
      rw [he] at hrecord
      rw [h.stopped hr hs he]
      show if w.taken = true then _ else some (s.replace (e.fill {})) = some (merged s e)
      rw [hrecord.2, if_neg (by simp), replace_fill_eq_merged_iff.mpr (hn s hs e he)]
  | stop e he hstart hstop htaken hlookup =>
    rw [(hr.stop e he).1] at hrecord
    rw [hstart, hstop, htaken, hlookup]
    cases hs : w.start with
    | none =>
      rw [hs] at hrecord
      obtain ⟨hnone, hnot⟩ := hrecord
      rw [hnone]
      exact ⟨Or.inl rfl, hnot⟩
    | some s =>
      rw [hs] at hrecord
      obtain ⟨hsome, hnot⟩ := hrecord
      rw [hsome]
      show if w.taken = true then _ else some (e.fill s) = some (merged s e)
      rw [hnot, if_neg (by simp), fill_start (h.starts s hs) (key_of_stopOf he)]
  | take htakes hstart hstop htaken hlookup =>
    rw [hstart, hstop, htaken, hlookup, hclock, Followed.both]
    cases hs : w.start with
    | none =>
      cases he : w.stop with
      | none =>
        rw [hs, he] at hrecord
        obtain ⟨hnone, hnot⟩ := hrecord
        rw [hnone, hnot]
        exact ⟨rfl, rfl⟩
      | some e =>
        rw [hs, he] at hrecord
        obtain ⟨hsome | ⟨hnone, hlate⟩, hnot⟩ := hrecord
        · -- only its age can end a record without a start
          rw [hsome, hnot, Option.map_some, take_of_not_exits exits_fill, Option.filter_some]
          refine ⟨?_, rfl⟩
          cases hexp : (e.fill {}).expired c.1 with
          | false => exact Or.inl rfl
          | true =>
            right
            simp only [ProcessCreation.expired, ProcessStop.fill, Bool.and_eq_true,
              decide_eq_true_eq] at hexp
            exact ⟨rfl, hexp.2⟩
        · rw [hnone, hnot]
          exact ⟨Or.inr ⟨rfl, by omega⟩, rfl⟩
    | some s =>
      have hstarts := h.starts s hs
      cases he : w.stop with
      | none =>
        rw [hs, he] at hrecord
        obtain ⟨hsome, hnot⟩ := hrecord
        rw [hsome, hnot, Option.map_some, take_of_not_exits (exits_start hstarts),
          Option.filter_some, expired_start hstarts]
        exact ⟨rfl, rfl⟩
      | some e =>
        rw [hs, he] at hrecord
        have htrue : (w.taken || (some s).isSome && (some e).isSome) = true := by simp
        show if _ then _ else _
        rw [htrue, if_pos rfl]
        intro r hmem
        obtain ⟨hmap, -⟩ := Option.filter_eq_some_iff.mp hmem
        obtain ⟨x, hx, rfl⟩ := Option.map_eq_some_iff.mp hmap
        refine taken_take ?_
        by_cases ht : w.taken = true
        · simp only [ht, if_true] at hrecord
          exact Or.inr (hrecord x hx)
        · simp only [ht] at hrecord
          rw [hrecord] at hx
          rw [← Option.some.inj hx]
          exact Or.inl (exits_merged hstarts (h.stops e he).2)
  | other htakes hs hstart hstop htaken hlookup =>
    rw [hstart, hstop, htaken, hlookup, hclock]
    cases hs : w.start with
    | none =>
      cases he : w.stop with
      | none =>
        rw [hs, he] at hrecord
        exact hrecord
      | some e =>
        rw [hs, he] at hrecord
        exact ⟨hrecord.1.imp_right fun hlate => ⟨hlate.1, by have := hlate.2; omega⟩, hrecord.2⟩
    | some s =>
      cases he : w.stop with
      | none =>
        rw [hs, he] at hrecord
        exact hrecord
      | some e =>
        rw [hs, he] at hrecord
        exact hrecord

theorem Held.step (h : Held key w) (hr : Regular key w c) (hn : NamesKept key w c) :
    Held key (w.step key c) := by
  refine ⟨h.keyed.step, fun s hs => ?_, fun e he => ?_, h.record_step hr hn⟩
  · cases hnew : c.2.startOf key with
    | none =>
      have hold : (c.2.startOf key <|> w.start) = some s := hs
      rw [hnew] at hold
      exact h.starts s hold
    | some s' =>
      have hold : (c.2.startOf key <|> w.start) = some s := hs
      rw [hnew] at hold
      rw [← Option.some.inj hold]
      exact starts_of_startOf hnew
  · cases hnew : c.2.stopOf key with
    | none =>
      have hold : (c.2.stopOf key <|> w.stop) = some e := he
      rw [hnew] at hold
      exact h.stops e hold
    | some e' =>
      have hold : (c.2.stopOf key <|> w.stop) = some e := he
      rw [hnew] at hold
      rw [← Option.some.inj hold]
      exact ⟨key_of_stopOf hnew, (hr.stop e' hnew).2.1⟩

/-- The law of one call. -/
theorem Held.exitLaw (h : Held key w) (hr : Regular key w c) (hn : NamesKept key w c) :
    ExitLaw key w c where
  returned htakes := by
    have hrecord := h.record
    rw [count_returned h.keyed]
    unfold Followed.Holds at hrecord
    rw [Followed.both]
    cases hs : w.start with
    | none =>
      cases he : w.stop with
      | none =>
        rw [hs, he] at hrecord
        rw [hrecord.1]
        rfl
      | some e =>
        rw [hs, he] at hrecord
        rcases hrecord.1 with hsome | ⟨hnone, -⟩
        · rw [hsome, Option.any_some, exits_fill]
          rfl
        · rw [hnone]
          rfl
    | some s =>
      cases he : w.stop with
      | none =>
        rw [hs, he] at hrecord
        rw [hrecord.1, Option.any_some, exits_start (h.starts s hs)]
        rfl
      | some e =>
        rw [hs, he] at hrecord
        by_cases ht : w.taken = true
        · simp only [ht, if_true] at hrecord
          have hnot : (w.tracker.creations.lookup key).any ProcessCreation.exits = false := by
            cases hl : w.tracker.creations.lookup key with
            | none => rfl
            | some r => simp [ProcessCreation.exits, hrecord r hl]
          rw [hnot, ht]
          rfl
        · simp only [ht] at hrecord
          rw [hrecord, Option.any_some, exits_merged (h.starts s hs) (h.stops e he).2]
          simp [ht]
  merged s hs e he ht := by
    have hrecord := h.record_step hr hn
    unfold Followed.Holds at hrecord
    rw [Option.mem_def.mp hs, Option.mem_def.mp he] at hrecord
    simpa only [ht, Bool.false_eq_true, if_false] using hrecord

/-- A start without an image name that comes second breaks it. -/
theorem Held.namesKept (h : Held key w) (hr : Regular key w c) (hl : ExitLaw key w c) :
    NamesKept key w c := by
  intro s hs e he hname
  have hs' : c.2.startOf key = some s := hs
  have he' : w.stop = some e := he
  cases stepped hr.kept with
  | start s' hs'' hstart hstop htaken hlookup =>
    obtain rfl : s' = s := Option.some.inj (hs''.symm.trans hs')
    have hnot : w.taken = false := by
      have hrecord := h.record
      unfold Followed.Holds at hrecord
      rw [(hr.start s' hs).1, he'] at hrecord
      exact hrecord.2
    rw [h.stopped hr hs he', Option.getD_some] at hlookup
    have hmerged := hl.merged s' hstart e (hstop.trans he') (htaken.trans hnot)
    rw [hlookup] at hmerged
    exact replace_fill_eq_merged_iff.mp (Option.some.inj hmerged) hname
  | stop e' hstop _ _ _ _ =>
    have hnone := (@startOf_stopOf key c.2).resolve_right (by simp [hstop])
    rw [hs'] at hnone
    cases hnone
  | take htakes _ _ _ _ =>
    obtain ⟨now, call⟩ := c
    cases call <;> simp_all [Call.takes, Call.startOf]
  | other _ hnone _ _ _ _ =>
    rw [hs'] at hnone
    cases hnone

end Calls

/-! ## every run -/

/--
**Every exit is handed out once, by the first call after both events, and the record of the two is
the same in either order**, exactly in the runs in which no start without an image name comes after
a stop with one.
-/
theorem exits_taken_once (key : ProcessOrThreadKey) (clock : ℤ) (calls : List (ℤ × Call))
    (hr : Along (Followed.step key) (Regular key) { clock := clock } calls) :
    Along (Followed.step key) (ExitLaw key) { clock := clock } calls
      ↔ Along (Followed.step key) (NamesKept key) { clock := clock } calls := by
  constructor
  · intro hl
    exact Along.mono_of_invariant (Held key)
      (fun w c hw hok => hw.step hok.1 (hw.namesKept hok.1 hok.2))
      (fun w c hw hok => hw.namesKept hok.1 hok.2) (Held.begin clock) (hr.and hl)
  · intro hn
    exact Along.mono_of_invariant (Held key) (fun w c hw hok => hw.step hok.1 hok.2)
      (fun w c hw hok => hw.exitLaw hok.1 hok.2) (Held.begin clock) (hr.and hn)

section Runs

instance (key : ProcessOrThreadKey) (w : Followed) (c : ℤ × Call) :
    Decidable (Regular key w c) :=
  decidable_of_iff (w.clock ≤ c.1
      ∧ (∀ s ∈ c.2.startOf key, w.start = none ∧ ∀ e ∈ w.stop, c.1 - e.exited.toInt < exitedKept)
      ∧ (∀ e ∈ c.2.stopOf key,
        w.stop = none ∧ e.exited ≠ 0 ∧ c.1 - e.exited.toInt < exitedKept)
      ∧ c.2.removes key = false)
    ⟨fun ⟨h₁, h₂, h₃, h₄⟩ => ⟨h₁, h₂, h₃, h₄⟩, fun h => ⟨h.clock, h.start, h.stop, h.kept⟩⟩

instance (key : ProcessOrThreadKey) (w : Followed) (c : ℤ × Call) :
    Decidable (ExitLaw key w c) :=
  decidable_of_iff ((c.2.takes = true →
        ((w.tracker.takeExited c.1).1.map ProcessCreation.key).count key
          = if w.both && !w.taken then 1 else 0)
      ∧ ∀ s ∈ (w.step key c).start, ∀ e ∈ (w.step key c).stop, (w.step key c).taken = false →
        (w.step key c).tracker.creations.lookup key = some (Creation.merged s e))
    ⟨fun ⟨h₁, h₂⟩ => ⟨h₁, h₂⟩, fun h => ⟨h.returned, h.merged⟩⟩

/-- No services run, and no process can be opened. -/
def quietSystem : System where
  serviceProcess _ := 0
  imagePath _ := none

/-- The stop of process 7, which was created at 1 and exited at 2. -/
def stopRecord : EventRecord where
  id := processStopId
  property name :=
    if name = wide "ProcessID" then some [7, 0, 0, 0]
    else if name = wide "CreateTime" then some [1, 0, 0, 0, 0, 0, 0, 0]
    else if name = wide "ExitTime" then some [2, 0, 0, 0, 0, 0, 0, 0]
    else if name = wide "ImageName" then some [0x61, 0x2E, 0x65, 0x78, 0x65, 0]
    else none

/-- Its start, with or without an image name. -/
def startRecord (image : Option Bytes) : EventRecord where
  id := processStartId
  processId := 4
  userData := [7, 0, 0, 0, 1, 0, 0, 0, 0, 0, 0, 0, 4, 0, 0, 0]
  property name := if name = wide "ImageName" then image else none

/-- The stop comes first, and `TakeExited` is called between and after. -/
def stopFirst (image : Option Bytes) : List (ℤ × Call) :=
  [(3, .onEvent quietSystem stopRecord), (4, .takeExited),
    (5, .onEvent quietSystem (startRecord image)), (6, .takeExited), (7, .takeExited)]

theorem exits_taken_once_stopFirst :
    Along (Followed.step ⟨1, 7⟩) (ExitLaw ⟨1, 7⟩) { clock := 0 } (stopFirst (some [0x61, 0]))
      ↔ Along (Followed.step ⟨1, 7⟩) (NamesKept ⟨1, 7⟩) { clock := 0 }
        (stopFirst (some [0x61, 0])) :=
  exits_taken_once ⟨1, 7⟩ 0 (stopFirst (some [0x61, 0])) (by decide)

/-- A start without an image name takes the file name out of the record that the stop left. -/
theorem start_drops_fileName :
    ¬ ∀ (key : ProcessOrThreadKey) (clock : ℤ) (calls : List (ℤ × Call)),
      Along (Followed.step key) (Regular key) { clock := clock } calls →
        Along (Followed.step key) (ExitLaw key) { clock := clock } calls := by
  intro hall
  have h := hall ⟨1, 7⟩ 0 (stopFirst none) (by decide)
  revert h
  decide

end Runs

end WinSys.Creation
