import Mathlib.Data.Finmap
import Mathlib.Data.Finset.Insert
import WinSys.Infra.Wide

/-!
# Zombie processes

Processes that exited and whose objects are kept by handles. `ZombieProcesses::Find` goes over the
system's handle table once; what it finds out about an entry is remembered for those that come
after it.

* `Machine`: what the system answers, the same for the whole pass
* `turn`, `find`
* `Status`: what an object's handles make of it, one after the other
* `inv_pass`: the pass keeps for each object its status
-/

namespace WinSys.Process.Zombies

open Infra

/-! ## handles -/

/-- `SYSTEM_HANDLE_TABLE_ENTRY_INFO_EX` -/
structure HandleEntry where
  /-- 0 when addresses are not shown -/
  object : UInt64
  pid : UInt64
  handle : UInt64
  access : UInt32 := 0
  typeIndex : UInt16
  attributes : UInt32 := 0
deriving DecidableEq, Repr

structure ZombieHolder where
  pid : UInt32
  handle : UInt64
  access : UInt32
  attributes : UInt32
deriving DecidableEq, Repr

structure ZombieProcess where
  pid : UInt32
  object : UInt64
  imagePath : WString := []
  createTime : Int64 := 0
  exitTime : Int64 := 0
  exitCode : UInt32 := 0
  holders : List ZombieHolder := []
deriving DecidableEq, Repr

def holder (e : HandleEntry) : ZombieHolder := ⟨e.pid.toUInt32, e.handle, e.access, e.attributes⟩

/-! ## what the system answers -/

structure ProcessObject where
  pid : UInt32
  created : Int64
  /-- 0 while it runs -/
  exited : Int64
  exitCode : UInt32 := 0
  imagePath : WString := []
deriving DecidableEq, Repr

/-- What comes of the two calls of `DuplicateHandle`. -/
inductive Duplicated where
  | withQuery
  | withSameAccess
  | failed
deriving DecidableEq, Repr

structure Machine where
  self : UInt64
  /-- `ObjectTypes::GetName` -/
  typeName : UInt16 → WString
  /-- `OpenProcess` for duplicating -/
  opens : UInt64 → Bool
  /-- by the owner and the handle's value -/
  duplicates : UInt64 → UInt64 → Duplicated
  /-- the address of the object behind a handle, by the owner and the handle's value -/
  behind : UInt64 → UInt64 → UInt64
  process : UInt64 → ProcessObject

def processQueryInformation : UInt32 := 0x400

def processQueryLimitedInformation : UInt32 := 0x1000

def synchronize : UInt32 := 0x100000

/-- The process's times, its ID and its name can be read. -/
def CanQuery (access : UInt32) : Prop :=
  access &&& (processQueryInformation ||| processQueryLimitedInformation) ≠ 0

instance : DecidablePred CanQuery := fun _ => inferInstanceAs (Decidable (_ ≠ _))

/-- Its state can be waited for. -/
def CanWait (access : UInt32) : Prop := access &&& synchronize ≠ 0

instance : DecidablePred CanWait := fun _ => inferInstanceAs (Decidable (_ ≠ _))

/-- Whether the process exited, and its times when they can be read. -/
def hasExited (p : ProcessObject) (access : UInt32) : Bool × Int64 × Int64 :=
  if CanQuery access then (p.exited ≠ 0, p.created, p.exited)
  else (CanWait access ∧ p.exited ≠ 0, 0, 0)

namespace Machine

variable (m : Machine)

/-- `Duplicate`: the access of the duplicate, if there is one. -/
def duplicate (e : HandleEntry) : Option UInt32 :=
  match m.duplicates e.pid e.handle with
  | .withQuery => some (processQueryLimitedInformation ||| synchronize)
  | .withSameAccess => some e.access
  | .failed => none

def IsProcess (e : HandleEntry) : Prop := m.typeName e.typeIndex = wide "Process"

instance (e : HandleEntry) : Decidable (m.IsProcess e) := inferInstanceAs (Decidable (_ = _))

/-- The process behind an entry's handle. -/
def target (e : HandleEntry) : ProcessObject := m.process (m.behind e.pid e.handle)

/-- What a duplicate with an access says of a zombie. -/
def record (e : HandleEntry) (access : UInt32) : ZombieProcess :=
  let p := m.target e
  let (_, created, exited) := hasExited p access
  if CanQuery access then
    { pid := p.pid, object := e.object, createTime := created, exitTime := exited
      exitCode := p.exitCode, imagePath := p.imagePath }
  else { pid := 0, object := e.object, createTime := created, exitTime := exited }

end Machine

/-! ## the pass -/

structure Search where
  isProcessType : Finmap fun _ : UInt16 => Bool := ∅
  owners : Finmap fun _ : UInt64 => Bool := ∅
  /-- process objects found running -/
  live : Finset UInt64 := ∅
  /-- zombies by address -/
  byObject : Finmap fun _ : UInt64 => ℕ := ∅
  zombies : List ZombieProcess := []

namespace Search

variable (m : Machine) (s : Search)

def processType (e : HandleEntry) : Bool × Search :=
  match s.isProcessType.lookup e.typeIndex with
  | some known => (known, s)
  | none =>
    (m.IsProcess e, { s with isProcessType := s.isProcessType.insert e.typeIndex (m.IsProcess e) })

def owner (pid : UInt64) : Bool × Search :=
  match s.owners.lookup pid with
  | some known => (known, s)
  | none => (m.opens pid, { s with owners := s.owners.insert pid (m.opens pid) })

def addHolder (i : ℕ) (e : HandleEntry) : Search :=
  { s with zombies := s.zombies.modify i fun z => { z with holders := z.holders ++ [holder e] } }

/-- A handle to no zombie found yet, whose owner is open. -/
def check (e : HandleEntry) : Search :=
  match m.duplicate e with
  | none => s
  | some access =>
    if !(hasExited (m.target e) access).1 then
      if e.object ≠ 0 then { s with live := insert e.object s.live } else s
    else
      let zombie := m.record e access
      -- without addresses, by its ID and creation time
      let known :=
        if e.object ≠ 0 then none
        else s.zombies.findIdx? fun z => z.pid = zombie.pid ∧ z.createTime = zombie.createTime
      match known with
      | some i => s.addHolder i e
      | none =>
        let s :=
          if e.object ≠ 0 then { s with byObject := s.byObject.insert e.object s.zombies.length }
          else s
        { s with zombies := s.zombies ++ [{ zombie with holders := [holder e] }] }

/-- A turn of the loop. -/
def turn (e : HandleEntry) : Search :=
  if e.pid = m.self then s
  else
    let (isProcess, s) := s.processType m e
    if !isProcess ∨ (e.object ≠ 0 ∧ e.object ∈ s.live) then s
    else
      -- another handle to a zombie already found
      match if e.object ≠ 0 then s.byObject.lookup e.object else none with
      | some i => s.addHolder i e
      | none =>
        let (opened, s) := s.owner m e.pid
        if !opened then s else s.check m e

end Search

def pass (m : Machine) (table : List HandleEntry) : Search := table.foldl (Search.turn m) {}

/-- `ZombieProcesses::Find`; none: the handle table can't be read. -/
def find (m : Machine) (table : Option (List HandleEntry)) : Option (List ZombieProcess) :=
  table.map fun table => (pass m table).zombies

/-! ## objects -/

/-- What a handle says of its object. -/
inductive Verdict where
  /-- nobody can tell -/
  | skipped
  | live
  | zombie (z : ZombieProcess)

def verdict (m : Machine) (e : HandleEntry) : Verdict :=
  if !m.opens e.pid then .skipped
  else
    match m.duplicate e with
    | none => .skipped
    | some access =>
      if (hasExited (m.target e) access).1 then .zombie (m.record e access) else .live

/-- What is known of an object. -/
inductive Status where
  | unseen
  | live
  | zombie (z : ZombieProcess)

def Status.next (m : Machine) : Status → HandleEntry → Status
  | .unseen, e =>
    match verdict m e with
    | .skipped => .unseen
    | .live => .live
    | .zombie z => .zombie { z with holders := [holder e] }
  | .live, _ => .live
  | .zombie z, e => .zombie { z with holders := z.holders ++ [holder e] }

/-- Other processes' Process handles to an object, in the table's order. -/
def handlesTo (m : Machine) (table : List HandleEntry) (x : UInt64) : List HandleEntry :=
  table.filter fun e => e.pid ≠ m.self ∧ m.IsProcess e ∧ e.object = x

def status (m : Machine) (table : List HandleEntry) (x : UInt64) : Status :=
  (handlesTo m table x).foldl (Status.next m) .unseen

/-- The addresses are shown, and are those of the objects. -/
def Known (m : Machine) (table : List HandleEntry) : Prop :=
  ∀ e ∈ table, e.object ≠ 0 ∧ m.behind e.pid e.handle = e.object

section Status

variable {m : Machine} {table : List HandleEntry} {e : HandleEntry} {x : UInt64}

theorem status_concat (e : HandleEntry) (x : UInt64) :
    status m (table ++ [e]) x =
      if e.pid ≠ m.self ∧ m.IsProcess e ∧ e.object = x then (status m table x).next m e
      else status m table x := by
  rw [status, handlesTo, List.filter_append, List.foldl_append, List.filter_singleton]
  by_cases h : e.pid ≠ m.self ∧ m.IsProcess e ∧ e.object = x
  · rw [if_pos h, decide_eq_true h]
    rfl
  · rw [if_neg h, decide_eq_false h]
    rfl

/-- An entry that counts changes the status of its object. -/
theorem status_concat_of (h : e.pid ≠ m.self ∧ m.IsProcess e) :
    status m (table ++ [e])
      = Function.update (status m table) e.object ((status m table e.object).next m e) := by
  funext x
  rw [status_concat]
  by_cases hx : x = e.object
  · subst hx
    rw [if_pos ⟨h.1, h.2, rfl⟩, Function.update_self]
  · rw [if_neg fun hcounts => hx hcounts.2.2.symm, Function.update_of_ne hx]

theorem status_concat_of_not (h : ¬(e.pid ≠ m.self ∧ m.IsProcess e)) :
    status m (table ++ [e]) = status m table := by
  funext x
  rw [status_concat, if_neg fun hcounts => h ⟨hcounts.1, hcounts.2.1⟩]

/-- A zombie's address is its object's. -/
theorem object_of_verdict {z : ZombieProcess} (h : verdict m e = .zombie z) : z.object = e.object := by
  unfold verdict at h
  split at h
  · cases h
  · split at h
    · cases h
    · split at h
      · cases h
        unfold Machine.record
        dsimp only
        split <;> rfl
      · cases h

end Status

/-! ## the pass keeps each object's status -/

/-- The objects of a search have a status each. -/
structure Keeps (status : UInt64 → Status) (s : Search) : Prop where
  live : ∀ x, x ∈ s.live ↔ status x = .live
  zombie : ∀ x z, status x = .zombie z ↔ ∃ i, s.byObject.lookup x = some i ∧ s.zombies[i]? = some z
  place : ∀ i z, s.zombies[i]? = some z → s.byObject.lookup z.object = some i
  there : ∀ x i, s.byObject.lookup x = some i → ∃ z, s.zombies[i]? = some z ∧ z.object = x

namespace Keeps

variable {status : UInt64 → Status} {s : Search} {x : UInt64}

theorem unseen (h : Keeps status s) (hlive : x ∉ s.live) (hzombie : s.byObject.lookup x = none) :
    status x = .unseen := by
  cases hx : status x with
  | unseen => rfl
  | live => exact absurd ((h.live x).mpr hx) hlive
  | zombie z =>
    obtain ⟨i, hi, -⟩ := (h.zombie x z).mp hx
    exact absurd (hzombie.symm.trans hi) nofun

theorem lt (h : Keeps status s) {i : ℕ} (hi : s.byObject.lookup x = some i) :
    i < s.zombies.length := by
  obtain ⟨z, hz, -⟩ := h.there x i hi
  exact (List.getElem?_eq_some_iff.mp hz).1

theorem none_of_unseen (h : Keeps status s) (hx : status x = .unseen) :
    s.byObject.lookup x = none := by
  cases hi : s.byObject.lookup x with
  | none => rfl
  | some i =>
    obtain ⟨z, hz, -⟩ := h.there x i hi
    exact absurd (hx.symm.trans ((h.zombie x z).mpr ⟨i, hi, hz⟩)) nofun

theorem insertLive (h : Keeps status s) (hx : status x = .unseen) :
    Keeps (Function.update status x .live) { s with live := insert x s.live } where
  live y := by
    rw [Finset.mem_insert]
    by_cases hy : y = x
    · subst hy
      simp
    · rw [Function.update_of_ne hy, or_iff_right hy]
      exact h.live y
  zombie y z := by
    by_cases hy : y = x
    · subst hy
      rw [Function.update_self, h.none_of_unseen hx]
      simp
    · rw [Function.update_of_ne hy]
      exact h.zombie y z
  place := h.place
  there := h.there

/-- A zombie is found. -/
theorem push (h : Keeps status s) (hx : status x = .unseen) {z : ZombieProcess}
    (hobject : z.object = x) :
    Keeps (Function.update status x (.zombie z))
      { s with byObject := s.byObject.insert x s.zombies.length, zombies := s.zombies ++ [z] } where
  live y := by
    by_cases hy : y = x
    · subst hy
      rw [Function.update_self, h.live, hx]
      simp
    · rw [Function.update_of_ne hy]
      exact h.live y
  zombie y w := by
    by_cases hy : y = x
    · subst hy
      simp [Finmap.lookup_insert]
    · rw [Function.update_of_ne hy, Finmap.lookup_insert_of_ne _ hy, h.zombie]
      refine exists_congr fun i => and_congr_right fun hi => ?_
      rw [List.getElem?_append_left (h.lt hi)]
  place i w hw := by
    obtain hlt | hle := lt_or_ge i s.zombies.length
    · rw [List.getElem?_append_left hlt] at hw
      have hplace := h.place i w hw
      have hne : w.object ≠ x := by
        intro heq
        rw [heq, h.none_of_unseen hx] at hplace
        exact absurd hplace nofun
      rw [Finmap.lookup_insert_of_ne _ hne]
      exact hplace
    · rw [List.getElem?_append_right hle, List.getElem?_singleton] at hw
      split at hw
      · cases hw
        rw [hobject, Finmap.lookup_insert, Option.some_inj]
        omega
      · cases hw
  there y i hi := by
    by_cases hy : y = x
    · subst hy
      rw [Finmap.lookup_insert, Option.some_inj] at hi
      subst hi
      exact ⟨z, by simp, hobject⟩
    · rw [Finmap.lookup_insert_of_ne _ hy] at hi
      rw [List.getElem?_append_left (h.lt hi)]
      exact h.there y i hi

/-- A zombie's holder is added. -/
theorem addHolder (h : Keeps status s) {z : ZombieProcess} {i : ℕ}
    (hi : s.byObject.lookup x = some i) (hz : status x = .zombie z) (e : HandleEntry) :
    Keeps (Function.update status x (.zombie { z with holders := z.holders ++ [holder e] }))
      (s.addHolder i e) := by
  have hz' : s.zombies[i]? = some z := by
    obtain ⟨j, hj, hzombie⟩ := (h.zombie x z).mp hz
    cases hi.symm.trans hj
    exact hzombie
  have hobject : z.object = x := by
    obtain ⟨w, hw, hwx⟩ := h.there x i hi
    cases hz'.symm.trans hw
    exact hwx
  have hsame : ∀ j ≠ i, (s.addHolder i e).zombies[j]? = s.zombies[j]? := by
    intro j hj
    simp [Search.addHolder, Ne.symm hj]
  have hnew : (s.addHolder i e).zombies[i]?
      = some { z with holders := z.holders ++ [holder e] } := by
    simp [Search.addHolder, hz']
  have hother : ∀ {y : UInt64} {j : ℕ}, y ≠ x → s.byObject.lookup y = some j → j ≠ i := by
    rintro y j hy hj rfl
    obtain ⟨w, hw, hwy⟩ := h.there y j hj
    cases hz'.symm.trans hw
    exact hy (hwy.symm.trans hobject)
  refine ⟨fun y => ?_, fun y w => ?_, fun j w hw => ?_, fun y j hj => ?_⟩
  · by_cases hy : y = x
    · subst hy
      have hlive : y ∉ s.live := fun hlive => absurd (((h.live y).mp hlive).symm.trans hz) nofun
      rw [Function.update_self]
      exact iff_of_false hlive nofun
    · rw [Function.update_of_ne hy]
      exact h.live y
  · change _ ↔ ∃ j, s.byObject.lookup y = some j ∧ _
    by_cases hy : y = x
    · subst hy
      rw [Function.update_self, hi]
      constructor
      · rintro ⟨⟩
        exact ⟨i, rfl, hnew⟩
      · rintro ⟨j, ⟨⟩, hw⟩
        cases hnew.symm.trans hw
        rfl
    · rw [Function.update_of_ne hy, h.zombie]
      exact exists_congr fun j => and_congr_right fun hj => by rw [hsame j (hother hy hj)]
  · change s.byObject.lookup w.object = some j
    by_cases hj : j = i
    · subst hj
      cases hnew.symm.trans hw
      exact hobject ▸ hi
    · exact h.place j w ((hsame j hj).symm.trans hw)
  · change s.byObject.lookup y = some j at hj
    by_cases hji : j = i
    · subst hji
      obtain ⟨w, hw, hwy⟩ := h.there y j hj
      cases hz'.symm.trans hw
      exact ⟨_, hnew, hwy⟩
    · rw [hsame j hji]
      exact h.there y j hj

end Keeps

/-- What is cached is so. -/
structure Caches (m : Machine) (s : Search) : Prop where
  types : ∀ e known, s.isProcessType.lookup e.typeIndex = some known → known = decide (m.IsProcess e)
  owners : ∀ pid known, s.owners.lookup pid = some known → known = m.opens pid

structure Inv (m : Machine) (table : List HandleEntry) (s : Search) : Prop where
  caches : Caches m s
  keeps : Keeps (status m table) s

section Pass

variable {m : Machine} {table : List HandleEntry} {s : Search} {e : HandleEntry}

theorem Inv.processType (h : Inv m table s) (e : HandleEntry) :
    (s.processType m e).1 = decide (m.IsProcess e) ∧ Inv m table (s.processType m e).2 := by
  unfold Search.processType
  cases hlookup : s.isProcessType.lookup e.typeIndex with
  | some known => exact ⟨h.caches.types e known hlookup, h⟩
  | none =>
    refine ⟨rfl, ⟨fun e' known hknown => ?_, h.caches.owners⟩,
      ⟨h.keeps.live, h.keeps.zombie, h.keeps.place, h.keeps.there⟩⟩
    by_cases htype : e'.typeIndex = e.typeIndex
    · rw [htype, Finmap.lookup_insert, Option.some_inj] at hknown
      rw [← hknown]
      exact decide_eq_decide.mpr (by rw [Machine.IsProcess, Machine.IsProcess, htype])
    · rw [Finmap.lookup_insert_of_ne _ htype] at hknown
      exact h.caches.types e' known hknown

theorem Inv.owner (h : Inv m table s) (pid : UInt64) :
    (s.owner m pid).1 = m.opens pid ∧ Inv m table (s.owner m pid).2 ∧
      (s.owner m pid).2.byObject = s.byObject := by
  unfold Search.owner
  cases hlookup : s.owners.lookup pid with
  | some known => exact ⟨h.caches.owners pid known hlookup, h, rfl⟩
  | none =>
    refine ⟨rfl, ⟨⟨h.caches.types, fun pid' known hknown => ?_⟩,
      ⟨h.keeps.live, h.keeps.zombie, h.keeps.place, h.keeps.there⟩⟩, rfl⟩
    by_cases hpid : pid' = pid
    · rw [hpid, Finmap.lookup_insert, Option.some_inj] at hknown
      rw [hpid, hknown]
    · rw [Finmap.lookup_insert_of_ne _ hpid] at hknown
      exact h.caches.owners pid' known hknown

/-- The status of an object after a handle to it that has not been told apart yet. -/
theorem Inv.check (h : Inv m table s) (hcounts : e.pid ≠ m.self ∧ m.IsProcess e)
    (hknown : e.object ≠ 0) (hunseen : status m table e.object = .unseen)
    (hopens : m.opens e.pid = true) : Inv m (table ++ [e]) (s.check m e) := by
  have hverdict : verdict m e = match m.duplicate e with
      | none => .skipped
      | some access =>
        if (hasExited (m.target e) access).1 then .zombie (m.record e access) else .live := by
    rw [verdict, hopens]
    rfl
  have hnext := @status_concat_of m table e hcounts
  rw [hunseen, Status.next, hverdict] at hnext
  unfold Search.check
  cases hduplicate : m.duplicate e with
  | none =>
    rw [hduplicate] at hnext
    dsimp only at hnext ⊢
    rw [← hunseen, Function.update_eq_self] at hnext
    exact ⟨h.caches, hnext ▸ h.keeps⟩
  | some access =>
    rw [hduplicate] at hnext
    dsimp only at hnext ⊢
    cases hexited : (hasExited (m.target e) access).1 with
    | false =>
      rw [hexited, if_neg (by decide)] at hnext
      rw [Bool.not_false, if_pos rfl, if_pos hknown]
      refine ⟨⟨h.caches.types, h.caches.owners⟩, ?_⟩
      rw [hnext]
      exact h.keeps.insertLive hunseen
    | true =>
      have hzombie : verdict m e = .zombie (m.record e access) := by
        rw [hverdict, hduplicate]
        dsimp only
        rw [if_pos hexited]
      rw [hexited, if_pos rfl] at hnext
      rw [Bool.not_true, if_neg (by decide), if_pos hknown, if_pos hknown]
      refine ⟨⟨h.caches.types, h.caches.owners⟩, ?_⟩
      rw [hnext]
      have hobject : (m.record e access).object = e.object := object_of_verdict hzombie
      exact h.keeps.push hunseen hobject

/-- **A turn of the loop keeps each object's status.** -/
theorem Inv.turn (h : Inv m table s) (hknown : e.object ≠ 0) :
    Inv m (table ++ [e]) (s.turn m e) := by
  unfold Search.turn
  split
  · next hself =>
    refine ⟨h.caches, ?_⟩
    rw [status_concat_of_not fun hcounts => hcounts.1 hself]
    exact h.keeps
  · next hself =>
    obtain ⟨hprocess, h⟩ := h.processType e
    generalize s.processType m e = found at hprocess h
    obtain ⟨isProcess, s⟩ := found
    dsimp only at hprocess h ⊢
    subst hprocess
    by_cases hisProcess : m.IsProcess e
    · have hcounts : e.pid ≠ m.self ∧ m.IsProcess e := ⟨hself, hisProcess⟩
      have hnext := @status_concat_of m table e hcounts
      by_cases hlive : e.object ∈ s.live
      · rw [if_pos (.inr ⟨hknown, hlive⟩)]
        have hstatus := (h.keeps.live e.object).mp hlive
        rw [hstatus, Status.next, ← hstatus, Function.update_eq_self] at hnext
        exact ⟨h.caches, hnext ▸ h.keeps⟩
      · rw [if_neg (by simp [hisProcess, hlive])]
        cases hlookup : s.byObject.lookup e.object with
        | some i =>
          obtain ⟨z, hz, -⟩ := h.keeps.there e.object i hlookup
          have hstatus := (h.keeps.zombie e.object z).mpr ⟨i, hlookup, hz⟩
          rw [hstatus, Status.next] at hnext
          refine ⟨⟨h.caches.types, h.caches.owners⟩, ?_⟩
          rw [hnext]
          exact h.keeps.addHolder hlookup hstatus e
        | none =>
          have hunseen := h.keeps.unseen hlive hlookup
          obtain ⟨hopens, h, -⟩ := h.owner e.pid
          generalize s.owner m e.pid = found at hopens h
          obtain ⟨opened, s⟩ := found
          dsimp only at hopens h ⊢
          subst hopens
          cases hopens : m.opens e.pid with
          | true =>
            rw [Bool.not_true, if_neg (by decide)]
            exact h.check hcounts hknown hunseen hopens
          | false =>
            have hverdict : verdict m e = .skipped := by
              rw [verdict, hopens]
              rfl
            rw [hunseen, Status.next, hverdict] at hnext
            dsimp only at hnext
            rw [← hunseen, Function.update_eq_self] at hnext
            rw [Bool.not_false, if_pos rfl]
            exact ⟨h.caches, hnext ▸ h.keeps⟩
    · rw [if_pos (.inl (by simp [hisProcess]))]
      refine ⟨h.caches, ?_⟩
      rw [status_concat_of_not fun hcounts => hisProcess hcounts.2]
      exact h.keeps

/-- **The pass keeps for each object its status**, whatever the order of the table. -/
theorem inv_pass (hknown : ∀ e ∈ table, e.object ≠ 0) : Inv m table (pass m table) := by
  induction table using List.reverseRecOn with
  | nil =>
    refine ⟨⟨fun e known h => ?_, fun pid known h => ?_⟩,
      ⟨fun x => ?_, fun x z => ?_, fun i z h => ?_, fun x i h => ?_⟩⟩
    all_goals simp_all [pass, status, handlesTo]
  | append_singleton table e ih =>
    have htable := ih fun e' he' => hknown e' (List.mem_append_left _ he')
    rw [pass, List.foldl_append]
    exact htable.turn (hknown e (List.mem_append_right _ List.mem_cons_self))

end Pass

end WinSys.Process.Zombies
