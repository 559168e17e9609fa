import Mathlib.Data.List.Count
import Mathlib.Data.Multiset.Defs
import WinSys.Process.Zombies

/-!
# What the table's order changes

The first handle to an exited process decides whether it is listed and what is known of it, and
the handles before the one that decides are not among its holders.

* `evidence`: what can be told of an exited process through a handle
* `Complete`: the zombies that are to be found, with all their holders
* `complete_iff_firstTells`, `orderOnly_iff_uniform`
* `find_complete_iff`: both, for every order
-/

namespace WinSys.Process.Zombies

open Infra

/-! ## evidence -/

def Exited (m : Machine) (x : UInt64) : Prop := (m.process x).exited ≠ 0

instance (m : Machine) : DecidablePred (Exited m) := fun _ => inferInstanceAs (Decidable (_ ≠ _))

/-- Whether a handle tells that its process exited, and then whether it tells more. -/
def evidence (m : Machine) (e : HandleEntry) : Option Bool :=
  if m.opens e.pid then
    (m.duplicate e).bind fun access =>
      if CanQuery access then some true else if CanWait access then some false else none
  else none

/-- What is known of an exited process, by whether it can be queried. -/
def remains (m : Machine) (x : UInt64) (queried : Bool) : ZombieProcess :=
  let p := m.process x
  if queried then
    { pid := p.pid, object := x, createTime := p.created, exitTime := p.exited
      exitCode := p.exitCode, imagePath := p.imagePath }
  else { pid := 0, object := x }

theorem remains_object (m : Machine) (x : UInt64) (queried : Bool) :
    (remains m x queried).object = x := by
  cases queried <;> rfl

theorem remains_exitTime (m : Machine) (x : UInt64) (queried : Bool) :
    (remains m x queried).exitTime = if queried then (m.process x).exited else 0 := by
  cases queried <;> rfl

/-- The exit time shows whether it was queried. -/
theorem remains_inj {m : Machine} {x : UInt64} {queried queried' : Bool} (hexited : Exited m x)
    (h : (remains m x queried).exitTime = (remains m x queried').exitTime) : queried = queried' := by
  rw [remains_exitTime, remains_exitTime] at h
  cases queried <;> cases queried'
  · rfl
  · exact absurd h.symm hexited
  · exact absurd h hexited
  · rfl

section Evidence

variable {m : Machine} {e : HandleEntry} {queried : Bool}

theorem verdict_of_evidence (hbehind : m.behind e.pid e.handle = e.object)
    (hexited : Exited m e.object) (h : evidence m e = some queried) :
    verdict m e = .zombie (remains m e.object queried) := by
  unfold evidence at h
  unfold Exited at hexited
  split at h
  · next hopens =>
    obtain ⟨access, hduplicate, h⟩ := Option.bind_eq_some_iff.mp h
    unfold verdict
    rw [hopens, hduplicate, Bool.not_true, if_neg (by decide)]
    split at h
    · next hquery =>
      cases h
      simp [hasExited, Machine.record, Machine.target, remains, hbehind, hquery, hexited]
    · next hquery =>
      split at h
      · next hwait =>
        cases h
        simp [hasExited, Machine.record, Machine.target, remains, hbehind, hquery, hwait, hexited]
      · cases h
  · cases h

/-- Only handles that tell make a zombie of an object, and only of one that exited. -/
theorem evidence_of_verdict {z : ZombieProcess} (hbehind : m.behind e.pid e.handle = e.object)
    (h : verdict m e = .zombie z) : Exited m e.object ∧ ∃ queried, evidence m e = some queried := by
  unfold verdict at h
  split at h
  · cases h
  · next hopens =>
    rw [Bool.not_eq_true', Bool.not_eq_false] at hopens
    unfold evidence
    rw [if_pos hopens]
    split at h
    · cases h
    · next access hduplicate =>
      rw [hduplicate, Option.bind_some]
      split at h
      · next hexited =>
        unfold hasExited at hexited
        rw [Machine.target, hbehind] at hexited
        split at hexited
        · next hquery =>
          rw [if_pos hquery]
          exact ⟨of_decide_eq_true hexited, true, rfl⟩
        · next hquery =>
          obtain ⟨hwait, hexited⟩ := of_decide_eq_true hexited
          rw [if_neg hquery, if_pos hwait]
          exact ⟨hexited, false, rfl⟩
      · cases h

end Evidence

/-! ## the handles to one object -/

section Next

variable {m : Machine}

theorem foldl_next_live (es : List HandleEntry) : es.foldl (Status.next m) .live = .live := by
  induction es with
  | nil => rfl
  | cons e es ih => exact ih

theorem foldl_next_zombie (z : ZombieProcess) (es : List HandleEntry) :
    es.foldl (Status.next m) (.zombie z)
      = .zombie { z with holders := z.holders ++ es.map holder } := by
  induction es generalizing z with
  | nil => simp
  | cons e es ih =>
    rw [List.foldl_cons, Status.next, ih]
    simp

/-- At most the handles are holders. -/
theorem length_holders_le {z : ZombieProcess} (es : List HandleEntry)
    (h : es.foldl (Status.next m) .unseen = .zombie z) : z.holders.length ≤ es.length := by
  induction es with
  | nil => cases h
  | cons e es ih =>
    rw [List.foldl_cons, Status.next] at h
    cases hverdict : verdict m e with
    | skipped =>
      rw [hverdict] at h
      exact (ih h).trans (Nat.le_succ _)
    | live =>
      rw [hverdict] at h
      cases (foldl_next_live es).symm.trans h
    | zombie w =>
      rw [hverdict] at h
      cases (foldl_next_zombie _ es).symm.trans h
      simp

end Next

section Handles

variable {m : Machine} {table : List HandleEntry} {x : UInt64} {z : ZombieProcess}

theorem Known.perm {table' : List HandleEntry} (h : Known m table) (hperm : table'.Perm table) :
    Known m table' :=
  fun e he => h e (hperm.mem_iff.mp he)

theorem Known.handlesTo (h : Known m table) {e : HandleEntry} (he : e ∈ handlesTo m table x) :
    e.object = x ∧ m.behind e.pid e.handle = e.object := by
  obtain ⟨hmem, hcounts⟩ := List.mem_filter.mp he
  exact ⟨(of_decide_eq_true hcounts).2.2, (h e hmem).2⟩

/-- A zombie's status is from a handle that told so. -/
theorem tells_of_status (hknown : Known m table) (h : status m table x = .zombie z) :
    z.object = x ∧ Exited m x ∧ ∃ e ∈ handlesTo m table x, ∃ queried, evidence m e = some queried := by
  refine List.foldlRecOn (motive := fun s : Status => ∀ z, s = .zombie z → z.object = x ∧
    Exited m x ∧ ∃ e ∈ handlesTo m table x, ∃ queried, evidence m e = some queried)
    (handlesTo m table x) (Status.next m) ?_ ?_ z h
  · intro z h
    cases h
  intro s ih e he z h
  obtain ⟨hobject, hbehind⟩ := hknown.handlesTo he
  cases s with
  | unseen =>
    unfold Status.next at h
    dsimp only at h
    split at h
    · cases h
    · cases h
    · next w hverdict =>
      cases h
      obtain ⟨hexited, htells⟩ := evidence_of_verdict hbehind hverdict
      exact ⟨(object_of_verdict hverdict).trans hobject, hobject ▸ hexited, e, he, htells⟩
  | live => cases h
  | zombie w =>
    cases h
    exact ih w rfl

/-- The first handle tells: it is a zombie with all its holders. -/
theorem status_of_first (hknown : Known m table) {e : HandleEntry} {es : List HandleEntry}
    (hhandles : handlesTo m table x = e :: es) (hexited : Exited m x) {queried : Bool}
    (hevidence : evidence m e = some queried) :
    status m table x
      = .zombie { remains m x queried with holders := (handlesTo m table x).map holder } := by
  obtain ⟨hobject, hbehind⟩ := hknown.handlesTo (hhandles ▸ List.mem_cons_self)
  have hverdict := verdict_of_evidence hbehind (hobject ▸ hexited) hevidence
  rw [status, hhandles, List.foldl_cons, Status.next, hverdict]
  dsimp only
  rw [foldl_next_zombie, hobject]
  rfl

/-- The first handle doesn't tell: it is not among the holders. -/
theorem length_holders_lt (hknown : Known m table) {e : HandleEntry} {es : List HandleEntry}
    (hhandles : handlesTo m table x = e :: es) (hevidence : evidence m e = none)
    (h : status m table x = .zombie z) : z.holders.length < (handlesTo m table x).length := by
  obtain ⟨hobject, hbehind⟩ := hknown.handlesTo (hhandles ▸ List.mem_cons_self)
  rw [status, hhandles, List.foldl_cons, Status.next] at h
  rw [hhandles, List.length_cons, Nat.lt_succ_iff]
  cases hverdict : verdict m e with
  | skipped =>
    rw [hverdict] at h
    exact length_holders_le es h
  | live =>
    rw [hverdict] at h
    cases (foldl_next_live es).symm.trans h
  | zombie w =>
    obtain ⟨-, queried, htells⟩ := evidence_of_verdict hbehind hverdict
    cases hevidence.symm.trans htells

/-! ## the zombies listed -/

theorem mem_zombies (hknown : Known m table) :
    z ∈ (pass m table).zombies ↔ status m table z.object = .zombie z := by
  have hkeeps := (inv_pass fun e he => (hknown e he).1 : Inv m table (pass m table)).keeps
  constructor
  · intro hz
    obtain ⟨i, hi⟩ := List.mem_iff_getElem?.mp hz
    exact (hkeeps.zombie z.object z).mpr ⟨i, hkeeps.place i z hi, hi⟩
  · intro hz
    obtain ⟨i, -, hi⟩ := (hkeeps.zombie z.object z).mp hz
    exact List.mem_of_getElem? hi

theorem mem_of_status (hknown : Known m table) (h : status m table x = .zombie z) :
    z ∈ (pass m table).zombies := by
  have hobject := (tells_of_status hknown h).1
  subst hobject
  exact (mem_zombies hknown).mpr h

theorem nodup_objects (hknown : Known m table) :
    ((pass m table).zombies.map ZombieProcess.object).Nodup := by
  have hkeeps := (inv_pass fun e he => (hknown e he).1 : Inv m table (pass m table)).keeps
  rw [List.Nodup, List.pairwise_map, List.pairwise_iff_getElem]
  intro i j hi hj hlt heq
  have hplace := hkeeps.place i _ (List.getElem?_eq_getElem hi)
  rw [heq, hkeeps.place j _ (List.getElem?_eq_getElem hj), Option.some_inj] at hplace
  omega

end Handles

/-! ## all are found -/

/-- A handle of another process to an object can be duplicated with query access. -/
def HasQueryable (m : Machine) (table : List HandleEntry) (x : UInt64) : Prop :=
  ∃ e ∈ handlesTo m table x, m.opens e.pid ∧ m.duplicates e.pid e.handle = .withQuery

/-- The zombies with a queryable handle are listed once, with all that hold them, and no process
that runs. -/
structure Complete (m : Machine) (table : List HandleEntry) (zombies : List ZombieProcess) :
    Prop where
  once : ∀ x, Exited m x → HasQueryable m table x → (zombies.map ZombieProcess.object).count x = 1
  holders : ∀ z ∈ zombies, HasQueryable m table z.object →
    z.holders.Perm ((handlesTo m table z.object).map holder)
  exited : ∀ z ∈ zombies, Exited m z.object

def FindsAll (m : Machine) (table : List HandleEntry) : Prop :=
  ∃ zombies, find m (some table) = some zombies ∧ Complete m table zombies

/-- The first of the handles to such a zombie tells that it exited. -/
def FirstTells (m : Machine) (table : List HandleEntry) : Prop :=
  ∀ x, Exited m x → HasQueryable m table x →
    ∃ e ∈ (handlesTo m table x).head?, evidence m e ≠ none

section Complete

variable {m : Machine} {table : List HandleEntry}

theorem complete_iff_firstTells (hknown : Known m table) :
    Complete m table (pass m table).zombies ↔ FirstTells m table := by
  constructor
  · intro h x hexited hqueryable
    obtain ⟨e₀, he₀, -⟩ := id hqueryable
    obtain ⟨e, es, hhandles⟩ := List.exists_cons_of_ne_nil (List.ne_nil_of_mem he₀)
    refine ⟨e, by rw [hhandles]; rfl, fun hevidence => ?_⟩
    have hcount := h.once x hexited hqueryable
    obtain ⟨z, hz, rfl⟩ := List.mem_map.mp (List.count_pos_iff.mp (hcount ▸ Nat.one_pos))
    have hlength := (h.holders z hz hqueryable).length_eq
    rw [List.length_map] at hlength
    have hlt := length_holders_lt hknown hhandles hevidence ((mem_zombies hknown).mp hz)
    omega
  · intro h
    have hstatus : ∀ x, Exited m x → HasQueryable m table x → ∃ queried, status m table x
        = .zombie { remains m x queried with holders := (handlesTo m table x).map holder } := by
      intro x hexited hqueryable
      obtain ⟨e, he, hevidence⟩ := h x hexited hqueryable
      obtain ⟨queried, hqueried⟩ := Option.ne_none_iff_exists'.mp hevidence
      obtain ⟨es, hhandles⟩ := List.head?_eq_some_iff.mp he
      exact ⟨queried, status_of_first hknown hhandles hexited hqueried⟩
    refine ⟨fun x hexited hqueryable => ?_, fun z hz hqueryable => ?_, fun z hz => ?_⟩
    · obtain ⟨queried, hx⟩ := hstatus x hexited hqueryable
      exact List.count_eq_one_of_mem (nodup_objects hknown)
        (List.mem_map.mpr ⟨_, mem_of_status hknown hx, remains_object m x queried⟩)
    · have hz := (mem_zombies hknown).mp hz
      obtain ⟨-, hexited, -⟩ := tells_of_status hknown hz
      obtain ⟨queried, hx⟩ := hstatus _ hexited hqueryable
      have heq := Status.zombie.inj (hz.symm.trans hx)
      rw [congrArg ZombieProcess.holders heq]
    · exact (tells_of_status hknown ((mem_zombies hknown).mp hz)).2.1

theorem findsAll_iff_firstTells (hknown : Known m table) :
    FindsAll m table ↔ FirstTells m table := by
  rw [← complete_iff_firstTells hknown]
  constructor
  · rintro ⟨zombies, hfind, hcomplete⟩
    cases hfind
    exact hcomplete
  · exact fun h => ⟨_, rfl, h⟩

end Complete

/-! ## only the order changes -/

/-- A zombie, whatever the order of its holders. -/
def unordered (z : ZombieProcess) : ZombieProcess × Multiset ZombieHolder :=
  ({ z with holders := [] }, z.holders)

/-- Tables with the same entries give the same zombies up to order. -/
def OrderOnly (m : Machine) (table : List HandleEntry) : Prop :=
  ∀ table' : List HandleEntry, table'.Perm table → ∀ zombies zombies',
    find m (some table) = some zombies → find m (some table') = some zombies' →
      (zombies'.map unordered).Perm (zombies.map unordered)

/-- The handles to an exited process all tell the same of it. -/
def Uniform (m : Machine) (table : List HandleEntry) : Prop :=
  ∀ x, Exited m x → ∀ e ∈ handlesTo m table x, ∀ e' ∈ handlesTo m table x,
    evidence m e = evidence m e'

section Order

variable {m : Machine} {table table' : List HandleEntry}

theorem handlesTo_perm (hperm : table'.Perm table) (x : UInt64) :
    (handlesTo m table' x).Perm (handlesTo m table x) :=
  hperm.filter _

theorem Uniform.perm (h : Uniform m table) (hperm : table'.Perm table) : Uniform m table' :=
  fun x hexited e he e' he' =>
    h x hexited e ((handlesTo_perm hperm x).mem_iff.mp he) e'
      ((handlesTo_perm hperm x).mem_iff.mp he')

/-- Where all handles tell the same, a zombie is the same in the other order. -/
theorem Uniform.mem (h : Uniform m table) (hknown : Known m table) (hperm : table'.Perm table)
    {z : ZombieProcess} (hz : z ∈ (pass m table).zombies) :
    unordered z ∈ (pass m table').zombies.map unordered := by
  have hz := (mem_zombies hknown).mp hz
  generalize hx : z.object = x at hz
  obtain ⟨-, hexited, e₀, he₀, queried, hqueried⟩ := tells_of_status hknown hz
  have hfirst : ∀ table'' : List HandleEntry, table''.Perm table → status m table'' x
      = .zombie { remains m x queried with holders := (handlesTo m table'' x).map holder } := by
    intro table'' hperm
    have hmem := (handlesTo_perm hperm x).mem_iff.mpr he₀
    obtain ⟨e, es, hhandles⟩ := List.exists_cons_of_ne_nil (List.ne_nil_of_mem hmem)
    have hsame := h.perm hperm x hexited e (hhandles ▸ List.mem_cons_self) e₀ hmem
    exact status_of_first (hknown.perm hperm) hhandles hexited (hsame.trans hqueried)
  have heq := Status.zombie.inj (hz.symm.trans (hfirst table (.refl _)))
  have hother := hfirst table' hperm
  refine List.mem_map.mpr ⟨_, mem_of_status (hknown.perm hperm) hother, ?_⟩
  rw [heq]
  exact Prod.ext rfl (Multiset.coe_eq_coe.mpr ((handlesTo_perm hperm x).map holder))

theorem nodup_unordered (hknown : Known m table) :
    ((pass m table).zombies.map unordered).Nodup := by
  refine List.Nodup.of_map (fun w : ZombieProcess × Multiset ZombieHolder => w.1.object) ?_
  rw [List.map_map]
  exact nodup_objects hknown

theorem orderOnly_of_uniform (hknown : Known m table) (h : Uniform m table) :
    OrderOnly m table := by
  intro table' hperm zombies zombies' hfind hfind'
  cases hfind
  cases hfind'
  rw [List.perm_ext_iff_of_nodup (nodup_unordered (hknown.perm hperm)) (nodup_unordered hknown)]
  intro w
  constructor
  · intro hw
    obtain ⟨z, hz, rfl⟩ := List.mem_map.mp hw
    exact (h.perm hperm).mem (hknown.perm hperm) hperm.symm hz
  · intro hw
    obtain ⟨z, hz, rfl⟩ := List.mem_map.mp hw
    exact h.mem hknown hperm hz

/-- What the handle tells that comes first, all others tell. -/
theorem OrderOnly.tells (h : OrderOnly m table) (hknown : Known m table) {x : UInt64}
    (hexited : Exited m x) {e e' : HandleEntry} (he : e ∈ handlesTo m table x)
    (he' : e' ∈ handlesTo m table x) {queried : Bool} (hqueried : evidence m e = some queried) :
    evidence m e' = some queried := by
  -- once with each of the two at the front
  have hfront : ∀ e ∈ handlesTo m table x, ∃ table' es, table'.Perm table ∧
      handlesTo m table' x = e :: es := by
    intro e he
    obtain ⟨hmem, hcounts⟩ := List.mem_filter.mp he
    refine ⟨e :: table.erase e, handlesTo m (table.erase e) x,
      (List.perm_cons_erase hmem).symm, ?_⟩
    unfold handlesTo
    exact List.filter_cons_of_pos hcounts
  obtain ⟨table₁, es₁, hperm₁, hhandles₁⟩ := hfront e he
  obtain ⟨table₂, es₂, hperm₂, hhandles₂⟩ := hfront e' he'
  have hknown₁ := hknown.perm hperm₁
  have hknown₂ := hknown.perm hperm₂
  have hstatus₁ := status_of_first hknown₁ hhandles₁ hexited hqueried
  have hmem₁ := List.mem_map_of_mem (f := unordered) (mem_of_status hknown₁ hstatus₁)
  obtain ⟨z, hz, hunordered⟩ := List.mem_map.mp
    (((h table₁ hperm₁ _ _ rfl rfl).trans (h table₂ hperm₂ _ _ rfl rfl).symm).mem_iff.mp hmem₁)
  have hprocess := congrArg Prod.fst hunordered
  have hholders := Multiset.coe_eq_coe.mp (congrArg Prod.snd hunordered)
  have hzobject : z.object = x :=
    (congrArg ZombieProcess.object hprocess).trans (remains_object m x queried)
  have hz := (mem_zombies hknown₂).mp hz
  rw [hzobject] at hz
  cases hevidence : evidence m e' with
  | none =>
    have hlt := length_holders_lt hknown₂ hhandles₂ hevidence hz
    have hlength := hholders.length_eq
    rw [List.length_map, ((handlesTo_perm hperm₁ x).trans (handlesTo_perm hperm₂ x).symm).length_eq]
      at hlength
    omega
  | some queried' =>
    have hstatus₂ := status_of_first hknown₂ hhandles₂ hexited hevidence
    cases hz.symm.trans hstatus₂
    have htime := congrArg ZombieProcess.exitTime hprocess
    change (remains m x queried').exitTime = (remains m x queried).exitTime at htime
    exact congrArg some (remains_inj hexited htime)

theorem orderOnly_iff_uniform (hknown : Known m table) : OrderOnly m table ↔ Uniform m table := by
  refine ⟨fun h x hexited e he e' he' => ?_, orderOnly_of_uniform hknown⟩
  cases hevidence : evidence m e with
  | some queried => exact (h.tells hknown hexited he he' hevidence).symm
  | none =>
    cases hevidence' : evidence m e' with
    | none => rfl
    | some queried =>
      cases hevidence.symm.trans (h.tells hknown hexited he' he hevidence')

theorem evidence_of_withQuery {e : HandleEntry} (hopens : m.opens e.pid)
    (hduplicates : m.duplicates e.pid e.handle = .withQuery) : evidence m e = some true := by
  rw [evidence, if_pos hopens, Machine.duplicate, hduplicates]
  rfl

theorem Uniform.firstTells (h : Uniform m table) : FirstTells m table := by
  rintro x hexited ⟨e₀, he₀, hopens, hduplicates⟩
  obtain ⟨e, es, hhandles⟩ := List.exists_cons_of_ne_nil (List.ne_nil_of_mem he₀)
  refine ⟨e, by rw [hhandles]; rfl, ?_⟩
  rw [h x hexited e (hhandles ▸ List.mem_cons_self) e₀ he₀, evidence_of_withQuery hopens hduplicates]
  nofun

/-- **Whatever the table's order all zombies are found and only the order changes, if and only if
the handles to each tell the same of it.** In one order all are found if and only if the first
handle to each tells. -/
theorem find_complete_iff (hknown : Known m table) :
    (((∀ table' : List HandleEntry, table'.Perm table → FindsAll m table') ∧ OrderOnly m table) ↔
      Uniform m table) ∧ (FindsAll m table ↔ FirstTells m table) := by
  refine ⟨⟨fun h => (orderOnly_iff_uniform hknown).mp h.2, fun h => ⟨fun table' hperm => ?_, ?_⟩⟩,
    findsAll_iff_firstTells hknown⟩
  · exact (findsAll_iff_firstTells (hknown.perm hperm)).mpr (h.perm hperm).firstTells
  · exact (orderOnly_iff_uniform hknown).mpr h

end Order

/-! ## tables -/

/-- A process 0x10 that exited, a process 0x20 that runs, and handles to them of two processes. -/
def twoHolders (duplicates : UInt64 → UInt64 → Duplicated) : Machine where
  self := 4000
  typeName index := if index = 7 then wide "Process" else wide "File"
  opens _ := true
  duplicates := duplicates
  behind _ handle := if handle = 12 then 0x20 else 0x10
  process x :=
    if x = 0x10 then { pid := 500, created := 1000, exited := 2000, exitCode := 3 }
    else { pid := 600, created := 1000, exited := 0 }

def twoHoldersTable : List HandleEntry :=
  [{ object := 0x10, pid := 100, handle := 8, access := 0x40, typeIndex := 7 },
   { object := 0x20, pid := 100, handle := 12, access := 0x1FFFFF, typeIndex := 7 },
   { object := 0x10, pid := 200, handle := 8, access := 0x1FFFFF, typeIndex := 7 }]

theorem find_complete_twoHolders :
    let m := twoHolders fun _ _ => .withQuery
    Known m twoHoldersTable ∧
      ((∀ table' : List HandleEntry, table'.Perm twoHoldersTable → FindsAll m table') ∧
          OrderOnly m twoHoldersTable ↔ Uniform m twoHoldersTable) ∧
      (FindsAll m twoHoldersTable ↔ FirstTells m twoHoldersTable) :=
  have hknown : Known (twoHolders fun _ _ => .withQuery) twoHoldersTable := by
    unfold Known
    decide +kernel
  ⟨hknown, find_complete_iff hknown⟩

/-- The first handle, duplicated with its own access, can't tell: the object passes for running. -/
theorem find_misses_zombie :
    let m := twoHolders fun pid _ => if pid = 100 then .withSameAccess else .withQuery
    Known m twoHoldersTable ∧ Exited m 0x10 ∧ HasQueryable m twoHoldersTable 0x10 ∧
      find m (some twoHoldersTable) = some [] ∧ ¬FindsAll m twoHoldersTable := by
  intro m
  have hexited : Exited m 0x10 := by decide +kernel
  have hqueryable : HasQueryable m twoHoldersTable 0x10 := by
    unfold HasQueryable
    decide +kernel
  have hfind : find m (some twoHoldersTable) = some [] := by decide +kernel
  refine ⟨by unfold Known; decide +kernel, hexited, hqueryable, hfind, ?_⟩
  rintro ⟨zombies, hzombies, hcomplete⟩
  cases hfind.symm.trans hzombies
  exact absurd (hcomplete.once 0x10 hexited hqueryable) (by decide)

end WinSys.Process.Zombies
