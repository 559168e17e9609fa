import WinSys.Infra.Reads

/-!
# Chains of records

Records in a buffer, each of which says where the next one is. A walk goes along them from an offset
and stops at a record that is not all there or that has no next one.

* `Reads.walk`, `Reads.places`: the walk, and the offsets it comes to
* `safe_walk_iff`: a walk's accesses are those of its turns
* `Chain`, `Leads.value_walk`: what a walk along known records gives
* `walk_enough`: turns enough for every walk that only goes on to later places
-/

namespace Infra.Reads

variable {α : Type}

/-- What a turn at a record does: it stops, adds the last record, or adds one and goes on. -/
inductive Hop (α : Type) where
  | stop
  | last (a : α)
  | on (a : α) (next : ℕ)

/-- At most so many turns, from an offset on. -/
def walk (turn : ℕ → Reads (Hop α)) : ℕ → ℕ → Reads (List α)
  | 0, _ => pure []
  | turns + 1, offset => do
    match ← turn offset with
    | .stop => pure []
    | .last a => pure [a]
    | .on a next => return a :: (← walk turn turns next)

/-- The offsets of a walk's turns. -/
def places (turn : ℕ → Reads (Hop α)) : ℕ → ℕ → List ℕ
  | 0, _ => []
  | turns + 1, offset => offset ::
    match (turn offset).value with
    | .on _ next => places turn turns next
    | _ => []

variable {turn : ℕ → Reads (Hop α)}

/-- The accesses of a walk are inside exactly if those of its turns are. -/
theorem safe_walk_iff {turns offset : ℕ} :
    (walk turn turns offset).Safe ↔ ∀ place ∈ places turn turns offset, (turn place).Safe := by
  induction turns generalizing offset with
  | zero => exact iff_of_true (safe_pure _) nofun
  | succ turns ih =>
    rw [walk, places, safe_bind, List.forall_mem_cons]
    refine and_congr_right fun _ => ?_
    cases (turn offset).value with
    | stop => exact iff_of_true (safe_pure _) nofun
    | last a => exact iff_of_true (safe_pure _) nofun
    | on a next => exact (safe_bind _ _).trans ((and_iff_left (safe_pure _)).trans ih)

theorem Safe.walk (h : ∀ offset, (turn offset).Safe) (turns offset : ℕ) :
    (walk turn turns offset).Safe :=
  safe_walk_iff.mpr fun place _ => h place

theorem length_walk (turns offset : ℕ) : (walk turn turns offset).value.length ≤ turns := by
  induction turns generalizing offset with
  | zero => exact Nat.zero_le _
  | succ turns ih =>
    rw [walk, value_bind]
    cases (turn offset).value with
    | stop => exact Nat.zero_le _
    | last a => exact Nat.succ_le_succ (Nat.zero_le _)
    | on a next => exact Nat.succ_le_succ (ih next)

/-! ## known records -/

/-- Records from an offset on: what is at an offset says which record that is and where the next
one is, if there is one. -/
inductive Chain (Record : ℕ → α → Option ℕ → Prop) (End : ℕ → Prop) : ℕ → List α → Prop
  | stop {offset : ℕ} (h : End offset) : Chain Record End offset []
  | last {offset : ℕ} {a : α} (h : Record offset a none) : Chain Record End offset [a]
  | on {offset next : ℕ} {a : α} {as : List α} (h : Record offset a (some next))
      (rest : Chain Record End next as) : Chain Record End offset (a :: as)

theorem Chain.mono {Record Record' : ℕ → α → Option ℕ → Prop} {End End' : ℕ → Prop}
    (hrecord : ∀ offset a next, Record offset a next → Record' offset a next)
    (hend : ∀ offset, End offset → End' offset) {offset : ℕ} {as : List α}
    (h : Chain Record End offset as) : Chain Record' End' offset as := by
  induction h with
  | stop h => exact .stop (hend _ h)
  | last h => exact .last (hrecord _ _ _ h)
  | on h _ ih => exact .on (hrecord _ _ _ h) ih

/-- A chain that only goes on to later places, from before a limit. -/
theorem Chain.length_le {Record : ℕ → α → Option ℕ → Prop} {End : ℕ → Prop} {limit : ℕ}
    (honward : ∀ offset a next, Record offset a (some next) → offset < limit ∧ offset < next)
    {offset : ℕ} {as : List α} (h : Chain Record End offset as) :
    as.length ≤ limit - offset + 1 := by
  induction h with
  | stop _ => exact Nat.zero_le _
  | last _ => exact Nat.le_add_left _ _
  | on h _ ih =>
    obtain ⟨hlimit, hnext⟩ := honward _ _ _ h
    rw [List.length_cons]
    omega

/-- The turn that adds a record. -/
def Hop.add (a : α) : Option ℕ → Hop α
  | none => .last a
  | some next => .on a next

/-- The turns from an offset on add these records. -/
abbrev Leads (turn : ℕ → Reads (Hop α)) : ℕ → List α → Prop :=
  Chain (fun offset a next => (turn offset).value = .add a next)
    (fun offset => (turn offset).value = .stop)

section Turns

variable {β : Type} {turn : ℕ → Reads (Hop β)} {Record : ℕ → α → Option ℕ → Prop} {End : ℕ → Prop}
  {offset : ℕ} {as : List α}

/-- Turns that read the records of a chain. -/
theorem Chain.leads {f : α → β} (h : Chain Record End offset as)
    (hrecord : ∀ offset a next, Record offset a next → (turn offset).value = .add (f a) next)
    (hend : ∀ offset, End offset → (turn offset).value = .stop) :
    Leads turn offset (as.map f) := by
  induction h with
  | stop h => exact .stop (hend _ h)
  | last h => exact .last (hrecord _ _ _ h)
  | on h _ ih => exact .on (hrecord _ _ _ h) ih

/-- The accesses of a walk along a chain, if those at each record are inside. -/
theorem Chain.safe_walk (h : Chain Record End offset as)
    (hrecord : ∀ offset a next, Record offset a next →
      (turn offset).Safe ∧ ∃ b, (turn offset).value = .add b next)
    (hend : ∀ offset, End offset → (turn offset).Safe ∧ (turn offset).value = .stop) (turns : ℕ) :
    (walk turn turns offset).Safe := by
  induction h generalizing turns with
  | stop h =>
    cases turns with
    | zero => exact safe_pure _
    | succ turns =>
      obtain ⟨hsafe, hvalue⟩ := hend _ h
      refine (safe_bind _ _).mpr ⟨hsafe, ?_⟩
      rw [hvalue]
      exact safe_pure _
  | last h =>
    cases turns with
    | zero => exact safe_pure _
    | succ turns =>
      obtain ⟨hsafe, b, hvalue⟩ := hrecord _ _ _ h
      refine (safe_bind _ _).mpr ⟨hsafe, ?_⟩
      rw [hvalue]
      exact safe_pure _
  | on h _ ih =>
    cases turns with
    | zero => exact safe_pure _
    | succ turns =>
      obtain ⟨hsafe, b, hvalue⟩ := hrecord _ _ _ h
      refine (safe_bind _ _).mpr ⟨hsafe, ?_⟩
      rw [hvalue]
      exact (safe_bind _ _).mpr ⟨ih turns, safe_pure _⟩

end Turns

theorem Leads.unique {offset : ℕ} {as bs : List α} (ha : Leads turn offset as)
    (hb : Leads turn offset bs) : as = bs := by
  induction ha generalizing bs with
  | stop h =>
    cases hb with
    | stop _ => rfl
    | last h' => cases h.symm.trans h'
    | on h' _ => cases h.symm.trans h'
  | last h =>
    cases hb with
    | stop h' => cases h.symm.trans h'
    | last h' =>
      cases h.symm.trans h'
      rfl
    | on h' _ => cases h.symm.trans h'
  | on h _ ih =>
    cases hb with
    | stop h' => cases h.symm.trans h'
    | last h' => cases h.symm.trans h'
    | on h' rest =>
      cases h.symm.trans h'
      rw [ih rest]

/-- A walk gives as many of the records as it has turns. -/
theorem Leads.value_walk_eq_take {offset : ℕ} {as : List α} (h : Leads turn offset as) (turns : ℕ) :
    (walk turn turns offset).value = as.take turns := by
  induction h generalizing turns with
  | stop h =>
    cases turns with
    | zero => rfl
    | succ turns =>
      rw [walk, value_bind, h]
      rfl
  | last h =>
    cases turns with
    | zero => rfl
    | succ turns =>
      rw [walk, value_bind, h, List.take_succ_cons, List.take_nil]
      rfl
  | on h _ ih =>
    cases turns with
    | zero => rfl
    | succ turns =>
      rw [walk, value_bind, h, Hop.add, value_bind, value_pure, ih turns, List.take_succ_cons]

theorem Leads.value_walk {turns offset : ℕ} {as : List α} (h : Leads turn offset as)
    (hturns : as.length ≤ turns) : (walk turn turns offset).value = as := by
  rw [h.value_walk_eq_take, List.take_of_length_le hturns]

/-! ## enough turns -/

/-- A turn goes on to a later place only, and only from before the limit. -/
def Onward (limit : ℕ) (turn : ℕ → Reads (Hop α)) : Prop :=
  ∀ offset a next, (turn offset).value = .on a next → offset < limit ∧ offset < next

/-- A walk that only goes on to later places leads through all its records. -/
theorem Onward.exists_leads {limit : ℕ} (h : Onward limit turn) (offset : ℕ) :
    ∃ as, Leads turn offset as := by
  induction hleft : limit - offset using Nat.strongRecOn generalizing offset with
  | _ left ih =>
    cases hturn : (turn offset).value with
    | stop => exact ⟨[], .stop hturn⟩
    | last a => exact ⟨[a], .last hturn⟩
    | on a next =>
      obtain ⟨hlimit, hnext⟩ := h offset a next hturn
      obtain ⟨as, has⟩ := ih (limit - next) (by omega) next rfl
      exact ⟨a :: as, .on hturn has⟩

/-- **Enough turns**: the walk has come to its end, and more turns give no more. -/
theorem walk_enough {limit : ℕ} (h : Onward limit turn) {offset turns : ℕ}
    (hturns : limit - offset + 1 < turns) :
    Leads turn offset (walk turn turns offset).value := by
  obtain ⟨as, has⟩ := h.exists_leads offset
  have hlength : as.length ≤ limit - offset + 1 := has.length_le fun p a next hturn => h p a next hturn
  rwa [has.value_walk (Nat.le_of_lt (Nat.lt_of_le_of_lt hlength hturns))]

/-- Known records are what such a walk gives. -/
theorem Leads.value_walk_of_onward {limit : ℕ} (h : Onward limit turn) {offset turns : ℕ}
    {as : List α} (has : Leads turn offset as) (hturns : limit - offset + 1 < turns) :
    (walk turn turns offset).value = as :=
  (walk_enough h hturns).unique has

end Infra.Reads
