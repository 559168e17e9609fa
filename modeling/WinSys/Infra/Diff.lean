import WinSys.Infra.Dict

/-!
# The difference of two keyed snapshots

A component that lists things again and again keeps the objects of those it knows: each entry of a
new snapshot is looked up by its key among the objects of the previous one, is kept and taken out
when found and made when not, and the objects that are left were not met again.

`Differ` is what a component has to say for it, `Differ.walk` is the walk, and `Differ.walk_spec`
says that what is listed, new and left is exactly the difference.
-/

namespace Infra

/-- In a list related to another, every element has one it is related to. -/
theorem exists_of_forall₂ {α β : Type*} {R : α → β → Prop} {l : List α} {l' : List β}
    (h : List.Forall₂ R l l') {b : β} (hb : b ∈ l') : ∃ a ∈ l, R a b := by
  induction h with
  | nil => exact absurd hb List.not_mem_nil
  | cons hr _ ih =>
    rcases List.mem_cons.mp hb with rfl | hb
    · exact ⟨_, List.mem_cons_self, hr⟩
    · obtain ⟨a, ha, hr'⟩ := ih hb
      exact ⟨a, List.mem_cons_of_mem _ ha, hr'⟩

/-- A walk over a snapshot's entries. -/
structure Diff (κ ν : Type*) where
  /-- The previous snapshot's objects not met again so far. -/
  old : Finmap fun _ : κ => ν
  current : List ν := []
  fresh : List ν := []
  byKey : Finmap fun _ : κ => ν := ∅
  /-- The number of the next object made. -/
  next : ℕ := 0

/-- How entries `α` with keys `κ` become objects `ν`. -/
structure Differ (α κ ν : Type*) where
  key : α → κ
  keyOf : ν → κ
  keep : α → ν → ν
  make : ℕ → α → ν
  keyOf_keep : ∀ a v, keyOf (keep a v) = keyOf v
  keyOf_make : ∀ i a, keyOf (make i a) = key a

namespace Differ

variable {α κ ν : Type*} [DecidableEq κ] (f : Differ α κ ν)

/-- One entry. -/
def visit (d : Diff κ ν) (a : α) : Diff κ ν :=
  match d.old.lookup (f.key a) with
  | none =>
    let v := f.make d.next a
    { d with
      current := d.current ++ [v]
      fresh := d.fresh ++ [v]
      byKey := d.byKey.insertNew (f.key a) v
      next := d.next + 1 }
  | some w =>
    let v := f.keep a w
    { d with
      old := d.old.erase (f.key a)
      current := d.current ++ [v]
      byKey := d.byKey.insertNew (f.key a) v }

def walk (d : Diff κ ν) (as : List α) : Diff κ ν := as.foldl f.visit d

/-- The previous snapshot's objects that a walk finds. -/
def found (d : Diff κ ν) : List α → List ν
  | [] => []
  | a :: as => (d.old.lookup (f.key a)).toList ++ found (f.visit d a) as

theorem walk_append (d : Diff κ ν) (as bs : List α) :
    f.walk d (as ++ bs) = f.walk (f.walk d as) bs :=
  List.foldl_append

/-- A visit only takes out. -/
theorem lookup_visit_old {d : Diff κ ν} {a : α} {k : κ} {v : ν}
    (h : (f.visit d a).old.lookup k = some v) : d.old.lookup k = some v := by
  unfold visit at h
  split at h
  · exact h
  · have herase : (d.old.erase (f.key a)).lookup k = some v := h
    rw [Finmap.lookup_erase_eq] at herase
    split at herase
    · exact absurd herase (Option.some_ne_none v).symm
    · exact herase

/-- What is found was a previous object, under the key of an entry. -/
theorem lookup_of_mem_found {d : Diff κ ν} {as : List α} {v : ν} (h : v ∈ f.found d as) :
    ∃ a ∈ as, d.old.lookup (f.key a) = some v := by
  induction as generalizing d with
  | nil => exact absurd h List.not_mem_nil
  | cons a as ih =>
    rcases List.mem_append.mp h with h | h
    · exact ⟨a, List.mem_cons_self, Option.mem_toList.mp h⟩
    · obtain ⟨b, hb, hlookup⟩ := ih h
      exact ⟨b, List.mem_cons_of_mem a hb, f.lookup_visit_old hlookup⟩

/-- Every object that a walk has by its key was made or kept for an entry with that key. -/
theorem lookup_walk_byKey {d : Diff κ ν} {as : List α} {k : κ} {v : ν}
    (h : (f.walk d as).byKey.lookup k = some v) :
    d.byKey.lookup k = some v ∨
      ∃ a ∈ as, f.key a = k ∧ ((∃ i, v = f.make i a) ∨ ∃ w, v = f.keep a w) := by
  induction as generalizing d with
  | nil => exact Or.inl h
  | cons a as ih =>
    rcases ih h with hvisit | ⟨b, hb, hmade⟩
    · unfold visit at hvisit
      split at hvisit
      · refine (Finmap.of_lookup_insertNew hvisit).imp_right ?_
        rintro ⟨rfl, rfl⟩
        exact ⟨a, List.mem_cons_self, rfl, Or.inl ⟨_, rfl⟩⟩
      · refine (Finmap.of_lookup_insertNew hvisit).imp_right ?_
        rintro ⟨rfl, rfl⟩
        exact ⟨a, List.mem_cons_self, rfl, Or.inr ⟨_, rfl⟩⟩
    · exact Or.inr ⟨b, List.mem_cons_of_mem a hb, hmade⟩

/-- What an entry becomes, given the previous snapshot's objects. -/
def Became (m : Finmap fun _ : κ => ν) (a : α) (v : ν) : Prop :=
  match m.lookup (f.key a) with
  | none => ∃ i, v = f.make i a
  | some w => v = f.keep a w

/-- The walk so far: `done` was visited, from the objects `m`. -/
structure Diffed (m : Finmap fun _ : κ => ν) (done : List α) (d : Diff κ ν) : Prop where
  old : ∀ k, d.old.lookup k = if k ∈ done.map f.key then none else m.lookup k
  current : List.Forall₂ (f.Became m) done d.current
  fresh : d.fresh = d.current.filter fun v => f.keyOf v ∉ m
  byKey : Finmap.Indexes f.keyOf d.byKey d.current

variable {f} {m : Finmap fun _ : κ => ν} {prev : List ν}

theorem Became.keyOf (hm : m.Indexes f.keyOf prev) {a : α} {v : ν} (h : f.Became m a v) :
    f.keyOf v = f.key a := by
  unfold Became at h
  split at h
  · obtain ⟨i, rfl⟩ := h
    exact f.keyOf_make i a
  · next w hw =>
    rw [h, f.keyOf_keep]
    exact hm.keyOf_eq hw

namespace Diffed

variable {done : List α} {d : Diff κ ν}

/-- The objects have the entries' keys, in the entries' order. -/
theorem keys (hm : m.Indexes f.keyOf prev) (h : f.Diffed m done d) :
    d.current.map f.keyOf = done.map f.key := by
  have hcurrent := h.current
  clear h
  generalize d.current = vs at hcurrent
  induction hcurrent with
  | nil => rfl
  | cons hb _ ih =>
    rw [List.map_cons, List.map_cons, ih, hb.keyOf hm]

/-- Every object was an entry. -/
theorem exists_of_mem (h : f.Diffed m done d) {v : ν} (hv : v ∈ d.current) :
    ∃ a ∈ done, f.Became m a v :=
  exists_of_forall₂ h.current hv

theorem start (n : ℕ) : f.Diffed m [] { old := m, next := n } where
  old k := by simp
  current := List.Forall₂.nil
  fresh := rfl
  byKey := Finmap.Indexes.empty

/-- One more entry, whose key was not met yet. -/
theorem visit (hm : m.Indexes f.keyOf prev) (h : f.Diffed m done d) {a : α}
    (ha : f.key a ∉ done.map f.key) : f.Diffed m (done ++ [a]) (f.visit d a) := by
  have hlook : d.old.lookup (f.key a) = m.lookup (f.key a) := by rw [h.old, if_neg ha]
  have hnew : f.key a ∉ d.current.map f.keyOf := by rw [h.keys hm]; exact ha
  cases hk : m.lookup (f.key a) with
  | none =>
    have hvisit : f.visit d a = { d with
        current := d.current ++ [f.make d.next a]
        fresh := d.fresh ++ [f.make d.next a]
        byKey := d.byKey.insertNew (f.key a) (f.make d.next a)
        next := d.next + 1 } := by
      simp [Differ.visit, hlook, hk]
    have hb : f.Became m a (f.make d.next a) := by
      simp only [Became, hk]
      exact ⟨_, rfl⟩
    rw [hvisit]
    refine ⟨fun k => ?_, List.rel_append h.current (.cons hb .nil), ?_,
      Finmap.Indexes.insertNew h.byKey hnew (f.keyOf_make _ _)⟩
    · simp only [h.old, List.map_append, List.mem_append]
      by_cases hka : k = f.key a
      · subst hka
        simp [hk]
      · simp [hka]
    · have hmem : f.key a ∉ m := Finmap.lookup_eq_none.mp hk
      simp [h.fresh, f.keyOf_make, hmem]
  | some w =>
    have hvisit : f.visit d a = { d with
        old := d.old.erase (f.key a)
        current := d.current ++ [f.keep a w]
        byKey := d.byKey.insertNew (f.key a) (f.keep a w) } := by
      simp [Differ.visit, hlook, hk]
    have hb : f.Became m a (f.keep a w) := by simp [Became, hk]
    rw [hvisit]
    refine ⟨fun k => ?_, List.rel_append h.current (.cons hb .nil), ?_,
      Finmap.Indexes.insertNew h.byKey hnew (hb.keyOf hm)⟩
    · simp only [Finmap.lookup_erase_eq, h.old, List.map_append, List.mem_append]
      by_cases hka : k = f.key a
      · simp [hka]
      · simp [hka]
    · have hmem : f.key a ∈ m := Finmap.mem_of_lookup_eq_some hk
      simp [h.fresh, hb.keyOf hm, hmem]

end Diffed

/-- The walk over a snapshot with distinct keys. -/
theorem walk_spec (hm : m.Indexes f.keyOf prev) {as : List α} (has : (as.map f.key).Nodup)
    (n : ℕ) : f.Diffed m as (f.walk { old := m, next := n } as) := by
  induction as using List.reverseRecOn with
  | nil => exact Diffed.start n
  | append_singleton as a ih =>
    rw [List.map_append, List.nodup_append] at has
    obtain ⟨hnodup, -, hdisjoint⟩ := has
    rw [walk_append]
    refine (ih hnodup).visit hm fun hmem => ?_
    exact hdisjoint _ hmem _ (List.mem_map.mpr ⟨a, List.mem_singleton_self a, rfl⟩) rfl

/-- What is new are the objects whose key is not among the previous ones'. -/
theorem Diffed.new (hm : m.Indexes f.keyOf prev) {as : List α} {d : Diff κ ν}
    (h : f.Diffed m as d) :
    d.fresh = d.current.filter fun v => f.keyOf v ∉ prev.map f.keyOf := by
  rw [h.fresh]
  refine List.filter_congr fun v _ => ?_
  rw [decide_eq_decide, hm.mem_iff]

/-- What is left are the previous snapshot's objects whose key is not among the entries'. -/
theorem Diffed.left (hm : m.Indexes f.keyOf prev) {as : List α} {d : Diff κ ν}
    (h : f.Diffed m as d) :
    d.old.Indexes f.keyOf (prev.filter fun v => f.keyOf v ∉ as.map f.key) := by
  intro k v
  rw [h.old, List.mem_filter, decide_eq_true_eq]
  split
  · next hk =>
    refine ⟨fun hv => by simp at hv, ?_⟩
    rintro ⟨⟨-, hnot⟩, rfl⟩
    exact absurd hk hnot
  · next hk =>
    rw [hm k v]
    constructor
    · rintro ⟨hv, rfl⟩
      exact ⟨⟨hv, hk⟩, rfl⟩
    · rintro ⟨⟨hv, -⟩, hkv⟩
      exact ⟨hv, hkv⟩

end Differ

end Infra
