import Mathlib.Data.Finmap
import Mathlib.Algebra.BigOperators.Group.Multiset.Basic

/-!
# Finite maps

What an unordered map of a program offers beyond Mathlib's `Finmap`: erasing by a test,
adding up a value over all entries, and counting keys.

The order in which an unordered map is walked is not part of its value, so a walk is only used
for what does not depend on it: a test on each entry, or a sum.
-/

namespace Finmap

variable {κ ν : Type*} [DecidableEq κ]

/-! ## lookup as one equation -/

theorem lookup_insert_eq (m : Finmap fun _ : κ => ν) (k j : κ) (v : ν) :
    (m.insert k v).lookup j = if j = k then some v else m.lookup j := by
  split
  · next h => rw [h, lookup_insert]
  · next h => exact lookup_insert_of_ne m h

theorem lookup_erase_eq (m : Finmap fun _ : κ => ν) (k j : κ) :
    (m.erase k).lookup j = if j = k then none else m.lookup j := by
  split
  · next h => rw [h, lookup_erase]
  · next h => exact lookup_erase_ne h

/-! ## inserting a key once -/

/-- Inserts unless the key has a value already. -/
def insertNew (m : Finmap fun _ : κ => ν) (k : κ) (v : ν) : Finmap fun _ : κ => ν :=
  if k ∈ m then m else m.insert k v

theorem lookup_insertNew_of_none {m : Finmap fun _ : κ => ν} {k : κ} (h : m.lookup k = none)
    (j : κ) (v : ν) : (m.insertNew k v).lookup j = if j = k then some v else m.lookup j := by
  have hk : k ∉ m := lookup_eq_none.mp h
  rw [insertNew, if_neg hk, lookup_insert_eq]

theorem lookup_insertNew (m : Finmap fun _ : κ => ν) (k j : κ) (v : ν) :
    (m.insertNew k v).lookup j = (m.lookup j).or (if j = k then some v else none) := by
  by_cases hk : k ∈ m
  · rw [insertNew, if_pos hk]
    obtain ⟨w, hw⟩ := mem_iff.mp hk
    by_cases hj : j = k
    · rw [hj, hw, Option.some_or]
    · rw [if_neg hj, Option.or_none]
  · have hnone : m.lookup k = none := lookup_eq_none.mpr hk
    rw [lookup_insertNew_of_none hnone]
    by_cases hj : j = k
    · rw [if_pos hj, if_pos hj, hj, hnone, Option.none_or]
    · rw [if_neg hj, if_neg hj, Option.or_none]

theorem of_lookup_insertNew {m : Finmap fun _ : κ => ν} {k j : κ} {v w : ν}
    (h : (m.insertNew k v).lookup j = some w) : m.lookup j = some w ∨ j = k ∧ w = v := by
  rw [lookup_insertNew, Option.or_eq_some_iff] at h
  rcases h with h | ⟨-, h⟩
  · exact Or.inl h
  · obtain ⟨hj, hw⟩ := Option.ite_none_right_eq_some.mp h
    exact Or.inr ⟨hj, (Option.some.inj hw).symm⟩

/-- Of what is inserted for a key, the first stays. -/
theorem lookup_foldl_insertNew (l : List (κ × ν)) (m : Finmap fun _ : κ => ν) (j : κ) :
    (l.foldl (fun m p => m.insertNew p.1 p.2) m).lookup j = (m.lookup j).or (l.lookup j) := by
  induction l generalizing m with
  | nil => simp
  | cons p l ih =>
    rw [List.foldl_cons, ih, lookup_insertNew, Option.or_assoc, List.lookup_cons]
    by_cases hj : j = p.1
    · simp [hj]
    · simp [hj, beq_eq_false_iff_ne.mpr hj]

/-! ## erasing by a test -/

/-- Erases the entries the test accepts. -/
def eraseIf (m : Finmap fun _ : κ => ν) (p : κ → ν → Bool) : Finmap fun _ : κ => ν :=
  ⟨m.entries.filter fun e => !p e.1 e.2,
    Multiset.nodup_keys.mp (Multiset.nodup_of_le
      (Multiset.map_le_map (Multiset.filter_le _ m.entries)) (Multiset.nodup_keys.mpr m.nodupKeys))⟩

theorem lookup_eraseIf (m : Finmap fun _ : κ => ν) (p : κ → ν → Bool) (k : κ) :
    (m.eraseIf p).lookup k = (m.lookup k).filter fun v => !p k v := by
  ext v
  have hl : v ∈ (m.eraseIf p).lookup k ↔ ⟨k, v⟩ ∈ m.entries ∧ p k v = false := by
    rw [mem_lookup_iff, eraseIf, Multiset.mem_filter]
    simp
  rw [← Option.mem_def, hl, ← mem_lookup_iff, Option.mem_def]
  simp [Option.filter_eq_some_iff]

/-- What an erasing test left was there. -/
theorem of_lookup_eraseIf {m : Finmap fun _ : κ => ν} {p : κ → ν → Bool} {k : κ} {v : ν}
    (h : (m.eraseIf p).lookup k = some v) : m.lookup k = some v := by
  rw [lookup_eraseIf] at h
  exact (Option.filter_eq_some_iff.mp h).1

theorem eraseIf_of_forall {m : Finmap fun _ : κ => ν} {p : κ → ν → Bool}
    (h : ∀ k v, m.lookup k = some v → p k v = false) : m.eraseIf p = m := by
  refine Finmap.ext_lookup fun k => ?_
  rw [lookup_eraseIf]
  cases hk : m.lookup k with
  | none => rfl
  | some v => rw [Option.filter_some, h k v hk]; rfl

theorem of_mem_eraseIf {m : Finmap fun _ : κ => ν} {p : κ → ν → Bool} {k : κ}
    (h : k ∈ m.eraseIf p) : k ∈ m := by
  obtain ⟨v, hv⟩ := Finmap.mem_iff.mp h
  exact Finmap.mem_iff.mpr ⟨v, of_lookup_eraseIf hv⟩

/-- What an erasing test removed met it. -/
theorem of_eraseIf_none {m : Finmap fun _ : κ => ν} {p : κ → ν → Bool} {k : κ} {v : ν}
    (h : m.lookup k = some v) (hn : (m.eraseIf p).lookup k = none) : p k v = true := by
  rw [lookup_eraseIf, h] at hn
  simpa using hn

theorem insert_erase_self (m : Finmap fun _ : κ => ν) (k : κ) (v : ν) :
    (m.erase k).insert k v = m.insert k v := by
  refine ext_lookup fun j => ?_
  rw [lookup_insert_eq, lookup_insert_eq, lookup_erase_eq]
  split <;> rfl

theorem erase_insert_self (m : Finmap fun _ : κ => ν) (k : κ) (v : ν) :
    (m.insert k v).erase k = m.erase k := by
  refine ext_lookup fun j => ?_
  rw [lookup_erase_eq, lookup_erase_eq, lookup_insert_eq]
  split <;> rfl

/-! ## a walk over the entries -/

/-- Replaces every value. -/
def mapAll (m : Finmap fun _ : κ => ν) (f : κ → ν → ν) : Finmap fun _ : κ => ν :=
  ⟨m.entries.map fun e => ⟨e.1, f e.1 e.2⟩, Multiset.nodup_keys.mp (by
    rw [Multiset.keys, Multiset.map_map]
    exact Multiset.nodup_keys.mpr m.nodupKeys)⟩

theorem lookup_mapAll (m : Finmap fun _ : κ => ν) (f : κ → ν → ν) (k : κ) :
    (m.mapAll f).lookup k = (m.lookup k).map (f k) := by
  ext v
  rw [Option.map_eq_some_iff, ← Option.mem_def, mem_lookup_iff, mapAll, Multiset.mem_map]
  constructor
  · rintro ⟨e, he, heq⟩
    obtain ⟨rfl, hv⟩ := Sigma.mk.inj heq
    exact ⟨e.2, mem_lookup_iff.mpr he, eq_of_heq hv⟩
  · rintro ⟨a, ha, rfl⟩
    exact ⟨⟨k, a⟩, mem_lookup_iff.mp ha, rfl⟩

/-- Of the entries a test accepts, a key has one at most. -/
theorem count_filter_entries (m : Finmap fun _ : κ => ν) (p : κ → ν → Bool) (k : κ) :
    ((m.entries.filter fun e => p e.1 e.2).map Sigma.fst).count k
      = if (m.lookup k).any (p k) then 1 else 0 := by
  have hnodup : ((m.entries.filter fun e => p e.1 e.2).map Sigma.fst).Nodup :=
    Multiset.nodup_of_le (Multiset.map_le_map (Multiset.filter_le _ m.entries))
      (Multiset.nodup_keys.mpr m.nodupKeys)
  rw [Multiset.count_eq_of_nodup hnodup]
  refine if_congr ?_ rfl rfl
  rw [Multiset.mem_map, Option.any_eq_true]
  constructor
  · rintro ⟨e, he, rfl⟩
    rw [Multiset.mem_filter] at he
    exact ⟨e.2, mem_lookup_iff.mpr he.1, he.2⟩
  · rintro ⟨v, hv, hp⟩
    exact ⟨⟨k, v⟩, Multiset.mem_filter.mpr ⟨mem_lookup_iff.mp hv, hp⟩, rfl⟩

/-- A test on every entry can be run. -/
instance decidableForallLookup (m : Finmap fun _ : κ => ν) (P : κ → ν → Prop)
    [∀ k v, Decidable (P k v)] : Decidable (∀ k v, m.lookup k = some v → P k v) :=
  decidable_of_iff (∀ e ∈ m.entries, P e.1 e.2)
    ⟨fun h k v hk => h ⟨k, v⟩ (mem_lookup_iff.mp hk),
      fun h e he => h e.1 e.2 (mem_lookup_iff.mpr he)⟩

/-! ## a map that indexes a list -/

/-- The map has the list's elements, each under its key. -/
def Indexes (keyOf : ν → κ) (m : Finmap fun _ : κ => ν) (l : List ν) : Prop :=
  ∀ k v, m.lookup k = some v ↔ v ∈ l ∧ keyOf v = k

/-- The values, in no particular order. -/
def values (m : Finmap fun _ : κ => ν) : Multiset ν := m.entries.map fun e => e.2

namespace Indexes

variable {keyOf : ν → κ} {m : Finmap fun _ : κ => ν} {l : List ν}

protected theorem empty : Indexes keyOf (∅ : Finmap fun _ : κ => ν) [] := by
  intro k v
  simp

theorem keyOf_eq (h : Indexes keyOf m l) {k : κ} {v : ν} (hk : m.lookup k = some v) :
    keyOf v = k :=
  ((h k v).mp hk).2

/-- A key is in the map exactly when it is some element's. -/
theorem mem_iff (h : Indexes keyOf m l) {k : κ} : k ∈ m ↔ k ∈ l.map keyOf := by
  rw [← lookup_isSome, Option.isSome_iff_exists, List.mem_map]
  constructor
  · rintro ⟨v, hv⟩
    exact ⟨v, (h k v).mp hv⟩
  · rintro ⟨v, hv, hk⟩
    exact ⟨v, (h k v).mpr ⟨hv, hk⟩⟩

/-- Indexing goes on with a value of a new key. -/
protected theorem insertNew (h : Indexes keyOf m l) {k : κ} {v : ν} (hk : k ∉ l.map keyOf)
    (hv : keyOf v = k) : Indexes keyOf (m.insertNew k v) (l ++ [v]) := by
  intro j w
  have hnone : m.lookup k = none := by
    rw [lookup_eq_none, h.mem_iff]
    exact hk
  rw [lookup_insertNew_of_none hnone, List.mem_append, List.mem_singleton]
  split
  · next hj =>
    constructor
    · intro hw
      rw [← Option.some.inj hw]
      exact ⟨Or.inr rfl, by rw [hv, hj]⟩
    · rintro ⟨hw | rfl, hkw⟩
      · exact absurd (List.mem_map.mpr ⟨w, hw, hkw.trans hj⟩) hk
      · rfl
  · next hj =>
    rw [h j w]
    constructor
    · rintro ⟨hw, hkw⟩
      exact ⟨Or.inl hw, hkw⟩
    · rintro ⟨hw | rfl, hkw⟩
      · exact ⟨hw, hkw⟩
      · exact absurd (hkw.symm.trans hv) hj

/-- Only the keys of the list's elements matter. -/
theorem congr {keyOf₁ : ν → κ} (h : Indexes keyOf m l) (hk : ∀ v ∈ l, keyOf₁ v = keyOf v) :
    Indexes keyOf₁ m l := by
  intro k v
  rw [h k v]
  constructor
  · rintro ⟨hv, hkey⟩
    exact ⟨hv, (hk v hv).trans hkey⟩
  · rintro ⟨hv, hkey⟩
    exact ⟨hv, (hk v hv).symm.trans hkey⟩

protected theorem eraseIf (h : Indexes keyOf m l) (p : κ → Bool) :
    Indexes keyOf (m.eraseIf fun k _ => p k) (l.filter fun v => !p (keyOf v)) := by
  intro k v
  rw [lookup_eraseIf, Option.filter_eq_some_iff, h k v, List.mem_filter]
  constructor
  · rintro ⟨⟨hv, rfl⟩, hp⟩
    exact ⟨⟨hv, hp⟩, rfl⟩
  · rintro ⟨⟨hv, hp⟩, rfl⟩
    exact ⟨⟨hv, rfl⟩, hp⟩

/-- The values are the list, when the list's keys are distinct. -/
theorem values_eq (h : Indexes keyOf m l) (hl : (l.map keyOf).Nodup) :
    m.values = (l : Multiset ν) := by
  have hinj : ∀ x ∈ m.entries, ∀ y ∈ m.entries, x.2 = y.2 → x = y := by
    intro x hx y hy hxy
    have hkx := h.keyOf_eq (mem_lookup_iff.mpr hx)
    have hky := h.keyOf_eq (mem_lookup_iff.mpr hy)
    have hkey : x.1 = y.1 := by rw [← hkx, ← hky, hxy]
    exact Sigma.ext hkey (heq_of_eq hxy)
  have hentries : m.entries.Nodup := Multiset.Nodup.of_map _ (Multiset.nodup_keys.mpr m.nodupKeys)
  have hvalues : m.values.Nodup := (Multiset.nodup_map_iff_of_inj_on hinj).mpr hentries
  have hlist : (l : Multiset ν).Nodup := Multiset.coe_nodup.mpr (List.Nodup.of_map _ hl)
  refine (Multiset.Nodup.ext hvalues hlist).mpr fun v => ?_
  rw [values, Multiset.mem_map, Multiset.mem_coe]
  constructor
  · rintro ⟨e, he, rfl⟩
    exact ((h e.1 e.2).mp (mem_lookup_iff.mpr he)).1
  · intro hv
    exact ⟨⟨keyOf v, v⟩, mem_lookup_iff.mp ((h (keyOf v) v).mpr ⟨hv, rfl⟩), rfl⟩

end Indexes

/-! ## sums over the entries -/

/-- The sum of a value of each entry. -/
def total (m : Finmap fun _ : κ => ν) (f : κ → ν → ℕ) : ℕ :=
  (m.entries.map fun e => f e.1 e.2).sum

omit [DecidableEq κ] in
@[simp]
theorem total_empty (f : κ → ν → ℕ) : (∅ : Finmap fun _ : κ => ν).total f = 0 := rfl

theorem total_insert_of_notMem {m : Finmap fun _ : κ => ν} {k : κ} (h : k ∉ m) (v : ν)
    (f : κ → ν → ℕ) : (m.insert k v).total f = f k v + m.total f := by
  rw [total, total, entries_insert_of_notMem h, Multiset.map_cons, Multiset.sum_cons]

/-- Replacing an entry takes the old value off the sum and adds the new one. -/
theorem total_insert (m : Finmap fun _ : κ => ν) (k : κ) (v : ν) (f : κ → ν → ℕ) :
    (m.insert k v).total f + ((m.lookup k).elim 0 (f k)) = m.total f + f k v := by
  have hnew : (m.insert k v).total f = f k v + (m.erase k).total f := by
    rw [← insert_erase_self, total_insert_of_notMem notMem_erase_self]
  cases h : m.lookup k with
  | none =>
    have herase : m.erase k = m := by
      refine ext_lookup fun j => ?_
      rw [lookup_erase_eq]
      split
      · next hj => rw [hj, h]
      · rfl
    rw [hnew, herase]
    simp only [Option.elim]
    omega
  | some w =>
    have hold : m.total f = f k w + (m.erase k).total f := by
      have hm : m = (m.erase k).insert k w := by
        refine ext_lookup fun j => ?_
        rw [lookup_insert_eq, lookup_erase_eq]
        split
        · next hj => rw [hj, h]
        · rfl
      conv_lhs => rw [hm]
      exact total_insert_of_notMem notMem_erase_self w f
    rw [hnew, hold]
    simp only [Option.elim]
    omega

end Finmap
