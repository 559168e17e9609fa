import Mathlib.Data.List.Nodup

/-!
# Lists with keys

A list whose elements have keys, no two the same, in the order they are listed in: an element is
read, replaced and erased by its key.
-/

namespace List

variable {α κ : Type*}

/-- Where keys are distinct, erasing an element erases those of its key. -/
theorem erase_eq_filter_key [DecidableEq α] [DecidableEq κ] {l : List α} {key : α → κ}
    (h : (l.map key).Nodup) {a : α} (ha : a ∈ l) :
    l.erase a = l.filter fun b => key b ≠ key a := by
  rw [(Nodup.of_map key h).erase_eq_filter a]
  refine List.filter_congr fun b hb => ?_
  have hiff : b = a ↔ key b = key a :=
    ⟨fun hba => by rw [hba], fun hk => inj_on_of_nodup_map h hb ha hk⟩
  rw [bne, Bool.eq_iff_iff]
  simp [hiff]

/-- What is made of elements with distinct keys is distinct when it tells its element's key. -/
theorem nodup_map_filterMap {β γ : Type*} {l : List α} {key : α → κ} (h : (l.map key).Nodup)
    {g : α → Option β} {place : β → γ}
    (hg : ∀ a ∈ l, ∀ b ∈ l, ∀ x ∈ g a, ∀ y ∈ g b, place x = place y → key a = key b) :
    ((l.filterMap g).map place).Nodup := by
  rw [List.Nodup, List.pairwise_map, List.pairwise_filterMap]
  rw [List.Nodup, List.pairwise_map] at h
  refine h.imp_of_mem fun {a b} ha hb hab x hx y hy hxy => ?_
  exact hab (hg a ha b hb x hx y hy hxy)

/-- Parts that are distinct in themselves are so together when each place tells its part. -/
theorem nodup_map_flatMap {ι β γ δ : Type*} {l : List ι} {f : ι → List β} {place : β → γ}
    (tag : γ → δ) {tagOf : ι → δ} (hl : (l.map tagOf).Nodup)
    (hf : ∀ i ∈ l, ((f i).map place).Nodup)
    (htag : ∀ i ∈ l, ∀ x ∈ f i, tag (place x) = tagOf i) :
    ((l.flatMap f).map place).Nodup := by
  rw [List.map_flatMap, List.nodup_flatMap]
  refine ⟨hf, ?_⟩
  rw [List.Nodup, List.pairwise_map] at hl
  refine hl.imp_of_mem fun {i j} hi hj hij => ?_
  refine List.disjoint_left.mpr fun p hp hq => ?_
  obtain ⟨x, hx, rfl⟩ := List.mem_map.mp hp
  obtain ⟨y, hy, hxy⟩ := List.mem_map.mp hq
  exact hij ((htag i hi x hx).symm.trans (hxy ▸ htag j hj y hy))

end List

namespace Infra

variable {α κ : Type*}

structure KeyedList (keyOf : α → κ) where
  toList : List α
  nodup : (toList.map keyOf).Nodup

namespace KeyedList

variable {keyOf : α → κ} [DecidableEq κ]

def empty : KeyedList keyOf := ⟨[], List.nodup_nil⟩

def get? (l : KeyedList keyOf) (k : κ) : Option α := l.toList.find? fun a => keyOf a = k

def erase (l : KeyedList keyOf) (k : κ) : KeyedList keyOf where
  toList := l.toList.filter fun a => keyOf a ≠ k
  nodup := (List.Sublist.map keyOf List.filter_sublist).nodup l.nodup

theorem get?_eq_some {l : KeyedList keyOf} {k : κ} {a : α} :
    l.get? k = some a ↔ a ∈ l.toList ∧ keyOf a = k := by
  constructor
  · intro h
    exact ⟨List.mem_of_find?_eq_some h, by simpa using List.find?_some h⟩
  · rintro ⟨ha, rfl⟩
    cases hf : l.get? (keyOf a) with
    | none => simpa using List.find?_eq_none.mp hf a ha
    | some b =>
      have hb : keyOf b = keyOf a := by simpa using List.find?_some hf
      rw [List.inj_on_of_nodup_map l.nodup (List.mem_of_find?_eq_some hf) ha hb]

theorem get?_eq_none {l : KeyedList keyOf} {k : κ} :
    l.get? k = none ↔ ∀ a ∈ l.toList, keyOf a ≠ k := by
  simp [get?]

@[simp]
theorem get?_empty (k : κ) : (empty : KeyedList keyOf).get? k = none := rfl

theorem get?_erase (l : KeyedList keyOf) (k j : κ) :
    (l.erase k).get? j = if j = k then none else l.get? j := by
  split
  · next hj =>
    subst hj
    exact get?_eq_none.mpr fun a ha => by simpa using (List.mem_filter.mp ha).2
  · next hj =>
    refine Option.ext fun a => ?_
    rw [get?_eq_some, get?_eq_some]
    constructor
    · rintro ⟨ha, hk⟩
      exact ⟨(List.mem_filter.mp ha).1, hk⟩
    · rintro ⟨ha, rfl⟩
      exact ⟨List.mem_filter.mpr ⟨ha, by simpa using hj⟩, rfl⟩

/-- In its place when the key is there, else at the end. -/
def put (l : KeyedList keyOf) (a : α) : KeyedList keyOf where
  toList :=
    if (l.get? (keyOf a)).isSome then l.toList.map fun b => if keyOf b = keyOf a then a else b
    else l.toList ++ [a]
  nodup := by
    split
    · rw [List.map_map]
      refine (List.map_congr_left fun b _ => ?_).symm ▸ l.nodup
      simp only [Function.comp_apply]
      split
      · next h => exact h.symm
      · rfl
    · next h =>
      rw [List.map_append, List.nodup_append]
      refine ⟨l.nodup, List.nodup_singleton _, fun k hk j hj => ?_⟩
      obtain ⟨b, hb, rfl⟩ := List.mem_map.mp hk
      rw [List.map_singleton, List.mem_singleton] at hj
      rw [hj]
      exact get?_eq_none.mp (Option.not_isSome_iff_eq_none.mp h) b hb

theorem mem_put {l : KeyedList keyOf} {a c : α} :
    c ∈ (l.put a).toList ↔ c = a ∨ c ∈ l.toList ∧ keyOf c ≠ keyOf a := by
  show c ∈ ite _ _ _ ↔ _
  split
  · next h =>
    obtain ⟨b, hb⟩ := Option.isSome_iff_exists.mp h
    obtain ⟨hbl, hbk⟩ := get?_eq_some.mp hb
    rw [List.mem_map]
    constructor
    · rintro ⟨d, hd, rfl⟩
      split
      · exact .inl rfl
      · next hk => exact .inr ⟨hd, hk⟩
    · rintro (rfl | ⟨hc, hk⟩)
      · exact ⟨b, hbl, if_pos hbk⟩
      · exact ⟨c, hc, if_neg hk⟩
  · next h =>
    have hnone := get?_eq_none.mp (Option.not_isSome_iff_eq_none.mp h)
    rw [List.mem_append, List.mem_singleton]
    constructor
    · rintro (hc | hc)
      · exact .inr ⟨hc, hnone c hc⟩
      · exact .inl hc
    · rintro (hc | ⟨hc, -⟩)
      · exact .inr hc
      · exact .inl hc

theorem get?_put (l : KeyedList keyOf) (a : α) (j : κ) :
    (l.put a).get? j = if j = keyOf a then some a else l.get? j := by
  refine Option.ext fun c => ?_
  rw [get?_eq_some, mem_put]
  split
  · next hj =>
    rw [Option.some_inj]
    constructor
    · rintro ⟨hc | ⟨-, hk⟩, hcj⟩
      · exact hc.symm
      · exact absurd (hcj.trans hj) hk
    · rintro rfl
      exact ⟨.inl rfl, hj.symm⟩
  · next hj =>
    rw [get?_eq_some]
    constructor
    · rintro ⟨rfl | ⟨hc, -⟩, hcj⟩
      · exact absurd hcj.symm hj
      · exact ⟨hc, hcj⟩
    · rintro ⟨hc, rfl⟩
      exact ⟨.inr ⟨hc, hj⟩, rfl⟩

end KeyedList

end Infra
