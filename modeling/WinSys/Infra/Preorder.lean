import Mathlib.Data.List.Nodup
import Mathlib.Data.Nat.Notation

/-!
# Trees as lists

A list of nodes in pre-order, each with the place of its parent and its depth, and the tree it is of.

* `Siblings`: nodes in order, each with its children
* `Siblings.list`: the list; `list_append`: trees one after another
* `parent_spec`: a parent comes before its children, one level above
* `list_inj`: the values and the parents determine the tree
-/

namespace Infra

variable {α β : Type*}

/-- Nodes in order, each with its children. -/
inductive Siblings (α : Type*) where
  | nil
  | cons (a : α) (children rest : Siblings α)
deriving DecidableEq, Repr

/-- A node with the place of its parent. -/
structure Placed (α : Type*) where
  value : α
  parent : Option ℕ
  depth : ℕ
deriving DecidableEq, Repr

namespace Placed

def map (f : α → β) (p : Placed α) : Placed β := ⟨f p.value, p.parent, p.depth⟩

end Placed

/-- The place of a parent as an `int`, -1 for none. -/
def indexOf : Option ℕ → Int
  | none => -1
  | some index => index

theorem indexOf_inj {i j : Option ℕ} (h : indexOf i = indexOf j) : i = j := by
  cases i with
  | none =>
    cases j with
    | none => rfl
    | some j => simp only [indexOf] at h; omega
  | some i =>
    cases j with
    | none => simp only [indexOf] at h; omega
    | some j => simp only [indexOf] at h; rw [Int.ofNat.inj h]

namespace Siblings

def size : Siblings α → ℕ
  | nil => 0
  | cons _ children rest => children.size + 1 + rest.size

/-- One after another. -/
def append : Siblings α → Siblings α → Siblings α
  | nil, t => t
  | cons a children rest, t => cons a children (rest.append t)

def toList : Siblings α → List α
  | nil => []
  | cons a children rest => a :: (children.toList ++ rest.toList)

def map (f : α → β) : Siblings α → Siblings β
  | nil => nil
  | cons a children rest => cons (f a) (children.map f) (rest.map f)

/-- The nodes in pre-order; the first one is at the place `first`, below `parent`. -/
def list (parent : Option ℕ) (depth first : ℕ) : Siblings α → List (Placed α)
  | nil => []
  | cons a children rest =>
    ⟨a, parent, depth⟩ :: (children.list (some first) (depth + 1) (first + 1)
      ++ rest.list parent depth (first + 1 + children.size))

variable {parent : Option ℕ} {depth first : ℕ}

@[simp]
theorem length_list (s : Siblings α) : (s.list parent depth first).length = s.size := by
  induction s generalizing parent depth first with
  | nil => rfl
  | cons a children rest ihc ihr =>
    rw [list, List.length_cons, List.length_append, ihc, ihr, size]
    omega

theorem map_value_list (s : Siblings α) :
    (s.list parent depth first).map Placed.value = s.toList := by
  induction s generalizing parent depth first with
  | nil => rfl
  | cons a children rest ihc ihr => rw [list, List.map_cons, List.map_append, ihc, ihr, toList]

@[simp]
theorem length_toList (s : Siblings α) : s.toList.length = s.size := by
  have hvalues : (s.list none 0 0).map Placed.value = s.toList := map_value_list s
  rw [← hvalues, List.length_map, length_list]

@[simp]
theorem size_append (s t : Siblings α) : (s.append t).size = s.size + t.size := by
  induction s with
  | nil => exact (Nat.zero_add _).symm
  | cons a children rest _ ih =>
    rw [append, size, ih, size]
    omega

/-- Trees one after another are listed one after another. -/
theorem list_append (s t : Siblings α) :
    (s.append t).list parent depth first
      = s.list parent depth first ++ t.list parent depth (first + s.size) := by
  induction s generalizing first with
  | nil => rfl
  | cons a children rest _ ih =>
    have hplace : first + 1 + children.size + rest.size = first + (children.size + 1 + rest.size) := by
      omega
    rw [append, list, ih, list, List.cons_append, List.append_assoc, size, hplace]

theorem map_list (f : α → β) (s : Siblings α) :
    (s.map f).list parent depth first = (s.list parent depth first).map (Placed.map f) := by
  induction s generalizing parent depth first with
  | nil => rfl
  | cons a children rest ihc ihr =>
    have hsize : (children.map f).size = children.size := by
      clear ihc ihr
      induction children with
      | nil => rfl
      | cons a children rest ihc ihr => rw [map, size, size, ihc, ihr]
    rw [map, list, ihc, ihr, hsize, list, List.map_cons, List.map_append]
    rfl

/-! ## where parents are -/

/-- Each node is below `parent`, or below one of the list before it. -/
theorem parent_list (s : Siblings α) {i : ℕ} {p : Placed α}
    (h : (s.list parent depth first)[i]? = some p) :
    (p.parent = parent ∧ p.depth = depth)
      ∨ ∃ j q, j < i ∧ p.parent = some (first + j)
        ∧ (s.list parent depth first)[j]? = some q ∧ p.depth = q.depth + 1 := by
  induction s generalizing parent depth first i with
  | nil => cases h
  | cons a children rest ihc ihr =>
    rw [list] at h ⊢
    cases i with
    | zero =>
      cases h
      exact .inl ⟨rfl, rfl⟩
    | succ i =>
      rw [List.getElem?_cons_succ] at h
      by_cases hi : i < children.size
      · rw [List.getElem?_append_left (by rwa [length_list])] at h
        obtain ⟨hparent, hdepth⟩ | ⟨j, q, hj, hparent, hq, hdepth⟩ := ihc h
        · exact .inr ⟨0, _, Nat.succ_pos i, hparent, rfl, hdepth⟩
        · refine .inr ⟨j + 1, q, Nat.succ_lt_succ hj, ?_, ?_, hdepth⟩
          · rw [hparent, Nat.add_assoc, Nat.add_comm 1]
          · rw [List.getElem?_cons_succ, List.getElem?_append_left, hq]
            rw [length_list]
            omega
      · rw [List.getElem?_append_right (by rw [length_list]; omega), length_list] at h
        obtain hown | ⟨j, q, hj, hparent, hq, hdepth⟩ := ihr h
        · exact .inl hown
        · refine .inr ⟨children.size + j + 1, q, by omega, ?_, ?_, hdepth⟩
          · rw [hparent]
            congr 1
            omega
          · rw [List.getElem?_cons_succ, List.getElem?_append_right (by rw [length_list]; omega),
              length_list, Nat.add_sub_cancel_left, hq]

/-- A parent in the list comes before its children, one level above them. -/
theorem parent_spec (s : Siblings α) {i j : ℕ} {p : Placed α}
    (h : (s.list none 0 0)[i]? = some p) (hj : p.parent = some j) :
    j < i ∧ ∃ q, (s.list none 0 0)[j]? = some q ∧ p.depth = q.depth + 1 := by
  obtain ⟨hparent, -⟩ | ⟨k, q, hk, hparent, hq, hdepth⟩ := parent_list s h
  · cases hparent.symm.trans hj
  · cases hparent.symm.trans hj
    rw [Nat.zero_add]
    exact ⟨hk, q, hq, hdepth⟩

def roots : Siblings α → List α
  | nil => []
  | cons a _ rest => a :: rest.roots

/-- What is below a node is no root. -/
theorem parent_ne_none {j : ℕ} (s : Siblings α) :
    ∀ p ∈ s.list (some j) depth first, p.parent ≠ none := by
  intro p hp
  obtain ⟨i, hi⟩ := List.getElem?_of_mem hp
  obtain ⟨hparent, -⟩ | ⟨k, q, -, hparent, -⟩ := parent_list s hi
  · rw [hparent]
    exact Option.some_ne_none j
  · rw [hparent]
    exact Option.some_ne_none _

theorem filter_roots (s : Siblings α) :
    ((s.list none depth first).filter (·.parent = none)).map Placed.value = s.roots := by
  induction s generalizing first with
  | nil => rfl
  | cons a children rest _ ih =>
    have hchildren : (children.list (some first) (depth + 1) (first + 1)).filter (·.parent = none)
        = [] :=
      List.filter_eq_nil_iff.mpr fun p hp => by simpa using parent_ne_none children p hp
    rw [list, List.filter_cons_of_pos (by simp), List.filter_append, hchildren, List.nil_append,
      List.map_cons, ih, roots]

/-! ## the tree is determined -/

/-- What is behind the siblings below `parent`: nothing, or a node below neither it nor one at or
behind the place. -/
def Behind (parent : Option ℕ) (first : ℕ) (rest : List (Placed α)) : Prop :=
  ∀ p ∈ rest.head?, p.parent ≠ parent ∧ ∀ j, first ≤ j → p.parent ≠ some j

theorem list_append_inj {s t : Siblings α} {rest rest' : List (Placed α)}
    (hparent : ∀ j, parent = some j → j < first)
    (hrest : Behind parent first rest) (hrest' : Behind parent first rest')
    (h : (s.list parent depth first ++ rest).map (fun p => (p.value, p.parent))
      = (t.list parent depth first ++ rest').map (fun p => (p.value, p.parent))) :
    s = t ∧ rest.map (fun p => (p.value, p.parent)) = rest'.map (fun p => (p.value, p.parent)) := by
  induction s generalizing t parent depth first rest rest' with
  | nil =>
    cases t with
    | nil => exact ⟨rfl, h⟩
    | cons a children next =>
      -- a node below `parent` would be behind
      cases rest with
      | nil => cases h
      | cons p rest =>
        obtain ⟨hp, -⟩ := List.cons.inj h
        exact absurd (Prod.mk.inj hp).2 (hrest p rfl).1
  | cons a children next ihc ihr =>
    cases t with
    | nil =>
      cases rest' with
      | nil => cases h
      | cons p rest' =>
        obtain ⟨hp, -⟩ := List.cons.inj h
        exact absurd (Prod.mk.inj hp).2.symm (hrest' p rfl).1
    | cons a' children' next' =>
      rw [list, list, List.cons_append, List.cons_append, List.append_assoc, List.append_assoc] at h
      obtain ⟨ha, hlists⟩ := List.cons.inj h
      obtain rfl : a = a' := (Prod.mk.inj ha).1
      have hbehind {u : Siblings α} {l : List (Placed α)} {n : ℕ} (hl : Behind parent first l) :
          Behind (some first) (first + 1) (u.list parent depth n ++ l) := by
        intro p hp
        have hfar (q : Placed α) (hq : q.parent = parent ∨ ∀ j, first ≤ j → q.parent ≠ some j) :
            q.parent ≠ some first ∧ ∀ j, first + 1 ≤ j → q.parent ≠ some j := by
          obtain hq | hq := hq
          · refine ⟨fun he => ?_, fun j hj he => ?_⟩
            · exact Nat.lt_irrefl _ (hparent _ (hq.symm.trans he))
            · have hlt := hparent _ (hq.symm.trans he)
              omega
          · exact ⟨hq first (Nat.le_refl _), fun j hj => hq j (by omega)⟩
        cases u with
        | nil => exact hfar p (.inr (hl p hp).2)
        | cons b _ _ =>
          cases hp
          exact hfar _ (.inl rfl)
      obtain ⟨rfl, hnext⟩ := ihc (fun j hj => by cases hj; exact Nat.lt_succ_self _)
        (hbehind hrest) (hbehind hrest') hlists
      have hweaken {l : List (Placed α)} (hl : Behind parent first l) :
          Behind parent (first + 1 + children.size) l :=
        fun p hp => ⟨(hl p hp).1, fun j hj => (hl p hp).2 j (by omega)⟩
      obtain ⟨rfl, hend⟩ := ihr (fun j hj => by have := hparent j hj; omega)
        (hweaken hrest) (hweaken hrest') hnext
      exact ⟨rfl, hend⟩

/-- **The values and the parents determine the tree.** -/
theorem list_inj {s t : Siblings α}
    (h : (s.list none 0 0).map (fun p => (p.value, p.parent))
      = (t.list none 0 0).map (fun p => (p.value, p.parent))) : s = t := by
  have hend : Behind (α := α) none 0 [] := fun p hp => by cases hp
  exact (list_append_inj (fun j hj => by cases hj) hend hend (by simpa using h)).1

end Siblings

end Infra
