import Mathlib.Data.Nat.Notation
import Mathlib.Tactic.TypeStar

/-!
# A part copied

What is read of a copy is what is read of the part that was copied, also where some elements of the
copy were written over, if the read is beside them.

* `patch`: a list with other elements at a place
* `Shares`: two lists have the same elements at two places
-/

namespace Infra

variable {α : Type*}

/-- Other elements at a place. -/
def patch (xs : List α) (place : ℕ) (new : List α) : List α :=
  xs.take place ++ new ++ xs.drop (place + new.length)

section Patch

variable {xs new : List α} {place i n : ℕ}

theorem length_patch (h : place + new.length ≤ xs.length) :
    (patch xs place new).length = xs.length := by
  rw [patch, List.length_append, List.length_append, List.length_take, List.length_drop]
  omega

/-- Before the place. -/
theorem part_patch_of_le (h : place + new.length ≤ xs.length) (hi : i + n ≤ place) :
    ((patch xs place new).drop i).take n = (xs.drop i).take n := by
  have htake : (patch xs place new).take place = xs.take place := by
    rw [patch, List.append_assoc, List.take_left' (by rw [List.length_take]; omega)]
  have hpart (ys : List α) : (ys.drop i).take n = ((ys.take place).drop i).take n := by
    rw [List.drop_take, List.take_take, Nat.min_eq_left (by omega)]
  rw [hpart, htake, ← hpart]

/-- Behind the place. -/
theorem drop_patch_of_le (h : place + new.length ≤ xs.length) (hi : place + new.length ≤ i) :
    (patch xs place new).drop i = xs.drop i := by
  obtain ⟨k, rfl⟩ := Nat.exists_eq_add_of_le hi
  rw [← List.drop_drop, patch,
    List.drop_left' (by rw [List.length_append, List.length_take]; omega), List.drop_drop]

/-- At the place. -/
theorem part_patch (h : place + new.length ≤ xs.length) :
    ((patch xs place new).drop place).take new.length = new := by
  rw [patch, List.append_assoc, List.drop_left' (by rw [List.length_take]; omega),
    List.take_left' rfl]

end Patch

section Part

variable {xs : List α} {p size : ℕ}

theorem length_part (h : p + size ≤ xs.length) : ((xs.drop p).take size).length = size := by
  rw [List.length_take, List.length_drop]
  omega

/-- A part of a part. -/
theorem part_part (i n : ℕ) (h : i + n ≤ size) :
    (((xs.drop p).take size).drop i).take n = (xs.drop (p + i)).take n := by
  rw [List.drop_take, List.drop_drop, List.take_take, Nat.min_eq_left (by omega)]

end Part

/-! ## the same part -/

section Shares

/-- Two lists have the same `n` elements at `p` and at `q`. -/
structure Shares (xs ys : List α) (p q n : ℕ) : Prop where
  left : p + n ≤ xs.length
  right : q + n ≤ ys.length
  part_eq : (xs.drop p).take n = (ys.drop q).take n

variable {xs ys : List α} {p q n : ℕ}

theorem Shares.part (h : Shares xs ys p q n) (i k : ℕ) (hik : i + k ≤ n) :
    Shares xs ys (p + i) (q + i) k where
  left := by have := h.left; omega
  right := by have := h.right; omega
  part_eq := by
    rw [← part_part i k hik, ← part_part i k hik, h.part_eq]

/-- What ends before the end of a common start. -/
theorem takeWhile_of_take_eq {m : ℕ} (f : α → Bool) (h : xs.take m = ys.take m)
    (hm : m ≤ xs.length) (hlt : (xs.takeWhile f).length < m) :
    ys.takeWhile f = xs.takeWhile f := by
  induction m generalizing xs ys with
  | zero => exact absurd hlt (Nat.not_lt_zero _)
  | succ m ih =>
    cases xs with
    | nil => exact absurd hm (Nat.not_succ_le_zero _)
    | cons x xs =>
      cases ys with
      | nil => cases h
      | cons y ys =>
        obtain ⟨rfl, htail⟩ := List.cons.inj h
        by_cases hx : f x
        · rw [List.takeWhile_cons_of_pos hx] at hlt
          rw [List.takeWhile_cons_of_pos hx, List.takeWhile_cons_of_pos hx,
            ih htail (Nat.le_of_succ_le_succ hm) (Nat.lt_of_succ_lt_succ hlt)]
        · rw [List.takeWhile_cons_of_neg hx, List.takeWhile_cons_of_neg hx]

end Shares

end Infra
