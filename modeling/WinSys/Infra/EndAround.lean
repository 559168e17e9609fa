import Mathlib.Algebra.BigOperators.Group.List.Defs
import Mathlib.Data.Nat.ModEq

/-!
# Sums with an end-around carry

Words up to `m` (all ones) are added, and a carry out of the top comes in again below. Such a sum
stands for the integer sum: it has its residue modulo `m`, and of the two words for the residue 0 it
is the zero word only if every word is zero. This determines it (`Represents.unique`).
-/

namespace Infra

variable {m : ℕ}

def addCarry (m x y : ℕ) : ℕ := if x + y ≤ m then x + y else x + y - m

def sumCarry (m : ℕ) (ws : List ℕ) : ℕ := ws.foldl (addCarry m) 0

/-- The carry taken off the top and added. -/
def foldCarry (m s : ℕ) : ℕ := s % (m + 1) + s / (m + 1)

/-- The word `x` stands for the integer `n`. -/
structure Represents (m n x : ℕ) : Prop where
  le : x ≤ m
  modEq : x ≡ n [MOD m]
  eq_zero_iff : x = 0 ↔ n = 0

namespace Represents

variable {n n' x y w : ℕ}

theorem zero : Represents m 0 0 := ⟨Nat.zero_le _, rfl, Iff.rfl⟩

theorem add (h : Represents m n x) (hw : w ≤ m) : Represents m (n + w) (addCarry m x w) := by
  have hmod := h.modEq.add_right w
  have hzero := h.eq_zero_iff
  have hle := h.le
  unfold addCarry
  split
  · next hfits => exact ⟨hfits, hmod, by omega⟩
  · next hcarry =>
    refine ⟨by omega, ?_, by omega⟩
    have hback : x + w - m ≡ x + w [MOD m] := by
      have h := @Nat.add_modEq_right m (x + w - m)
      rw [Nat.sub_add_cancel (by omega)] at h
      exact h.symm
    exact hback.trans hmod

/-- One fold takes the carry of one addition. -/
theorem foldCarry_add (h : Represents m n x) (hw : w ≤ m) :
    foldCarry m (x + w) = addCarry m x w := by
  have hle := h.le
  unfold foldCarry addCarry
  split
  · next hfits => rw [Nat.mod_eq_of_lt (by omega), Nat.div_eq_of_lt (by omega), Nat.add_zero]
  · next hcarry =>
    have hlow : x + w = (x + w - (m + 1)) + (m + 1) := by omega
    rw [hlow, Nat.add_mod_right, Nat.mod_eq_of_lt (by omega), Nat.add_div_right _ (by omega),
      Nat.div_eq_of_lt (by omega)]
    omega

theorem foldCarry_self (h : Represents m n x) : foldCarry m x = x := by
  rw [foldCarry, Nat.mod_eq_of_lt (Nat.lt_succ_of_le h.le), Nat.div_eq_of_lt
    (Nat.lt_succ_of_le h.le), Nat.add_zero]

/-- Two words for positive sums are the same if the sums have the same residue. -/
theorem eq_iff (h : Represents m n x) (h' : Represents m n' y) (hn : 0 < n) (hn' : 0 < n') :
    x = y ↔ n ≡ n' [MOD m] := by
  have hx : 0 < x := Nat.pos_of_ne_zero fun hx => hn.ne' (h.eq_zero_iff.mp hx)
  have hy : 0 < y := Nat.pos_of_ne_zero fun hy => hn'.ne' (h'.eq_zero_iff.mp hy)
  have hxm := h.le
  have hym := h'.le
  constructor
  · rintro rfl
    exact h.modEq.symm.trans h'.modEq
  · intro hmod
    have hxy := (h.modEq.trans hmod).trans h'.modEq.symm
    obtain hle | hle := Nat.le_total x y
    · have hdvd := (Nat.modEq_iff_dvd' hle).mp hxy
      have hzero := Nat.eq_zero_of_dvd_of_lt hdvd (by omega)
      omega
    · have hdvd := (Nat.modEq_iff_dvd' hle).mp hxy.symm
      have hzero := Nat.eq_zero_of_dvd_of_lt hdvd (by omega)
      omega

/-- The word for a sum is determined. -/
theorem unique (h : Represents m n x) (h' : Represents m n y) : x = y := by
  obtain rfl | hn := Nat.eq_zero_or_pos n
  · rw [h.eq_zero_iff.mpr rfl, h'.eq_zero_iff.mpr rfl]
  · exact (h.eq_iff h' hn hn).mpr rfl

theorem foldl {ws : List ℕ} (hws : ∀ w ∈ ws, w ≤ m) (h : Represents m n x) :
    Represents m (n + ws.sum) (ws.foldl (addCarry m) x) := by
  induction ws generalizing n x with
  | nil => exact h
  | cons w ws ih =>
    rw [List.sum_cons, ← Nat.add_assoc]
    exact ih (fun v hv => hws v (List.mem_cons_of_mem _ hv)) (h.add (hws w List.mem_cons_self))

end Represents

theorem represents_sumCarry {ws : List ℕ} (hws : ∀ w ∈ ws, w ≤ m) :
    Represents m ws.sum (sumCarry m ws) := by
  have h := Represents.zero.foldl hws
  rwa [Nat.zero_add] at h

end Infra
