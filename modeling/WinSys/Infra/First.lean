import Mathlib.Order.Basic
import Mathlib.Order.Nat

/-!
# The first place with a property

`FirstIn P lo hi r` says that `r` is the first place of `lo..hi` with the property `P`, if it has
one. Searches of consecutive ranges compose.
-/

namespace Infra

variable {P Q : ℕ → Prop} {lo mid hi : ℕ} {r r' : Option ℕ}

def FirstIn (P : ℕ → Prop) (lo hi : ℕ) : Option ℕ → Prop
  | some a => lo ≤ a ∧ a < hi ∧ P a ∧ ∀ b, lo ≤ b → b < a → ¬P b
  | none => ∀ b, lo ≤ b → b < hi → ¬P b

namespace FirstIn

theorem empty (h : hi ≤ lo) : FirstIn P lo hi none :=
  fun _ hb hlt => absurd (hb.trans_lt hlt) (Nat.not_lt.mpr h)

theorem congr (hPQ : ∀ b, lo ≤ b → b < hi → (P b ↔ Q b)) (h : FirstIn P lo hi r) :
    FirstIn Q lo hi r := by
  cases r with
  | none => exact fun b hb hlt hq => h b hb hlt ((hPQ b hb hlt).mpr hq)
  | some a =>
    obtain ⟨hlo, hhi, ha, hfirst⟩ := h
    refine ⟨hlo, hhi, (hPQ a hlo hhi).mp ha, fun b hb hlt hq => ?_⟩
    exact hfirst b hb hlt ((hPQ b hb (hlt.trans hhi)).mpr hq)

/-- What is found first in a range is found first in every other one from its start on. -/
theorem within {a : ℕ} (h : FirstIn P lo mid (some a)) (hlt : a < hi) : FirstIn P lo hi (some a) :=
  ⟨h.1, hlt, h.2.2⟩

/-- If nothing is in the first range, what is first in the second one is first. -/
theorem right (h : FirstIn P lo mid none) (h' : FirstIn P mid hi r) (hle : lo ≤ mid) :
    FirstIn P lo hi r := by
  cases r with
  | none =>
    intro b hb hlt
    obtain hm | hm := Nat.lt_or_ge b mid
    · exact h b hb hm
    · exact h' b hm hlt
  | some a =>
    obtain ⟨hlo, hhi, ha, hfirst⟩ := h'
    refine ⟨hle.trans hlo, hhi, ha, fun b hb hlt => ?_⟩
    obtain hm | hm := Nat.lt_or_ge b mid
    · exact h b hb hm
    · exact hfirst b hm hlt

/-- The range may be made longer where there is nothing. -/
theorem extend (h : FirstIn P lo mid r) (hle : mid ≤ hi) (hnone : ∀ b, mid ≤ b → b < hi → ¬P b) :
    FirstIn P lo hi r := by
  cases r with
  | none =>
    intro b hb hlt
    obtain hm | hm := Nat.lt_or_ge b mid
    · exact h b hb hm
    · exact hnone b hm hlt
  | some a => exact h.within (h.2.1.trans_le hle)

/-- A search relative to a base. -/
theorem shift {base n : ℕ} (h : FirstIn (fun i => P (base + i)) 0 n r) :
    FirstIn P base (base + n) (r.map (base + ·)) := by
  cases r with
  | none =>
    intro b hb hlt
    obtain ⟨i, rfl⟩ := Nat.exists_eq_add_of_le hb
    exact h i (Nat.zero_le _) (by omega)
  | some a =>
    obtain ⟨-, hhi, ha, hfirst⟩ := h
    refine ⟨Nat.le_add_right _ _, Nat.add_lt_add_left hhi _, ha, fun b hb hlt => ?_⟩
    obtain ⟨i, rfl⟩ := Nat.exists_eq_add_of_le hb
    exact hfirst i (Nat.zero_le _) (Nat.lt_of_add_lt_add_left hlt)

theorem find?_range {p : ℕ → Bool} (n : ℕ) :
    FirstIn (fun i => p i = true) 0 n ((List.range n).find? p) := by
  cases hfind : (List.range n).find? p with
  | none =>
    intro b _ hlt
    exact List.find?_eq_none.mp hfind b (List.mem_range.mpr hlt)
  | some a =>
    have hrange := List.find?_range_eq_some.mp hfind
    refine ⟨Nat.zero_le _, List.mem_range.mp hrange.2.1, hrange.1, fun b _ hlt => ?_⟩
    simpa using hrange.2.2 b hlt

/-- What is first is determined. -/
theorem eq_some_iff (h : FirstIn P lo hi r) {a : ℕ} :
    r = some a ↔ (lo ≤ a ∧ a < hi ∧ P a) ∧ ∀ b, lo ≤ b → b < a → ¬P b := by
  constructor
  · rintro rfl
    exact ⟨⟨h.1, h.2.1, h.2.2.1⟩, h.2.2.2⟩
  · rintro ⟨⟨hlo, hhi, ha⟩, hfirst⟩
    cases r with
    | none => exact absurd ha (h a hlo hhi)
    | some c =>
      obtain ⟨hclo, -, hc, hcfirst⟩ := h
      obtain hlt | rfl | hlt := Nat.lt_trichotomy c a
      · exact absurd hc (hfirst c hclo hlt)
      · rfl
      · exact absurd ha (hcfirst a hlo hlt)

theorem eq_none_iff (h : FirstIn P lo hi r) : r = none ↔ ∀ b, lo ≤ b → b < hi → ¬P b := by
  cases r with
  | none => exact iff_of_true rfl h
  | some a => exact iff_of_false (by simp) fun hnone => hnone a h.1 h.2.1 h.2.2.1

end FirstIn

end Infra
