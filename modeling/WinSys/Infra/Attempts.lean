import Mathlib.Data.Nat.Notation

/-!
# Calls repeated with more room

A call that needs room for what it gives is made again with more where there was not enough, so many
times at most. What it needs may change between the calls.

* `attempts`: the calls
* `Serves`: a call that gives what there is, or says what it needs
* `attempts_spec`: what they give is what there was at one of them, unless the need grew each time
-/

namespace Infra

/-- What a call gives: the data, how much room it needs, or an error. -/
inductive Tried (α : Type) where
  | done (a : α)
  | more (needed : UInt32)
  | failed (error : UInt32)
deriving DecidableEq, Repr

variable {α : Type}

/-- At most so many calls, from a call and a size on; none that is done leaves the last size. -/
def attempts (call : ℕ → UInt32 → Tried α) (grow : UInt32 → UInt32 → UInt32) :
    ℕ → ℕ → UInt32 → Tried α
  | 0, _, size => .more size
  | turns + 1, k, size =>
    match call k size with
    | .more needed => attempts call grow turns (k + 1) (grow size needed)
    | answer => answer

/-- Each call gives what there is if it has room enough for it, and says what it needs otherwise. -/
structure Serves (call : ℕ → UInt32 → Tried α) (content : ℕ → UInt32 → α) (need : ℕ → UInt32) :
    Prop where
  fits : ∀ {k size}, need k ≤ size → call k size = .done (content k size)
  small : ∀ {k size}, size < need k → call k size = .more (need k)

/-- What is needed is given, at least. -/
def Enlarges (grow : UInt32 → UInt32 → UInt32) (need : ℕ → UInt32) : Prop :=
  ∀ k size, size < need k → need k ≤ grow size (need k)

variable {call : ℕ → UInt32 → Tried α} {grow : UInt32 → UInt32 → UInt32}
  {content : ℕ → UInt32 → α} {need : ℕ → UInt32}

/-- **What the calls give** is what there was at one of them, with room enough for it; or else what
there is has grown before each call but the first, which had too little room already. -/
theorem attempts_spec (h : Serves call content need) (hgrow : Enlarges grow need) (turns k : ℕ)
    (size : UInt32) :
    (∃ i < turns, ∃ room, need (k + i) ≤ room
        ∧ attempts call grow turns k size = .done (content (k + i) room))
      ∨ (0 < turns → size < need k) ∧ ∀ i, i + 1 < turns → need (k + i) < need (k + i + 1) := by
  induction turns generalizing k size with
  | zero => exact .inr ⟨nofun, nofun⟩
  | succ turns ih =>
    rw [attempts]
    by_cases hfits : need k ≤ size
    · rw [h.fits hfits]
      exact .inl ⟨0, Nat.succ_pos _, size, hfits, rfl⟩
    · have hsmall := UInt32.not_le.mp hfits
      rw [h.small hsmall]
      obtain ⟨i, hi, room, hroom, heq⟩ | ⟨hnext, hgrows⟩ := ih (k + 1) (grow size (need k))
      · rw [Nat.add_right_comm, Nat.add_assoc] at hroom heq
        exact .inl ⟨i + 1, Nat.succ_lt_succ hi, room, hroom, heq⟩
      · refine .inr ⟨fun _ => hsmall, fun i hi => ?_⟩
        cases i with
        | zero =>
          have hroom := hgrow k size hsmall
          exact UInt32.lt_of_le_of_lt hroom (hnext (Nat.lt_of_succ_lt_succ hi))
        | succ i =>
          have hlater := hgrows i (Nat.lt_of_succ_lt_succ hi)
          rwa [Nat.add_right_comm k 1 i] at hlater

/-- They give it if there is no more of it at one call than at the call before. -/
theorem attempts_of_settled (h : Serves call content need) (hgrow : Enlarges grow need) (turns k : ℕ)
    (size : UInt32) {j : ℕ} (hj : j + 1 < turns) (hsettled : need (k + j + 1) ≤ need (k + j)) :
    ∃ i < turns, ∃ room, need (k + i) ≤ room
      ∧ attempts call grow turns k size = .done (content (k + i) room) := by
  obtain hgiven | ⟨-, hgrows⟩ := attempts_spec h hgrow turns k size
  · exact hgiven
  · exact absurd (hgrows j hj) (UInt32.not_lt.mpr hsettled)

/-- A call that does so. -/
def serving (content : ℕ → UInt32 → α) (need : ℕ → UInt32) (k : ℕ) (size : UInt32) : Tried α :=
  if need k ≤ size then .done (content k size) else .more (need k)

theorem serves_serving (content : ℕ → UInt32 → α) (need : ℕ → UInt32) :
    Serves (serving content need) content need where
  fits h := if_pos h
  small h := if_neg (UInt32.not_le.mpr h)

end Infra
