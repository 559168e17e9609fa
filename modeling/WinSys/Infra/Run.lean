import Mathlib.Data.List.Basic

/-!
# Runs of a step function

A component is a state with a step function; a run is the list of the calls it gets. A fact
about every run is proved from a fact about one step (`run_invariant`). Facts that only hold
while the calls keep to a condition carry it as `Along`, which sees the state before each call.
-/

namespace Infra

variable {σ α : Type*} (step : σ → α → σ)

/-- The state after the calls, in order. -/
def run (s : σ) (as : List α) : σ := as.foldl step s

/-- Each call of the run meets `ok`, which sees the state before it. -/
def Along (ok : σ → α → Prop) : σ → List α → Prop
  | _, [] => True
  | s, a :: as => ok s a ∧ Along ok (step s a) as

section

variable {step}

instance instDecidableAlong {ok : σ → α → Prop} [∀ s a, Decidable (ok s a)] :
    ∀ (s : σ) (as : List α), Decidable (Along step ok s as)
  | _, [] => .isTrue trivial
  | s, a :: as =>
    let _rest : Decidable (Along step ok (step s a) as) := instDecidableAlong (step s a) as
    inferInstanceAs (Decidable (ok s a ∧ Along step ok (step s a) as))

@[simp]
theorem run_nil (s : σ) : run step s [] = s := rfl

@[simp]
theorem run_cons (s : σ) (a : α) (as : List α) : run step s (a :: as) = run step (step s a) as :=
  rfl

@[simp]
theorem run_append (s : σ) (as bs : List α) :
    run step s (as ++ bs) = run step (run step s as) bs :=
  List.foldl_append

@[simp]
theorem along_nil (ok : σ → α → Prop) (s : σ) : Along step ok s [] := trivial

@[simp]
theorem along_cons {ok : σ → α → Prop} {s : σ} {a : α} {as : List α} :
    Along step ok s (a :: as) ↔ ok s a ∧ Along step ok (step s a) as :=
  Iff.rfl

@[simp]
theorem along_append {ok : σ → α → Prop} {s : σ} {as bs : List α} :
    Along step ok s (as ++ bs) ↔ Along step ok s as ∧ Along step ok (run step s as) bs := by
  induction as generalizing s with
  | nil => simp
  | cons a as ih => simp [ih, and_assoc]

theorem Along.mono {ok ok' : σ → α → Prop} (h : ∀ s a, ok s a → ok' s a) {s : σ} {as : List α}
    (hr : Along step ok s as) : Along step ok' s as := by
  induction as generalizing s with
  | nil => trivial
  | cons a as ih => exact ⟨h s a hr.1, ih hr.2⟩

/-- `Along.mono` where an invariant of the steps helps. -/
theorem Along.mono_of_invariant {ok ok' : σ → α → Prop} (inv : σ → Prop)
    (hstep : ∀ s a, inv s → ok s a → inv (step s a)) (h : ∀ s a, inv s → ok s a → ok' s a)
    {s : σ} {as : List α} (hs : inv s) (hr : Along step ok s as) : Along step ok' s as := by
  induction as generalizing s with
  | nil => trivial
  | cons a as ih => exact ⟨h s a hs hr.1, ih (hstep s a hs hr.1) hr.2⟩

theorem Along.and {ok ok' : σ → α → Prop} {s : σ} {as : List α} (h : Along step ok s as)
    (h' : Along step ok' s as) : Along step (fun s a => ok s a ∧ ok' s a) s as := by
  induction as generalizing s with
  | nil => trivial
  | cons a as ih => exact ⟨⟨h.1, h'.1⟩, ih h.2 h'.2⟩

/-- What holds along a run holds of each call, at the state before it. -/
theorem along_iff {ok : σ → α → Prop} {s : σ} {as : List α} :
    Along step ok s as ↔
      ∀ before a after, as = before ++ a :: after → ok (run step s before) a := by
  induction as generalizing s with
  | nil => exact iff_of_true trivial fun before a after h => by simp at h
  | cons a as ih =>
    rw [along_cons, ih]
    constructor
    · rintro ⟨ha, hrest⟩ before b after heq
      cases before with
      | nil =>
        cases heq
        exact ha
      | cons c before =>
        cases heq
        exact hrest before b after rfl
    · exact fun h => ⟨h [] a as rfl, fun before b after heq => h (a :: before) b after (heq ▸ rfl)⟩

/-- A condition on the calls alone holds along every run of such calls. -/
theorem along_of_forall {ok : α → Prop} {s : σ} {as : List α} (h : ∀ a ∈ as, ok a) :
    Along step (fun _ a => ok a) s as := by
  induction as generalizing s with
  | nil => trivial
  | cons a as ih => exact ⟨h a List.mem_cons_self, ih fun b hb => h b (List.mem_cons_of_mem a hb)⟩

end

/-- What each step that meets `ok` preserves holds after every run whose steps all meet it. -/
theorem run_invariant {ok : σ → α → Prop} (inv : σ → Prop)
    (hstep : ∀ s a, inv s → ok s a → inv (step s a)) {s : σ} {as : List α} (hs : inv s)
    (h : Along step ok s as) : inv (run step s as) := by
  induction as generalizing s with
  | nil => exact hs
  | cons a as ih => exact ih (hstep s a hs h.1) h.2

/-- What each step preserves, given that the call is of some kind, holds after every run of
calls of the kind. -/
theorem run_invariant_mem {ok : α → Prop} (inv : σ → Prop)
    (hstep : ∀ s a, inv s → ok a → inv (step s a)) {s : σ} {as : List α} (hs : inv s)
    (h : ∀ a ∈ as, ok a) : inv (run step s as) :=
  run_invariant step inv hstep hs (along_of_forall h)

end Infra
