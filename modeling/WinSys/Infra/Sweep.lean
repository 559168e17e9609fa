import Mathlib.Data.List.Basic

/-!
# Sweeping a queue

One pass over a queue that takes some of the elements out and acts on them, and keeps the others
in order. Whether an element is taken may depend on the state, which the elements taken before it
have changed.
-/

namespace Infra

variable {σ δ : Type*}

/-- Goes over the queue once: what `take` accepts is acted on and leaves it. -/
def sweep (take : σ → δ → Bool) (act : σ → δ → σ) : σ → List δ → σ × List δ
  | s, [] => (s, [])
  | s, d :: ds =>
    if take s d then sweep take act (act s d) ds
    else ((sweep take act s ds).1, d :: (sweep take act s ds).2)

variable {take : σ → δ → Bool} {act : σ → δ → σ}

@[simp]
theorem sweep_nil (s : σ) : sweep take act s [] = (s, []) := rfl

theorem sweep_cons_take {s : σ} {d : δ} (ds : List δ) (h : take s d = true) :
    sweep take act s (d :: ds) = sweep take act (act s d) ds := by
  simp [sweep, h]

theorem sweep_cons_keep {s : σ} {d : δ} (ds : List δ) (h : take s d = false) :
    sweep take act s (d :: ds)
      = ((sweep take act s ds).1, d :: (sweep take act s ds).2) := by
  simp [sweep, h]

/-- A sweep over two queues in a row: the second one starts in the state the first left. -/
theorem sweep_append (s : σ) (as bs : List δ) :
    sweep take act s (as ++ bs)
      = ((sweep take act (sweep take act s as).1 bs).1,
          (sweep take act s as).2 ++ (sweep take act (sweep take act s as).1 bs).2) := by
  induction as generalizing s with
  | nil => simp
  | cons a as ih =>
    cases h : take s a with
    | true => rw [List.cons_append, sweep_cons_take _ h, sweep_cons_take _ h, ih]
    | false => rw [List.cons_append, sweep_cons_keep _ h, sweep_cons_keep _ h, ih]; rfl

/-- What is kept is in the queue's order. -/
theorem sweep_sublist (s : σ) (ds : List δ) : (sweep take act s ds).2.Sublist ds := by
  induction ds generalizing s with
  | nil => exact List.Sublist.refl _
  | cons d ds ih =>
    cases h : take s d with
    | true => rw [sweep_cons_take _ h]; exact (ih _).cons d
    | false => rw [sweep_cons_keep _ h]; exact (ih _).cons_cons d

/-- A queue of which nothing is taken stays as it is. -/
theorem sweep_of_none {s : σ} {ds : List δ} (h : ∀ d ∈ ds, take s d = false) :
    sweep take act s ds = (s, ds) := by
  induction ds with
  | nil => rfl
  | cons d ds ih =>
    rw [sweep_cons_keep _ (h d List.mem_cons_self), ih fun e he => h e (List.mem_cons_of_mem d he)]

/--
The invariant rule of a sweep.

`P` sees the state and the queue as it would be if the sweep stopped here: the elements kept so
far, then the ones not reached yet. Only taking an element out changes the two.
-/
theorem sweep_invariant {P : σ → List δ → Prop}
    (hact : ∀ s kept d rest, P s (kept ++ d :: rest) → take s d = true →
      P (act s d) (kept ++ rest)) {s : σ} (kept : List δ) {ds : List δ}
    (h : P s (kept ++ ds)) : P (sweep take act s ds).1 (kept ++ (sweep take act s ds).2) := by
  induction ds generalizing s kept with
  | nil => exact h
  | cons d ds ih =>
    cases ht : take s d with
    | true =>
      rw [sweep_cons_take _ ht]
      exact ih kept (hact s kept d ds h ht)
    | false =>
      rw [sweep_cons_keep _ ht]
      have hk : kept ++ d :: (sweep take act s ds).2
          = (kept ++ [d]) ++ (sweep take act s ds).2 := by simp
      rw [hk]
      exact ih (kept ++ [d]) (by simpa using h)

/-- The rule for a whole queue. -/
theorem sweep_invariant_all {P : σ → List δ → Prop}
    (hact : ∀ s kept d rest, P s (kept ++ d :: rest) → take s d = true →
      P (act s d) (kept ++ rest)) {s : σ} {ds : List δ} (h : P s ds) :
    P (sweep take act s ds).1 (sweep take act s ds).2 :=
  sweep_invariant hact [] h

/-- A property of the state that acting keeps. -/
theorem sweep_state {P : σ → Prop} (hact : ∀ s d, P s → take s d = true → P (act s d)) {s : σ}
    {ds : List δ} (h : P s) : P (sweep take act s ds).1 :=
  sweep_invariant_all (P := fun s _ => P s) (fun s _ d _ h ht => hact s d h ht) h

/-- A property of the state that acting on the queue's elements keeps. -/
theorem sweep_state_mem {P : σ → Prop} {s : σ} {ds : List δ}
    (hact : ∀ s d, d ∈ ds → P s → P (act s d)) (h : P s) : P (sweep take act s ds).1 := by
  induction ds generalizing s with
  | nil => exact h
  | cons d ds ih =>
    have hrest : ∀ s e, e ∈ ds → P s → P (act s e) :=
      fun s e he => hact s e (List.mem_cons_of_mem d he)
    cases ht : take s d with
    | true =>
      rw [sweep_cons_take _ ht]
      exact ih hrest (hact s d List.mem_cons_self h)
    | false =>
      rw [sweep_cons_keep _ ht]
      exact ih hrest h

/-- Each element the sweep acts on meets `ok`, which sees the state it is acted on in. -/
def SweepAlong (take : σ → δ → Bool) (act : σ → δ → σ) (ok : σ → δ → Prop) : σ → List δ → Prop
  | _, [] => True
  | s, d :: ds =>
    if take s d then ok s d ∧ SweepAlong take act ok (act s d) ds else SweepAlong take act ok s ds

instance instDecidableSweepAlong {ok : σ → δ → Prop} [∀ s d, Decidable (ok s d)] :
    ∀ (s : σ) (ds : List δ), Decidable (SweepAlong take act ok s ds)
  | _, [] => .isTrue trivial
  | s, d :: ds =>
    let _taken : Decidable (SweepAlong take act ok (act s d) ds) := instDecidableSweepAlong _ ds
    let _kept : Decidable (SweepAlong take act ok s ds) := instDecidableSweepAlong s ds
    inferInstanceAs (Decidable (if take s d then ok s d ∧ SweepAlong take act ok (act s d) ds
      else SweepAlong take act ok s ds))

/-- The invariant rule of a sweep whose elements all meet `ok`. -/
theorem SweepAlong.invariant {ok : σ → δ → Prop} {P : σ → List δ → Prop}
    (hact : ∀ s kept d rest, P s (kept ++ d :: rest) → take s d = true → ok s d →
      P (act s d) (kept ++ rest)) {s : σ} (kept : List δ) {ds : List δ}
    (hok : SweepAlong take act ok s ds) (h : P s (kept ++ ds)) :
    P (sweep take act s ds).1 (kept ++ (sweep take act s ds).2) := by
  induction ds generalizing s kept with
  | nil => exact h
  | cons d ds ih =>
    cases ht : take s d with
    | true =>
      rw [SweepAlong, if_pos ht] at hok
      rw [sweep_cons_take _ ht]
      exact ih kept hok.2 (hact s kept d ds h ht hok.1)
    | false =>
      rw [SweepAlong, if_neg (by simp [ht])] at hok
      rw [sweep_cons_keep _ ht, List.append_cons]
      exact ih (kept ++ [d]) hok (by simpa using h)

/--
An element that is bound to be taken is acted on.

While `I` holds the element is taken, and acting on it makes `R`, which then stays.
-/
theorem sweep_reaches {I R : σ → Prop} {d : δ} (htake : ∀ s, I s → take s d = true)
    (hd : ∀ s, I s → R (act s d)) (hI : ∀ s e, I s → I (act s e)) (hR : ∀ s e, R s → R (act s e))
    {s : σ} {ds : List δ} (h : I s) (hmem : d ∈ ds) : R (sweep take act s ds).1 := by
  induction ds generalizing s with
  | nil => simp at hmem
  | cons e ds ih =>
    by_cases he : d = e
    · subst he
      rw [sweep_cons_take _ (htake s h)]
      exact sweep_state (fun s e hs _ => hR s e hs) (hd s h)
    · have hrest := (List.mem_cons.mp hmem).resolve_left he
      cases ht : take s e with
      | true =>
        rw [sweep_cons_take _ ht]
        exact ih (hI s e h) hrest
      | false =>
        rw [sweep_cons_keep _ ht]
        exact ih h hrest

/-- Two sweeps over one queue from related states: they take the same elements. -/
theorem sweep_related {σ' : Type*} {take' : σ' → δ → Bool} {act' : σ' → δ → σ'}
    {R : σ → σ' → Prop} {s : σ} {s' : σ'} {ds : List δ}
    (htake : ∀ s s' d, d ∈ ds → R s s' → take s d = take' s' d)
    (hact : ∀ s s' d, d ∈ ds → R s s' → R (act s d) (act' s' d)) (h : R s s') :
    R (sweep take act s ds).1 (sweep take' act' s' ds).1
      ∧ (sweep take act s ds).2 = (sweep take' act' s' ds).2 := by
  induction ds generalizing s s' with
  | nil => exact ⟨h, rfl⟩
  | cons d ds ih =>
    have htake' := fun s s' e he => htake s s' e (List.mem_cons_of_mem d he)
    have hact' := fun s s' e he => hact s s' e (List.mem_cons_of_mem d he)
    have hd := htake s s' d List.mem_cons_self h
    cases ht : take s d with
    | true =>
      rw [ht] at hd
      rw [sweep_cons_take _ ht, sweep_cons_take _ hd.symm]
      exact ih htake' hact' (hact s s' d List.mem_cons_self h)
    | false =>
      rw [ht] at hd
      rw [sweep_cons_keep _ ht, sweep_cons_keep _ hd.symm]
      obtain ⟨hr, heq⟩ := ih htake' hact' h
      exact ⟨hr, congrArg (d :: ·) heq⟩

/-- Where acting never makes an element less ready, what is kept was not ready at the start. -/
theorem sweep_kept (hmono : ∀ s d e, take s d = true → take (act s e) d = true) {s : σ}
    {ds : List δ} {d : δ} (h : d ∈ (sweep take act s ds).2) : take s d = false := by
  induction ds generalizing s with
  | nil => simp at h
  | cons e ds ih =>
    cases ht : take s e with
    | true =>
      rw [sweep_cons_take _ ht] at h
      cases hd : take s d with
      | true =>
        have hlater := ih h
        rw [hmono s d e hd] at hlater
        exact hlater
      | false => rfl
    | false =>
      rw [sweep_cons_keep _ ht] at h
      rcases List.mem_cons.mp h with rfl | h
      · exact ht
      · exact ih h

end Infra
