import Mathlib.Data.List.DropRight

/-!
# Blanks around a text

`find_first_not_of` and `find_last_not_of` cut the blanks off a text; inside it they stay.

* `trimmed`: a text without the blanks at its ends
* `trimmed_cases`: what a text is around its trimmed one
* `trimmed_blanks`: blanks around a trimmed text go
-/

namespace Infra

variable {α : Type*} {p q : α → Bool} {front middle back head text : List α}

/-! ## where a stretch ends -/

theorem takeWhile_congr (h : ∀ c ∈ text, p c = q c) : text.takeWhile p = text.takeWhile q := by
  induction text with
  | nil => rfl
  | cons c text ih =>
    rw [List.takeWhile_cons, List.takeWhile_cons, h c List.mem_cons_self,
      ih fun x hx => h x (List.mem_cons_of_mem c hx)]

theorem dropWhile_congr (h : ∀ c ∈ text, p c = q c) : text.dropWhile p = text.dropWhile q := by
  induction text with
  | nil => rfl
  | cons c text ih =>
    rw [List.dropWhile_cons, List.dropWhile_cons, h c List.mem_cons_self,
      ih fun x hx => h x (List.mem_cons_of_mem c hx)]

/-! ## texts without blanks at their ends -/

/-- Without the blanks at its ends. -/
def trimmed (p : α → Bool) (text : List α) : List α := (text.dropWhile p).rdropWhile p

/-- A text has a part that isn't blank, or it has none. -/
theorem trimmed_cases (p : α → Bool) (text : List α) :
    ((∀ c ∈ text, p c = true) ∧ trimmed p text = []) ∨
      ∃ front middle back, text = front ++ middle ++ back ∧ trimmed p text = middle ∧ middle ≠ []
        ∧ (∀ c ∈ front, p c = true) ∧ (∀ c ∈ back, p c = true)
        ∧ (∀ c ∈ middle.head?, p c = false) ∧ ∀ c ∈ middle.getLast?, p c = false := by
  by_cases hall : ∀ c ∈ text, p c = true
  · refine .inl ⟨hall, ?_⟩
    rw [trimmed, List.dropWhile_eq_nil_iff.mpr hall]
    rfl
  · set tail := text.dropWhile p with htail
    have hne : tail ≠ [] := fun h => hall (List.dropWhile_eq_nil_iff.mp h)
    have hhead : ∀ c ∈ tail.head?, p c = false := by
      intro c hc
      have hfirst := List.head?_dropWhile_not p text
      rw [← htail] at hfirst
      cases hc' : tail with
      | nil => exact absurd hc' hne
      | cons d rest =>
        rw [hc'] at hfirst hc
        cases hc
        simpa using hfirst
    have hback := @List.rdropWhile_append_rtakeWhile _ p tail
    have hmiddle : tail.rdropWhile p ≠ [] := by
      intro h
      have hblank := List.rdropWhile_eq_nil_iff.mp h
      cases hc' : tail with
      | nil => exact hne hc'
      | cons d rest =>
        rw [hc'] at hblank hhead
        have hd := hhead d rfl
        rw [hblank d List.mem_cons_self] at hd
        cases hd
    refine .inr ⟨text.takeWhile p, tail.rdropWhile p, tail.rtakeWhile p, ?_, rfl,
      hmiddle, fun c hc => List.mem_takeWhile_imp hc, fun c hc => List.mem_rtakeWhile_imp hc,
      fun c hc => hhead c ?_, fun c hc => ?_⟩
    · rw [List.append_assoc, hback, htail, List.takeWhile_append_dropWhile]
    · rw [← hback, List.head?_append_of_ne_nil _ hmiddle]
      exact hc
    · have hlast := List.rdropWhile_last_not p tail hmiddle
      rw [List.getLast?_eq_some_getLast hmiddle] at hc
      cases hc
      simpa using hlast

theorem trimmed_head (text : List α) : ∀ c ∈ (trimmed p text).head?, p c = false := by
  obtain ⟨-, htrim⟩ | ⟨-, -, -, -, rfl, -, -, -, hhead, -⟩ := trimmed_cases p text
  · rw [htrim]
    intro c hc
    cases hc
  · exact hhead

theorem trimmed_sublist (text : List α) : (trimmed p text).Sublist text :=
  (List.rdropWhile_prefix _ _).sublist.trans (List.dropWhile_sublist _)

theorem dropWhile_append_of_head (hfirst : ∀ c ∈ head.head?, p c = false) (hne : head ≠ [])
    (tail : List α) : (head ++ tail).dropWhile p = head ++ tail := by
  cases head with
  | nil => exact absurd rfl hne
  | cons c head =>
    rw [List.cons_append, List.dropWhile_cons_of_neg]
    simp [hfirst c rfl]

/-- What ends with an element that is kept is kept. -/
theorem rdropWhile_append (hlast : ∀ c ∈ head.getLast?, p c = false)
    (tail : List α) : (head ++ tail).rdropWhile p = head ++ tail.rdropWhile p := by
  -- from the end of the tail, as it is cut
  induction tail using List.reverseRecOn with
  | nil =>
    rw [List.append_nil, List.rdropWhile_nil, List.append_nil, List.rdropWhile_eq_self_iff]
    intro hl
    simp [hlast _ (List.getLast?_eq_getLast_of_ne_nil hl)]
  | append_singleton tail c ih =>
    rw [← List.append_assoc, List.rdropWhile_concat, List.rdropWhile_concat, ih]
    split <;> simp

/-- A text without blanks at its ends, with blanks around it. -/
theorem trimmed_around (hhead : ∀ c ∈ middle.head?, p c = false)
    (hlast : ∀ c ∈ middle.getLast?, p c = false) (hfront : ∀ c ∈ front, p c = true)
    (hback : ∀ c ∈ back, p c = true) : trimmed p (front ++ middle ++ back) = middle := by
  rw [trimmed, List.append_assoc, List.dropWhile_append_of_pos hfront]
  by_cases hne : middle = []
  · rw [hne, List.nil_append, List.dropWhile_eq_nil_iff.mpr hback]
    rfl
  · rw [dropWhile_append_of_head hhead hne, rdropWhile_append hlast,
      List.rdropWhile_eq_nil_iff.mpr hback, List.append_nil]

theorem trimmed_trimmed (text : List α) : trimmed p (trimmed p text) = trimmed p text := by
  obtain ⟨-, htrim⟩ | ⟨front, middle, back, -, htrim, -, -, -, hhead, hlast⟩ := trimmed_cases p text
  · rw [htrim]
    rfl
  · rw [htrim]
    have haround := @trimmed_around _ p [] middle [] hhead hlast (by simp) (by simp)
    rwa [List.nil_append, List.append_nil] at haround

/-- Blanks around a trimmed text go. -/
theorem trimmed_blanks (hmiddle : trimmed p middle = middle) (hfront : ∀ c ∈ front, p c = true)
    (hback : ∀ c ∈ back, p c = true) : trimmed p (front ++ middle ++ back) = middle := by
  obtain ⟨-, hnil⟩ | ⟨_, rest, _, -, heq, -, -, -, hhead, hlast⟩ := trimmed_cases p middle
  · rw [hmiddle] at hnil
    rw [hnil]
    exact trimmed_around (by simp) (by simp) hfront hback
  · rw [hmiddle] at heq
    rw [← heq] at hhead hlast
    exact trimmed_around hhead hlast hfront hback

end Infra
