import WinSys.Infra.Text

/-!
# Splitting a text

A loop that looks for the next separator and takes what is before it, over and over, gives the parts
that `List.splitOnP` gives.

* `findFirstOf`, `pieces`: the loop
* `pieces_eq`: what it gives
* `filter_openPieces`: the loop that stops at the text's end
* `splitOn_unlines`: the parts of lines
-/

namespace Infra

variable {α : Type*} (p : α → Bool)

/-- The first place of an element, not before a position. -/
def findFirstOf (text : List α) (start : ℕ) : Option ℕ :=
  ((text.drop start).findIdx? p).map (start + ·)

/-- The parts of a text from a position on: `while (start <= size)`. -/
def pieces (text : List α) : ℕ → ℕ → List (List α)
  | 0, _ => []
  | turns + 1, start =>
    if text.length < start then []
    else
      match findFirstOf p text start with
      | none => [text.drop start]
      | some stop => substr text start (stop - start) :: pieces text turns (stop + 1)

/-- The parts of a text from a position on: `while (start < size)`. -/
def openPieces (text : List α) : ℕ → ℕ → List (List α)
  | 0, _ => []
  | turns + 1, start =>
    if text.length ≤ start then []
    else
      match findFirstOf p text start with
      | none => [text.drop start]
      | some stop => substr text start (stop - start) :: openPieces text turns (stop + 1)

variable {p} {text : List α} {start : ℕ}

/-- A text has no separator, or a first one. -/
theorem splitOnP_cases (rest : List α) :
    (rest.findIdx? p = none ∧ rest.splitOnP p = [rest]) ∨
      ∃ i, i < rest.length ∧ rest.findIdx? p = some i
        ∧ rest.splitOnP p = rest.take i :: (rest.drop (i + 1)).splitOnP p := by
  cases hfind : rest.findIdx? p with
  | none =>
    rw [List.findIdx?_eq_none_iff] at hfind
    exact .inl ⟨rfl, List.splitOnP_eq_singleton hfind⟩
  | some i =>
    obtain ⟨hi, hsep, hbefore⟩ := List.findIdx?_eq_some_iff_getElem.mp hfind
    refine .inr ⟨i, hi, rfl, ?_⟩
    have hnone : ∀ a ∈ rest.take i, p a = false := by
      intro a ha
      obtain ⟨j, hj, rfl⟩ := List.mem_take_iff_getElem.mp ha
      simpa using hbefore j (by omega)
    conv_lhs => rw [← List.take_append_drop i rest, List.drop_eq_getElem_cons hi]
    rw [List.splitOnP_append_cons_of_forall_mem hnone _ hsep]

/-- **The loop gives the parts.** -/
theorem pieces_eq {turns : ℕ} (hturns : text.length - start < turns) (hstart : start ≤ text.length) :
    pieces p text turns start = (text.drop start).splitOnP p := by
  induction turns generalizing start with
  | zero => cases hturns
  | succ turns ih =>
    rw [pieces, if_neg (by omega), findFirstOf]
    obtain ⟨hfind, hsplit⟩ | ⟨i, hi, hfind, hsplit⟩ := splitOnP_cases (p := p) (text.drop start)
    · rw [hfind, hsplit]
      rfl
    · rw [List.length_drop] at hi
      rw [hfind, hsplit, Option.map_some]
      show substr text start (start + i - start) :: pieces p text turns (start + i + 1) = _
      rw [Nat.add_sub_cancel_left, substr, ih (by omega) (by omega), List.drop_drop]
      rfl

/-- The other loop gives the same parts but for an empty last one. -/
theorem filter_openPieces {turns : ℕ} {keep : List α → Bool} (hkeep : keep [] = false)
    (hturns : text.length - start < turns) :
    (openPieces p text turns start).filter keep = ((text.drop start).splitOnP p).filter keep := by
  induction turns generalizing start with
  | zero => cases hturns
  | succ turns ih =>
    rw [openPieces]
    by_cases hend : text.length ≤ start
    · rw [if_pos hend, List.drop_eq_nil_of_le hend, List.splitOnP_nil]
      simp [hkeep]
    · rw [if_neg hend, findFirstOf]
      obtain ⟨hfind, hsplit⟩ | ⟨i, hi, hfind, hsplit⟩ := splitOnP_cases (p := p) (text.drop start)
      · rw [hfind, hsplit]
        rfl
      · rw [List.length_drop] at hi
        rw [hfind, hsplit, Option.map_some]
        show (substr text start (start + i - start)
          :: openPieces p text turns (start + i + 1)).filter keep = _
        rw [Nat.add_sub_cancel_left, substr, List.filter_cons, List.filter_cons,
          ih (by omega), List.drop_drop, Nat.add_assoc]

/-- A text of lines has one more part, behind the last end. -/
theorem splitOn_unlines [DecidableEq α] {nl : α} {ls : List (List α)} (h : ∀ l ∈ ls, nl ∉ l) :
    (unlines nl ls).splitOn nl = ls ++ [[]] := by
  induction ls with
  | nil => rfl
  | cons l ls ih =>
    rw [unlines_cons, List.splitOn_append_cons_self_of_not_mem (h l List.mem_cons_self),
      ih fun l' hl' => h l' (List.mem_cons_of_mem l hl'), List.cons_append]

end Infra
