import Mathlib.Data.List.Basic

/-!
# Text

Searching a text and cutting it: `find` and `rfind` as `std::string` has them, the lines of a text
and the text of lines.
-/

namespace Infra

variable {α : Type*} [DecidableEq α]

/-! ## searching -/

/-- The first place of a pattern. -/
def find (pat : List α) : List α → Option ℕ
  | [] => if pat = [] then some 0 else none
  | a :: as => if pat <+: a :: as then some 0 else (find pat as).map (· + 1)

/-- The last place of an element. -/
def rfind (a : α) : List α → Option ℕ
  | [] => none
  | b :: bs =>
    match rfind a bs with
    | some i => some (i + 1)
    | none => if b = a then some 0 else none

/-- The first place of a pattern, not before a position. -/
def findFrom (pat as : List α) (pos : ℕ) : Option ℕ :=
  if as.length < pos then none else (find pat (as.drop pos)).map (· + pos)

/-- So many elements from a position on. -/
def substr (as : List α) (pos count : ℕ) : List α := (as.drop pos).take count

theorem find_of_prefix {pat as : List α} (h : pat <+: as) : find pat as = some 0 := by
  cases as with
  | nil => rw [find, if_pos (List.prefix_nil.mp h)]
  | cons a as => rw [find, if_pos h]

/-- A pattern is not found before its first element. -/
theorem find_append_of_notMem {a : α} {pat pre : List α} (h : a ∉ pre) (as : List α) :
    find (a :: pat) (pre ++ as) = (find (a :: pat) as).map (· + pre.length) := by
  induction pre with
  | nil => simp
  | cons b pre ih =>
    have hab : ¬ a :: pat <+: b :: (pre ++ as) := by
      intro hp
      obtain rfl := (List.cons_prefix_cons.mp hp).1
      exact h List.mem_cons_self
    rw [List.cons_append, find, if_neg hab, ih fun hm => h (List.mem_cons_of_mem b hm),
      Option.map_map]
    congr 1

/-- A pattern where its first element first is. -/
theorem find_append_self {a : α} {pat pre : List α} (h : a ∉ pre) (as : List α) :
    find (a :: pat) (pre ++ (a :: pat ++ as)) = some pre.length := by
  rw [find_append_of_notMem h, find_of_prefix (List.prefix_append _ _)]
  simp

theorem find_eq_some {pat as : List α} {i : ℕ} :
    find pat as = some i ↔
      i ≤ as.length ∧ pat <+: as.drop i ∧ ∀ j < i, ¬ pat <+: as.drop j := by
  induction as generalizing i with
  | nil =>
    rw [find]
    split
    · next hpat =>
      subst hpat
      constructor
      · intro h
        cases h
        simp
      · rintro ⟨hi, -, -⟩
        simp only [List.length_nil, Nat.le_zero] at hi
        rw [hi]
    · next hpat => simp [hpat]
  | cons a as ih =>
    rw [find]
    split
    · next hp =>
      constructor
      · intro h
        cases h
        exact ⟨Nat.zero_le _, hp, fun j hj => absurd hj (Nat.not_lt_zero j)⟩
      · rintro ⟨-, -, hfirst⟩
        cases i with
        | zero => rfl
        | succ i => exact absurd hp (hfirst 0 (Nat.succ_pos i))
    · next hp =>
      cases i with
      | zero => simp [hp]
      | succ i =>
        simp only [Option.map_eq_some_iff, Nat.add_right_cancel_iff, exists_eq_right, ih,
          List.length_cons, List.drop_succ_cons, Nat.add_le_add_iff_right]
        refine and_congr_right fun _ => and_congr_right fun _ => ?_
        constructor
        · intro hfirst j hj
          cases j with
          | zero => exact hp
          | succ j => exact hfirst j (by omega)
        · intro hfirst j hj
          exact hfirst (j + 1) (by omega)

/-- What a search from a position finds: the first place from there. -/
theorem findFrom_eq_some {pat as : List α} {pos i : ℕ} :
    findFrom pat as pos = some i ↔
      pos ≤ i ∧ i ≤ as.length ∧ pat <+: as.drop i ∧
        ∀ j, pos ≤ j → j < i → ¬ pat <+: as.drop j := by
  unfold findFrom
  split
  · next hpos =>
    constructor
    · exact fun h => by cases h
    · rintro ⟨hle, hi, -, -⟩
      omega
  · next hpos =>
    simp only [Option.map_eq_some_iff, find_eq_some, List.length_drop, List.drop_drop]
    constructor
    · rintro ⟨k, ⟨hk, hp, hfirst⟩, rfl⟩
      refine ⟨by omega, by omega, by rwa [Nat.add_comm], fun j hj hjk => ?_⟩
      have := hfirst (j - pos) (by omega)
      rwa [Nat.add_sub_cancel' hj] at this
    · rintro ⟨hle, hi, hp, hfirst⟩
      refine ⟨i - pos, ⟨by omega, by rwa [Nat.add_sub_cancel' hle], fun j hj => ?_⟩, by omega⟩
      exact hfirst (pos + j) (by omega) (by omega)

theorem find_eq_none {pat as : List α} :
    find pat as = none ↔ ∀ j ≤ as.length, ¬ pat <+: as.drop j := by
  constructor
  · induction as with
    | nil =>
      intro h j _ hp
      rw [find] at h
      split at h
      · cases h
      · next hpat => exact hpat (List.prefix_nil.mp (List.drop_nil ▸ hp))
    | cons a as ih =>
      intro h j hj
      rw [find] at h
      split at h
      · cases h
      · next hp =>
        cases j with
        | zero => exact hp
        | succ j => exact ih (Option.map_eq_none_iff.mp h) j (Nat.le_of_succ_le_succ hj)
  · intro h
    cases hfind : find pat as with
    | none => rfl
    | some i =>
      obtain ⟨hi, hp, -⟩ := find_eq_some.mp hfind
      exact absurd hp (h i hi)

theorem findFrom_eq_none {pat as : List α} {pos : ℕ} :
    findFrom pat as pos = none ↔ ∀ j, pos ≤ j → j ≤ as.length → ¬ pat <+: as.drop j := by
  constructor
  · intro h j hj hjl
    rw [findFrom, if_neg (by omega), Option.map_eq_none_iff, find_eq_none] at h
    have hdrop := h (j - pos) (by rw [List.length_drop]; omega)
    rwa [List.drop_drop, Nat.add_sub_cancel' hj] at hdrop
  · intro h
    cases hfind : findFrom pat as pos with
    | none => rfl
    | some i =>
      obtain ⟨hle, hl, hp, -⟩ := findFrom_eq_some.mp hfind
      exact absurd hp (h i hle hl)

/-- What is found stays the first place when more comes. -/
theorem find_append_of_some {pat as : List α} {i : ℕ} (h : find pat as = some i) (more : List α) :
    find pat (as ++ more) = some i := by
  obtain ⟨hi, hp, hfirst⟩ := find_eq_some.mp h
  have hlen := hp.length_le
  rw [List.length_drop] at hlen
  refine find_eq_some.mpr ⟨?_, ?_, fun j hj hpj => hfirst j hj ?_⟩
  · rw [List.length_append]
    omega
  · rw [List.drop_append_of_le_length hi]
    exact hp.trans (List.prefix_append _ _)
  · rw [List.drop_append_of_le_length (by omega)] at hpj
    refine List.prefix_of_prefix_length_le hpj (List.prefix_append _ _) ?_
    rw [List.length_drop]
    omega

/-- A search that starts where a text does. -/
theorem findFrom_append {pat : List α} (pre as : List α) :
    findFrom pat (pre ++ as) pre.length = (find pat as).map (· + pre.length) := by
  rw [findFrom, if_neg (by simp), List.drop_left]

theorem rfind_eq_none {a : α} {as : List α} : rfind a as = none ↔ a ∉ as := by
  induction as with
  | nil => simp [rfind]
  | cons b as ih =>
    rw [rfind, List.mem_cons, not_or, ← ih]
    cases rfind a as with
    | none => simp [eq_comm]
    | some i => simp

theorem rfind_lt {a : α} {as : List α} {i : ℕ} (h : rfind a as = some i) : i < as.length := by
  induction as generalizing i with
  | nil => cases h
  | cons b as ih =>
    rw [rfind] at h
    rw [List.length_cons]
    cases hrest : rfind a as with
    | some j =>
      rw [hrest] at h
      cases h
      exact Nat.succ_lt_succ (ih hrest)
    | none =>
      rw [hrest] at h
      dsimp only at h
      split at h
      · cases h
        omega
      · cases h

theorem rfind_append_cons {a : α} {as : List α} (h : a ∉ as) (pre : List α) :
    rfind a (pre ++ a :: as) = some pre.length := by
  induction pre with
  | nil => simp [rfind, rfind_eq_none.mpr h]
  | cons b pre ih => rw [List.cons_append, rfind, ih, List.length_cons]

/-! ## lines -/

/-- Each line with its end. -/
def unlines (nl : α) (ls : List (List α)) : List α := ls.flatMap (· ++ [nl])

/-- The lines of a text, without their ends; the last one may have none. -/
def lines (nl : α) : List α → List (List α)
  | [] => []
  | a :: as =>
    if a = nl then [] :: lines nl as
    else
      match lines nl as with
      | [] => [[a]]
      | l :: ls => (a :: l) :: ls

section Lines

variable {nl : α} {ls : List (List α)}

omit [DecidableEq α] in
@[simp]
theorem unlines_nil : unlines nl [] = [] := rfl

omit [DecidableEq α] in
theorem unlines_cons (l : List α) (ls : List (List α)) :
    unlines nl (l :: ls) = l ++ nl :: unlines nl ls := by
  simp [unlines]

omit [DecidableEq α] in
@[simp]
theorem unlines_append (ls ls' : List (List α)) :
    unlines nl (ls ++ ls') = unlines nl ls ++ unlines nl ls' :=
  List.flatMap_append

theorem lines_cons_end {l : List α} (h : nl ∉ l) (as : List α) :
    lines nl (l ++ nl :: as) = l :: lines nl as := by
  induction l with
  | nil => rw [List.nil_append, lines, if_pos rfl]
  | cons a l ih =>
    obtain ⟨ha, hl⟩ := not_or.mp (mt List.mem_cons.mpr h)
    rw [List.cons_append, lines, if_neg (Ne.symm ha), ih hl]

theorem lines_unlines_append (h : ∀ l ∈ ls, nl ∉ l) (as : List α) :
    lines nl (unlines nl ls ++ as) = ls ++ lines nl as := by
  induction ls with
  | nil => rfl
  | cons l ls ih =>
    rw [unlines_cons, List.append_assoc, List.cons_append, lines_cons_end (h l List.mem_cons_self),
      ih fun l' hl' => h l' (List.mem_cons_of_mem l hl'), List.cons_append]

/-- Lines are what their text is read as. -/
theorem lines_unlines (h : ∀ l ∈ ls, nl ∉ l) : lines nl (unlines nl ls) = ls := by
  have hlines := lines_unlines_append h []
  rwa [List.append_nil, lines, List.append_nil] at hlines

theorem notMem_of_mem_lines {as l : List α} (h : l ∈ lines nl as) : nl ∉ l := by
  induction as generalizing l with
  | nil => cases h
  | cons a as ih =>
    rw [lines] at h
    split at h
    · cases List.mem_cons.mp h with
      | inl hl =>
        rw [hl]
        exact List.not_mem_nil
      | inr hl => exact ih hl
    · next ha =>
      split at h
      · rw [List.mem_singleton.mp h, List.mem_singleton]
        exact fun h => ha h.symm
      · next l' ls' hls =>
        cases List.mem_cons.mp h with
        | inl hl =>
          rw [hl, List.mem_cons, not_or]
          exact ⟨fun h => ha h.symm, ih (hls ▸ List.mem_cons_self)⟩
        | inr hl => exact ih (hls ▸ List.mem_cons_of_mem l' hl)

omit [DecidableEq α] in
/-- Lines with an end between them, and one after the last. -/
theorem intercalate_append_end (h : ls ≠ []) : [nl].intercalate ls ++ [nl] = unlines nl ls := by
  induction ls with
  | nil => exact absurd rfl h
  | cons l ls ih =>
    cases ls with
    | nil => simp [unlines]
    | cons l' ls =>
      rw [unlines_cons, ← ih (by simp), List.intercalate_cons_cons]
      simp

/-- The text between line ends, before the first and after the last. -/
theorem unlines_splitOn (nl : α) (as : List α) : unlines nl (as.splitOn nl) = as ++ [nl] := by
  rw [← intercalate_append_end (List.splitOn_ne_nil nl as), List.intercalate_splitOn]

/-- Lines in front of lines are their first ones. -/
theorem prefix_of_unlines_prefix {ls' : List (List α)} (h : ∀ l ∈ ls, nl ∉ l)
    (h' : ∀ l ∈ ls', nl ∉ l) (hp : unlines nl ls <+: unlines nl ls') : ls <+: ls' := by
  obtain ⟨rest, hrest⟩ := hp
  rw [← lines_unlines h', ← hrest, lines_unlines_append h]
  exact List.prefix_append _ _

theorem notMem_of_mem_splitOn {as l : List α} (h : l ∈ as.splitOn nl) : nl ∉ l := by
  induction as generalizing l with
  | nil =>
    rw [List.splitOn_nil, List.mem_singleton] at h
    rw [h]
    exact List.not_mem_nil
  | cons a as ih =>
    rw [List.splitOn_cons_eq_if_modifyHead] at h
    split at h
    · cases List.mem_cons.mp h with
      | inl hl =>
        rw [hl]
        exact List.not_mem_nil
      | inr hl => exact ih hl
    · next ha =>
      cases hsplit : as.splitOn nl with
      | nil => exact absurd hsplit (List.splitOn_ne_nil nl as)
      | cons l' ls' =>
        rw [hsplit, List.modifyHead_cons] at h
        cases List.mem_cons.mp h with
        | inl hl =>
          rw [hl, List.mem_cons, not_or]
          refine ⟨fun h => ha (by rw [h]; simp), ih (hsplit ▸ List.mem_cons_self)⟩
        | inr hl => exact ih (hsplit ▸ List.mem_cons_of_mem l' hl)

end Lines

/-! ## parts -/

section Parts

omit [DecidableEq α]

variable {sep : List α} {ps qs : List (List α)}

theorem intercalate_cons (sep p : List α) (ps : List (List α)) :
    sep.intercalate (p :: ps) = p ++ ps.flatMap (sep ++ ·) := by
  induction ps generalizing p with
  | nil => simp
  | cons q ps ih =>
    rw [List.intercalate_cons_cons, ih]
    simp

/-- What stands before and after one of the parts. -/
theorem intercalate_append_cons (sep : List α) (ps : List (List α)) (p : List α)
    (qs : List (List α)) :
    sep.intercalate (ps ++ p :: qs) = ps.flatMap (· ++ sep) ++ (p ++ qs.flatMap (sep ++ ·)) := by
  induction ps with
  | nil => exact intercalate_cons sep p qs
  | cons q ps ih =>
    rw [List.cons_append, intercalate_cons]
    cases ps with
    | nil => simp
    | cons r ps =>
      rw [List.cons_append, List.flatMap_cons, List.append_assoc, ← intercalate_cons,
        ← List.cons_append, ih]
      simp

/-- A part ends where the first element of a separator is. -/
theorem append_inj_of_notMem {a : α} {p q as bs : List α} (hp : a ∉ p) (hq : a ∉ q)
    (has : ∀ b ∈ as.head?, b = a) (hbs : ∀ b ∈ bs.head?, b = a) (h : p ++ as = q ++ bs) :
    p = q ∧ as = bs := by
  induction p generalizing q with
  | nil =>
    cases q with
    | nil => exact ⟨rfl, h⟩
    | cons c q =>
      rw [List.nil_append] at h
      subst h
      exact absurd (has c rfl ▸ List.mem_cons_self) hq
  | cons c p ih =>
    cases q with
    | nil =>
      rw [List.nil_append] at h
      subst h
      exact absurd (hbs c rfl ▸ List.mem_cons_self) hp
    | cons d q =>
      obtain ⟨rfl, htail⟩ := List.cons.inj h
      obtain ⟨rfl, hrest⟩ := ih (fun hmem => hp (List.mem_cons_of_mem _ hmem))
        (fun hmem => hq (List.mem_cons_of_mem _ hmem)) htail
      exact ⟨rfl, hrest⟩

/-- The parts are read back: none is empty or holds the first element of the separator. -/
theorem intercalate_injective {a : α} {sep' : List α} (hps : ∀ p ∈ ps, p ≠ [] ∧ a ∉ p)
    (hqs : ∀ q ∈ qs, q ≠ [] ∧ a ∉ q)
    (h : (a :: sep').intercalate ps = (a :: sep').intercalate qs) : ps = qs := by
  have hhead : ∀ ps : List (List α), ∀ b ∈ (ps.flatMap ((a :: sep') ++ ·)).head?, b = a := by
    rintro (_ | ⟨p, ps⟩) b hb
    · cases hb
    · cases hb
      rfl
  induction ps generalizing qs with
  | nil =>
    cases qs with
    | nil => rfl
    | cons q qs =>
      rw [intercalate_cons] at h
      exact absurd (List.append_eq_nil_iff.mp h.symm).1 (hqs q List.mem_cons_self).1
  | cons p ps ih =>
    cases qs with
    | nil =>
      rw [intercalate_cons] at h
      exact absurd (List.append_eq_nil_iff.mp h).1 (hps p List.mem_cons_self).1
    | cons q qs =>
      rw [intercalate_cons, intercalate_cons] at h
      obtain ⟨rfl, hrest⟩ := append_inj_of_notMem (hps p List.mem_cons_self).2
        (hqs q List.mem_cons_self).2 (hhead ps) (hhead qs) h
      have hps := fun r hr => hps r (List.mem_cons_of_mem _ hr)
      have hqs := fun r hr => hqs r (List.mem_cons_of_mem _ hr)
      cases ps with
      | nil =>
        cases qs with
        | nil => rfl
        | cons r qs => cases hrest
      | cons r ps =>
        cases qs with
        | nil => cases hrest
        | cons r' qs =>
          rw [List.flatMap_cons, List.flatMap_cons, List.append_assoc, List.append_assoc,
            ← intercalate_cons, ← intercalate_cons] at hrest
          rw [ih hps hqs (List.append_cancel_left hrest)]

end Parts

end Infra
