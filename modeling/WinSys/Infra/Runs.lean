import Mathlib.Data.List.Basic
import Mathlib.Order.Basic
import Mathlib.Order.Nat

/-!
# Maximal runs

The runs of places that have a property, none of which can be made longer. They are collected from
left to right: some have been closed by a place without the property, and one may still be open.

* `MaximalRun`: a run that cannot be made longer
* `mem_runs_iff`: the collected runs are the maximal ones
-/

namespace Infra

/-- `k` places of `lo..hi` from `s` on that have the property, and no more on either side. -/
structure MaximalRun (P : ℕ → Prop) (lo hi s k : ℕ) : Prop where
  pos : 0 < k
  lower : lo ≤ s
  upper : s + k ≤ hi
  all : ∀ i, s ≤ i → i < s + k → P i
  before : lo < s → ¬P (s - 1)
  behind : s + k < hi → ¬P (s + k)

section Runs

variable (P : ℕ → Prop) [DecidablePred P] (lo : ℕ)

/-- The number of places in a row, directly before `lo + n`, that have the property. -/
def openRun : ℕ → ℕ
  | 0 => 0
  | n + 1 => if P (lo + n) then openRun n + 1 else 0

/-- The runs that end before `lo + n`. -/
def closedRuns : ℕ → List (ℕ × ℕ)
  | 0 => []
  | n + 1 =>
    if P (lo + n) ∨ openRun P lo n = 0 then closedRuns n
    else closedRuns n ++ [(lo + n - openRun P lo n, openRun P lo n)]

/-- The runs of `lo..lo + n` -/
def runs (n : ℕ) : List (ℕ × ℕ) :=
  closedRuns P lo n
    ++ if openRun P lo n = 0 then [] else [(lo + n - openRun P lo n, openRun P lo n)]

end Runs

section Lemmas

variable {P : ℕ → Prop} [DecidablePred P] {lo n m : ℕ}

/-! ## one more place -/

theorem openRun_succ (h : P (lo + n)) : openRun P lo (n + 1) = openRun P lo n + 1 := if_pos h

theorem openRun_succ_of_not (h : ¬P (lo + n)) : openRun P lo (n + 1) = 0 := if_neg h

theorem closedRuns_succ (h : P (lo + n)) : closedRuns P lo (n + 1) = closedRuns P lo n :=
  if_pos (Or.inl h)

theorem closedRuns_succ_of_not (h : ¬P (lo + n)) : closedRuns P lo (n + 1) = runs P lo n := by
  by_cases hopen : openRun P lo n = 0
  · simp [closedRuns, runs, hopen]
  · simp [closedRuns, runs, hopen, h]

theorem runs_of_open (h : openRun P lo n ≠ 0) :
    runs P lo n = closedRuns P lo n ++ [(lo + n - openRun P lo n, openRun P lo n)] := by
  rw [runs, if_neg h]

theorem runs_of_not_open (h : openRun P lo n = 0) : runs P lo n = closedRuns P lo n := by
  rw [runs, if_pos h, List.append_nil]

/-! ## the open run -/

theorem openRun_le (P : ℕ → Prop) [DecidablePred P] (lo n : ℕ) : openRun P lo n ≤ n := by
  induction n with
  | zero => exact Nat.le_refl _
  | succ n ih =>
    by_cases h : P (lo + n)
    · rw [openRun_succ h]
      exact Nat.succ_le_succ ih
    · rw [openRun_succ_of_not h]
      exact Nat.zero_le _

theorem of_openRun (lo n : ℕ) {i : ℕ} (h : lo + n ≤ i + openRun P lo n) (hlt : i < lo + n) : P i := by
  induction n with
  | zero => simp only [openRun] at h; omega
  | succ n ih =>
    by_cases hP : P (lo + n)
    · rw [openRun_succ hP] at h
      obtain hlast | hbefore := Nat.eq_or_lt_of_le (show i ≤ lo + n by omega)
      · rwa [hlast]
      · exact ih (by omega) hbefore
    · rw [openRun_succ_of_not hP] at h
      omega

theorem not_before_openRun (h : openRun P lo n < n) : ¬P (lo + n - openRun P lo n - 1) := by
  induction n with
  | zero => exact absurd h (Nat.not_lt_zero _)
  | succ n ih =>
    by_cases hP : P (lo + n)
    · rw [openRun_succ hP] at h ⊢
      have hplace : lo + (n + 1) - (openRun P lo n + 1) - 1 = lo + n - openRun P lo n - 1 := by omega
      rw [hplace]
      exact ih (by omega)
    · rw [openRun_succ_of_not hP]
      exact hP

/-- The run that is open is the maximal one that reaches the end. -/
theorem openRun_iff {s k : ℕ} :
    MaximalRun P lo (lo + n) s k ∧ s + k = lo + n
      ↔ openRun P lo n ≠ 0 ∧ s = lo + n - openRun P lo n ∧ k = openRun P lo n := by
  have hle := openRun_le P lo n
  constructor
  · rintro ⟨hrun, hend⟩
    have hpos := hrun.pos
    have hlower := hrun.lower
    -- the open run is neither shorter nor longer
    have hge : k ≤ openRun P lo n := by
      by_contra hlt
      have hbefore : openRun P lo n < n := by omega
      exact not_before_openRun hbefore (hrun.all _ (by omega) (by omega))
    have hle' : openRun P lo n ≤ k := by
      by_contra hlt
      exact hrun.before (by omega) (of_openRun lo n (by omega) (by omega))
    exact ⟨by omega, by omega, by omega⟩
  · rintro ⟨hopen, rfl, rfl⟩
    refine ⟨⟨by omega, by omega, by omega, fun i hi hlt => ?_, fun hlt => ?_, fun hlt => ?_⟩, by omega⟩
    · exact of_openRun lo n (by omega) (by omega)
    · exact not_before_openRun (by omega)
    · omega

/-! ## the runs -/

theorem mem_closedRuns_iff {s k : ℕ} :
    (s, k) ∈ closedRuns P lo n ↔ MaximalRun P lo (lo + n) s k ∧ s + k < lo + n := by
  induction n with
  | zero =>
    refine iff_of_false List.not_mem_nil ?_
    rintro ⟨hrun, hlt⟩
    have := hrun.lower
    omega
  | succ n ih =>
    have hshorter : MaximalRun P lo (lo + (n + 1)) s k ∧ s + k < lo + (n + 1)
        ↔ MaximalRun P lo (lo + n) s k ∧ (s + k = lo + n → ¬P (lo + n)) := by
      constructor
      · rintro ⟨hrun, hlt⟩
        refine ⟨⟨hrun.pos, hrun.lower, by omega, hrun.all, hrun.before, fun h => ?_⟩, fun h => ?_⟩
        · exact hrun.behind (by omega)
        · exact h ▸ hrun.behind (by omega)
      · rintro ⟨hrun, hlast⟩
        have hupper := hrun.upper
        refine ⟨⟨hrun.pos, hrun.lower, by omega, hrun.all, hrun.before, fun _ => ?_⟩, by omega⟩
        obtain heq | hlt := Nat.eq_or_lt_of_le hupper
        · exact heq ▸ hlast heq
        · exact hrun.behind hlt
    rw [hshorter]
    by_cases hP : P (lo + n)
    · rw [closedRuns_succ hP, ih]
      refine and_congr_right fun hrun => ⟨fun hlt heq => by omega, fun h => ?_⟩
      exact Nat.lt_of_le_of_ne hrun.upper fun heq => h heq hP
    · have hopen := @openRun_iff P _ lo n s k
      rw [closedRuns_succ_of_not hP]
      by_cases hzero : openRun P lo n = 0
      · rw [runs_of_not_open hzero, ih]
        refine and_congr_right fun hrun => ⟨fun hlt heq => by omega, fun _ => ?_⟩
        exact Nat.lt_of_le_of_ne hrun.upper fun heq => (hopen.mp ⟨hrun, heq⟩).1 hzero
      · rw [runs_of_open hzero, List.mem_append, ih, List.mem_singleton, Prod.mk.injEq]
        constructor
        · rintro (⟨hrun, hlt⟩ | hlast)
          · exact ⟨hrun, fun _ => hP⟩
          · exact ⟨(hopen.mpr ⟨hzero, hlast⟩).1, fun _ => hP⟩
        · rintro ⟨hrun, -⟩
          obtain heq | hlt := Nat.eq_or_lt_of_le hrun.upper
          · exact Or.inr (hopen.mp ⟨hrun, heq⟩).2
          · exact Or.inl ⟨hrun, hlt⟩

/-- **The runs are the maximal ones.** -/
theorem mem_runs_iff {s k : ℕ} : (s, k) ∈ runs P lo n ↔ MaximalRun P lo (lo + n) s k := by
  have hopen := @openRun_iff P _ lo n s k
  have hsplit : MaximalRun P lo (lo + n) s k ↔
      MaximalRun P lo (lo + n) s k ∧ s + k < lo + n
        ∨ MaximalRun P lo (lo + n) s k ∧ s + k = lo + n := by
    rw [← and_or_left]
    exact ⟨fun h => ⟨h, Nat.lt_or_eq_of_le h.upper⟩, fun h => h.1⟩
  rw [hsplit, hopen, ← mem_closedRuns_iff]
  by_cases hzero : openRun P lo n = 0
  · rw [runs_of_not_open hzero]
    exact ⟨Or.inl, fun h => h.resolve_right fun h' => h'.1 hzero⟩
  · rw [runs_of_open hzero, List.mem_append, List.mem_singleton, Prod.mk.injEq]
    exact or_congr_right ⟨fun h => ⟨hzero, h⟩, fun h => h.2⟩

/-- When a maximal run ends, it is what is open. -/
theorem MaximalRun.openRun_eq {hi s k : ℕ} (h : MaximalRun P lo hi s k) :
    openRun P lo (s + k - lo) = k := by
  have hlower := h.lower
  have hrun : MaximalRun P lo (lo + (s + k - lo)) s k :=
    ⟨h.pos, h.lower, by omega, h.all, h.before, fun _ => by omega⟩
  exact (openRun_iff.mp ⟨hrun, by omega⟩).2.2.symm

omit [DecidablePred P] in
/-- A place is in one maximal run. -/
theorem MaximalRun.eq_of_mem {hi s k s' k' i : ℕ} (h : MaximalRun P lo hi s k)
    (h' : MaximalRun P lo hi s' k') (hs : s ≤ i) (hk : i < s + k) (hs' : s' ≤ i)
    (hk' : i < s' + k') : s = s' ∧ k = k' := by
  have hlower := h.lower
  have hlower' := h'.lower
  have hupper := h.upper
  have hupper' := h'.upper
  have hstart : s = s' := by
    obtain hlt | heq | hgt := Nat.lt_trichotomy s s'
    · exact absurd (h.all (s' - 1) (by omega) (by omega)) (h'.before (by omega))
    · exact heq
    · exact absurd (h'.all (s - 1) (by omega) (by omega)) (h.before (by omega))
  have hend : s + k = s' + k' := by
    obtain hlt | heq | hgt := Nat.lt_trichotomy (s + k) (s' + k')
    · exact absurd (h'.all (s + k) (by omega) (by omega)) (h.behind (by omega))
    · exact heq
    · exact absurd (h.all (s' + k') (by omega) (by omega)) (h'.behind (by omega))
  omega

/-- Between a closed run and the open one is a place without the property. -/
theorem closed_lt_open {r : ℕ × ℕ} (h : r ∈ closedRuns P lo n) :
    r.1 + r.2 < lo + n - openRun P lo n := by
  obtain ⟨hrun, hlt⟩ := mem_closedRuns_iff.mp h
  by_contra hge
  exact hrun.behind hlt (of_openRun lo n (by omega) hlt)

theorem pairwise_runs : (runs P lo n).Pairwise fun a b => a.1 + a.2 < b.1 := by
  have happend : ∀ n, (closedRuns P lo n).Pairwise (fun a b => a.1 + a.2 < b.1) →
      (runs P lo n).Pairwise fun a b => a.1 + a.2 < b.1 := by
    intro n hclosed
    by_cases hzero : openRun P lo n = 0
    · rwa [runs_of_not_open hzero]
    · rw [runs_of_open hzero]
      refine List.pairwise_append.mpr ⟨hclosed, List.pairwise_singleton _ _, fun a ha b hb => ?_⟩
      obtain rfl := List.mem_singleton.mp hb
      exact closed_lt_open ha
  refine happend n ?_
  induction n with
  | zero => exact List.Pairwise.nil
  | succ n ih =>
    by_cases hP : P (lo + n)
    · rwa [closedRuns_succ hP]
    · rw [closedRuns_succ_of_not hP]
      exact happend n ih

/-! ## the runs' lengths -/

theorem runs_succ_of_not (h : ¬P (lo + n)) : runs P lo (n + 1) = runs P lo n := by
  rw [runs_of_not_open (openRun_succ_of_not h), closedRuns_succ_of_not h]

theorem openRun_lt {b : ℕ} (hb : 0 < b) (h : ∀ r ∈ runs P lo n, r.2 < b) : openRun P lo n < b := by
  by_cases hzero : openRun P lo n = 0
  · rwa [hzero]
  · rw [runs_of_open hzero] at h
    exact h (_, _) (List.mem_append_right _ (List.mem_singleton_self _))

/-- Runs do not get shorter. -/
theorem lt_of_runs_succ {b : ℕ} (h : ∀ r ∈ runs P lo (n + 1), r.2 < b) :
    ∀ r ∈ runs P lo n, r.2 < b := by
  by_cases hP : P (lo + n)
  · have hsucc := openRun_succ hP
    rw [runs_of_open (by omega), closedRuns_succ hP, hsucc] at h
    have hopen := h (_, _) (List.mem_append_right _ (List.mem_singleton_self _))
    intro r hr
    by_cases hzero : openRun P lo n = 0
    · rw [runs_of_not_open hzero] at hr
      exact h r (List.mem_append_left _ hr)
    · rw [runs_of_open hzero, List.mem_append, List.mem_singleton] at hr
      obtain hr | rfl := hr
      · exact h r (List.mem_append_left _ hr)
      · exact Nat.lt_of_succ_lt hopen
  · rwa [runs_succ_of_not hP] at h

theorem lt_of_runs_le {b : ℕ} (hle : m ≤ n) (h : ∀ r ∈ runs P lo n, r.2 < b) :
    ∀ r ∈ runs P lo m, r.2 < b := by
  induction n, hle using Nat.le_induction with
  | base => exact h
  | succ n _ ih => exact ih (lt_of_runs_succ h)

/-! ## more places -/

theorem openRun_add (h : ∀ j < m, P (lo + n + j)) :
    openRun P lo (n + m) = openRun P lo n + m ∧ closedRuns P lo (n + m) = closedRuns P lo n := by
  induction m with
  | zero => exact ⟨rfl, rfl⟩
  | succ m ih =>
    have hlast : P (lo + (n + m)) := by simpa [Nat.add_assoc] using h m (Nat.lt_succ_self m)
    obtain ⟨hopen, hclosed⟩ := ih fun j hj => h j (Nat.lt_succ_of_lt hj)
    rw [← Nat.add_assoc, openRun_succ hlast, closedRuns_succ hlast, hopen, hclosed]
    exact ⟨rfl, rfl⟩

theorem runs_add_of_not (h : ∀ j < m, ¬P (lo + n + j)) : runs P lo (n + m) = runs P lo n := by
  induction m with
  | zero => rfl
  | succ m ih =>
    have hlast : ¬P (lo + (n + m)) := by simpa [Nat.add_assoc] using h m (Nat.lt_succ_self m)
    rw [← Nat.add_assoc, runs_succ_of_not hlast]
    exact ih fun j hj => h j (Nat.lt_succ_of_lt hj)

end Lemmas

end Infra
