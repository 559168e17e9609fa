import Mathlib.Data.List.Basic

/-!
# Greedy matching by key

Takers come in order, each taking the first offer of its key that none has taken yet. The taker
that is the `n`th of its key then has the `n`th offer of the key, if there is one
(`getElem?_assign`). `rank` says how many of a key come before a place of a list.
-/

namespace Infra

variable {α β κ : Type*}

/-! ## places among those of a key -/

section Rank

variable [DecidableEq κ] (key : α → κ)

/-- How many of a key come before a place. -/
def rank (l : List α) (i : ℕ) (k : κ) : ℕ := (l.take i).countP fun a => key a = k

/-- All of a key. -/
def ofKey (l : List α) (k : κ) : List α := l.filter fun a => key a = k

theorem rank_succ_cons (a : α) (l : List α) (i : ℕ) (k : κ) :
    rank key (a :: l) (i + 1) k = rank key l i k + if key a = k then 1 else 0 := by
  simp [rank, List.countP_cons]

theorem ofKey_cons (a : α) (l : List α) (k : κ) :
    ofKey key (a :: l) k = if key a = k then a :: ofKey key l k else ofKey key l k := by
  rw [ofKey, List.filter_cons]
  simp only [decide_eq_true_eq]
  rfl

theorem rank_mono (l : List α) {i j : ℕ} (h : i ≤ j) (k : κ) : rank key l i k ≤ rank key l j k :=
  (List.take_sublist_take_left h).countP_le

theorem rank_succ {l : List α} {i : ℕ} {a : α} (h : l[i]? = some a) :
    rank key l (i + 1) (key a) = rank key l i (key a) + 1 := by
  obtain ⟨hlt, rfl⟩ := List.getElem?_eq_some_iff.mp h
  rw [rank, List.take_succ_eq_append_getElem hlt, List.countP_append, ← rank]
  simp

variable {key}

/-- One at a place is where its rank says among those of its key. -/
theorem getElem?_ofKey_rank {l : List α} {i : ℕ} {a : α} (h : l[i]? = some a) :
    (ofKey key l (key a))[rank key l i (key a)]? = some a := by
  induction l generalizing i with
  | nil => cases h
  | cons b l ih =>
    cases i with
    | zero =>
      cases h
      simp [ofKey, rank]
    | succ i =>
      have hl := ih h
      rw [rank_succ_cons, ofKey_cons]
      by_cases hb : key b = key a
      · rw [if_pos hb, if_pos hb, List.getElem?_cons_succ]
        exact hl
      · rw [if_neg hb, if_neg hb]
        exact hl

/-- One of a key is somewhere. -/
theorem exists_of_getElem?_ofKey {l : List α} {k : κ} {n : ℕ} {a : α}
    (h : (ofKey key l k)[n]? = some a) :
    key a = k ∧ ∃ i, l[i]? = some a ∧ rank key l i k = n := by
  induction l generalizing n with
  | nil => cases h
  | cons b l ih =>
    rw [ofKey_cons] at h
    by_cases hb : key b = k
    · rw [if_pos hb] at h
      cases n with
      | zero =>
        cases h
        exact ⟨hb, 0, rfl, rfl⟩
      | succ n =>
        obtain ⟨hk, i, hi, hrank⟩ := ih h
        exact ⟨hk, i + 1, hi, by rw [rank_succ_cons, if_pos hb, hrank]⟩
    · rw [if_neg hb] at h
      obtain ⟨hk, i, hi, hrank⟩ := ih h
      exact ⟨hk, i + 1, hi, by rw [rank_succ_cons, if_neg hb, hrank, Nat.add_zero]⟩

theorem rank_lt_length_ofKey {l : List α} {i : ℕ} {a : α} (h : l[i]? = some a) :
    rank key l i (key a) < (ofKey key l (key a)).length :=
  (List.getElem?_eq_some_iff.mp (getElem?_ofKey_rank h)).1

theorem exists_of_lt_length_ofKey {l : List α} {k : κ} {n : ℕ} (h : n < (ofKey key l k).length) :
    ∃ i a, l[i]? = some a ∧ key a = k ∧ rank key l i k = n := by
  obtain ⟨hk, i, hi, hrank⟩ := exists_of_getElem?_ofKey (List.getElem?_eq_getElem h)
  exact ⟨i, _, hi, hk, hrank⟩

/-- Two of a key with the same rank are at the same place. -/
theorem rank_inj {l : List α} {i j : ℕ} {a b : α} (ha : l[i]? = some a) (hb : l[j]? = some b)
    (hkey : key a = key b) (hrank : rank key l i (key a) = rank key l j (key a)) : i = j := by
  have hi := rank_succ key ha
  have hj := rank_succ key hb
  rw [← hkey] at hj
  obtain hlt | rfl | hlt := Nat.lt_trichotomy i j
  · have hle := rank_mono key l (Nat.succ_le_of_lt hlt) (key a)
    rw [Nat.succ_eq_add_one] at hle
    omega
  · rfl
  · have hle := rank_mono key l (Nat.succ_le_of_lt hlt) (key a)
    rw [Nat.succ_eq_add_one] at hle
    omega

end Rank

/-! ## taking -/

/-- The first offer that fits and isn't taken, and the offers with it taken. -/
def takeFirst (fits : β → Bool) : List (β × Bool) → Option (β × List (β × Bool))
  | [] => none
  | (offer, used) :: rest =>
    if !used && fits offer then some (offer, (offer, true) :: rest)
    else (takeFirst fits rest).map fun (taken, rest) => (taken, (offer, used) :: rest)

/-- The offers that fit and aren't taken. -/
def free (fits : β → Bool) (offers : List (β × Bool)) : List β :=
  (offers.filter fun offer => !offer.2 && fits offer.1).map Prod.fst

theorem free_cons (fits : β → Bool) (offer : β) (used : Bool) (rest : List (β × Bool)) :
    free fits ((offer, used) :: rest)
      = if !used && fits offer then offer :: free fits rest else free fits rest := by
  unfold free
  rw [List.filter_cons]
  split <;> rfl

/-- The first free offer is taken, and the others stay free. -/
theorem takeFirst_eq_some {fits : β → Bool} {offers rest : List (β × Bool)} {taken : β}
    (h : takeFirst fits offers = some (taken, rest)) :
    free fits offers = taken :: free fits rest ∧
      ∀ other : β → Bool, (∀ b, fits b = true → other b = false) →
        free other rest = free other offers := by
  induction offers generalizing rest with
  | nil => cases h
  | cons offer offers ih =>
    obtain ⟨offer, used⟩ := offer
    rw [takeFirst] at h
    split at h
    · next hfree =>
      cases h
      rw [free_cons, if_pos hfree, free_cons, if_neg (by simp)]
      refine ⟨rfl, fun other hother => ?_⟩
      have hno := hother _ (Bool.and_eq_true_iff.mp hfree).2
      rw [free_cons, free_cons, if_neg (by simp), if_neg (by simp [hno])]
    · next hfree =>
      obtain ⟨⟨taken', rest'⟩, htake, heq⟩ := Option.map_eq_some_iff.mp h
      cases heq
      obtain ⟨hfirst, hothers⟩ := ih htake
      rw [free_cons, if_neg hfree, free_cons, if_neg hfree]
      refine ⟨hfirst, fun other hother => ?_⟩
      rw [free_cons, free_cons, hothers other hother]

theorem takeFirst_eq_none {fits : β → Bool} {offers : List (β × Bool)}
    (h : takeFirst fits offers = none) : free fits offers = [] := by
  induction offers with
  | nil => rfl
  | cons offer offers ih =>
    obtain ⟨offer, used⟩ := offer
    rw [takeFirst] at h
    split at h
    · cases h
    · next hfree =>
      rw [free_cons, if_neg hfree]
      exact ih (Option.map_eq_none_iff.mp h)

/-- What each taker gets. -/
def assign (fits : α → β → Bool) : List (β × Bool) → List α → List (Option β)
  | _, [] => []
  | offers, a :: as =>
    match takeFirst (fits a) offers with
    | none => none :: assign fits offers as
    | some (taken, offers) => some taken :: assign fits offers as

theorem free_unused (fits : β → Bool) (offers : List β) :
    free fits (offers.map fun offer => (offer, false)) = offers.filter fits := by
  induction offers with
  | nil => rfl
  | cons offer offers ih =>
    rw [List.map_cons, free_cons, ih, List.filter_cons]
    rfl

section Keys

variable [DecidableEq κ] {keyOf : α → κ} {offerKey : β → κ}

/-- The taker of a rank takes the free offer of that place. -/
theorem getElem?_assign_of_free (offers : List (β × Bool)) (as : List α) (i : ℕ) :
    (assign (fun a b => decide (offerKey b = keyOf a)) offers as)[i]? =
      as[i]?.map fun a =>
        (free (fun b => decide (offerKey b = keyOf a)) offers)[rank keyOf as i (keyOf a)]? := by
  induction as generalizing offers i with
  | nil => rfl
  | cons a as ih =>
    rw [assign]
    cases htake : takeFirst (fun b => decide (offerKey b = keyOf a)) offers with
    | none =>
      have hnone := takeFirst_eq_none htake
      cases i with
      | zero => simp [hnone]
      | succ i =>
        rw [List.getElem?_cons_succ, List.getElem?_cons_succ, ih]
        refine Option.map_congr fun b _ => ?_
        rw [rank_succ_cons]
        split
        · next hab => simp [← hab, hnone]
        · rw [Nat.add_zero]
    | some taking =>
      obtain ⟨taken, rest⟩ := taking
      obtain ⟨hfirst, hothers⟩ := takeFirst_eq_some htake
      cases i with
      | zero => simp [hfirst, rank]
      | succ i =>
        rw [List.getElem?_cons_succ, List.getElem?_cons_succ, ih]
        refine Option.map_congr fun b _ => ?_
        rw [rank_succ_cons]
        split
        · next hab => rw [← hab, hfirst, List.getElem?_cons_succ]
        · next hab =>
          rw [Nat.add_zero, hothers]
          intro c hc
          simp only [decide_eq_true_eq, decide_eq_false_iff_not] at hc ⊢
          exact fun hcb => hab (hc.symm.trans hcb)

/-- **The `n`th taker of a key gets the `n`th offer of the key**, or none. -/
theorem getElem?_assign (offers : List β) (as : List α) (i : ℕ) :
    (assign (fun a b => decide (offerKey b = keyOf a)) (offers.map fun b => (b, false)) as)[i]? =
      as[i]?.map fun a => (ofKey offerKey offers (keyOf a))[rank keyOf as i (keyOf a)]? := by
  rw [getElem?_assign_of_free]
  simp only [free_unused]
  rfl

end Keys

end Infra
