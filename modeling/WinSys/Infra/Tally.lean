import WinSys.Infra.Dict
import Mathlib.Data.List.Count

/-!
# Tallies

A finite map that counts how often each value occurs in a list, without an entry for a value
that does not occur: the index a program keeps beside a queue so that it need not walk the queue.

The counters are integers that go up and down by one; an entry is made by the first increment
and erased by hand once it is back at zero. In between an entry may be zero, so two facts are
kept apart: the counts are right (`Counts`) and there is no entry at zero (`IsTally`).
-/

namespace Finmap

variable {κ : Type*} [DecidableEq κ]

/-- `++m[k]`: an absent entry is made at zero first. -/
def bump (m : Finmap fun _ : κ => ℤ) (k : κ) : Finmap fun _ : κ => ℤ :=
  m.insert k ((m.lookup k).getD 0 + 1)

/-- `--it->second` for the entry of `k`, if there is one. -/
def decrement (m : Finmap fun _ : κ => ℤ) (k : κ) : Finmap fun _ : κ => ℤ :=
  match m.lookup k with
  | none => m
  | some n => m.insert k (n - 1)

/-- Erases the entry of `k` if it is at zero. -/
def eraseZero (m : Finmap fun _ : κ => ℤ) (k : κ) : Finmap fun _ : κ => ℤ :=
  if m.lookup k = some 0 then m.erase k else m

/-! ## lookups -/

theorem lookup_bump (m : Finmap fun _ : κ => ℤ) (k j : κ) :
    (m.bump k).lookup j = if j = k then some ((m.lookup k).getD 0 + 1) else m.lookup j :=
  lookup_insert_eq m k j _

theorem lookup_decrement (m : Finmap fun _ : κ => ℤ) (k j : κ) :
    (m.decrement k).lookup j = if j = k then (m.lookup k).map (· - 1) else m.lookup j := by
  unfold decrement
  split
  · next h =>
    split
    · next hj => rw [hj, h]; rfl
    · rfl
  · next n h => rw [lookup_insert_eq, h]; rfl

theorem lookup_eraseZero (m : Finmap fun _ : κ => ℤ) (k j : κ) :
    (m.eraseZero k).lookup j
      = if j = k ∧ m.lookup k = some 0 then none else m.lookup j := by
  unfold eraseZero
  split
  · next h => rw [lookup_erase_eq]; simp [h]
  · next h => simp [h]

/-! ## counting a list -/

/-- The counts of `m` are those of `l`; a value of `l` has an entry, others may have one at zero. -/
structure Counts (m : Finmap fun _ : κ => ℤ) (l : List κ) : Prop where
  count : ∀ k n, m.lookup k = some n → n = l.count k
  entry : ∀ k ∈ l, k ∈ m

/-- `m` counts the values of `l`, and only `k` may have an entry at zero. -/
structure IsTallyBut (k : κ) (m : Finmap fun _ : κ => ℤ) (l : List κ) : Prop
    extends Counts m l where
  mem : ∀ j ∈ m, j ≠ k → j ∈ l

/-- `m` counts the values of `l` and has no other entries. -/
structure IsTally (m : Finmap fun _ : κ => ℤ) (l : List κ) : Prop extends Counts m l where
  mem : ∀ k ∈ m, k ∈ l

theorem IsTally.empty : IsTally (∅ : Finmap fun _ : κ => ℤ) [] where
  count k n h := by simp at h
  entry k h := by simp at h
  mem k h := absurd h notMem_empty

theorem IsTally.mem_iff {m : Finmap fun _ : κ => ℤ} {l : List κ} (h : IsTally m l) (k : κ) :
    k ∈ m ↔ k ∈ l :=
  ⟨h.mem k, h.entry k⟩

theorem IsTally.but {m : Finmap fun _ : κ => ℤ} {l : List κ} (h : IsTally m l) (k : κ) :
    IsTallyBut k m l where
  toCounts := h.toCounts
  mem j hj _ := h.mem j hj

/-! Only the values count, not their order. -/

theorem Counts.perm {m : Finmap fun _ : κ => ℤ} {l l' : List κ} (h : Counts m l)
    (hp : l.Perm l') : Counts m l' where
  count k n hn := by rw [h.count k n hn, hp.count_eq]
  entry k hk := h.entry k (hp.mem_iff.mpr hk)

theorem IsTallyBut.perm {m : Finmap fun _ : κ => ℤ} {l l' : List κ} {k : κ}
    (h : IsTallyBut k m l) (hp : l.Perm l') : IsTallyBut k m l' where
  toCounts := h.toCounts.perm hp
  mem j hj hne := hp.mem_iff.mp (h.mem j hj hne)

theorem IsTally.perm {m : Finmap fun _ : κ => ℤ} {l l' : List κ} (h : IsTally m l)
    (hp : l.Perm l') : IsTally m l' where
  toCounts := h.toCounts.perm hp
  mem k hk := hp.mem_iff.mp (h.mem k hk)

/-! ## what each update does to the counted list -/

theorem Counts.bump {m : Finmap fun _ : κ => ℤ} {l : List κ} (h : Counts m l) (k : κ) :
    Counts (m.bump k) (k :: l) where
  count j n hn := by
    rw [lookup_bump] at hn
    split at hn
    · next hj =>
      subst hj
      cases hm : m.lookup j with
      | none =>
        have hnl : j ∉ l := fun hl => lookup_eq_none.mp hm (h.entry j hl)
        rw [hm] at hn
        rw [List.count_cons_self, List.count_eq_zero_of_not_mem hnl]
        simpa using hn.symm
      | some i =>
        rw [hm] at hn
        rw [List.count_cons_self, ← Option.some.inj hn, Option.getD_some, h.count j i hm]
        push_cast
        rfl
    · next hj =>
      rw [List.count_cons_of_ne (fun he => hj he.symm)]
      exact h.count j n hn
  entry j hj := by
    rw [Finmap.mem_iff, lookup_bump]
    split
    · exact ⟨_, rfl⟩
    · next hne =>
      exact Finmap.mem_iff.mp (h.entry j ((List.mem_cons.mp hj).resolve_left hne))

theorem mem_of_mem_bump {m : Finmap fun _ : κ => ℤ} {k j : κ} (hj : j ∈ m.bump k) :
    j = k ∨ j ∈ m :=
  mem_insert.mp hj

theorem IsTallyBut.bump {m : Finmap fun _ : κ => ℤ} {l : List κ} {i : κ}
    (h : IsTallyBut i m l) (k : κ) : IsTallyBut i (m.bump k) (k :: l) where
  toCounts := h.toCounts.bump k
  mem j hj hne := by
    rcases mem_of_mem_bump hj with rfl | hj
    · exact List.mem_cons_self
    · exact List.mem_cons_of_mem k (h.mem j hj hne)

theorem IsTally.bump {m : Finmap fun _ : κ => ℤ} {l : List κ} (h : IsTally m l) (k : κ) :
    IsTally (m.bump k) (k :: l) where
  toCounts := h.toCounts.bump k
  mem j hj := by
    rcases mem_of_mem_bump hj with rfl | hj
    · exact List.mem_cons_self
    · exact List.mem_cons_of_mem k (h.mem j hj)

theorem Counts.decrement {m : Finmap fun _ : κ => ℤ} {l : List κ} {k : κ}
    (h : Counts m (k :: l)) : Counts (m.decrement k) l where
  count j n hn := by
    rw [lookup_decrement] at hn
    split at hn
    · next hj =>
      subst hj
      obtain ⟨i, hi, rfl⟩ := Option.map_eq_some_iff.mp hn
      have hc := h.count j i hi
      rw [List.count_cons_self] at hc
      push_cast at hc
      omega
    · next hj =>
      rw [h.count j n hn, List.count_cons_of_ne (fun he => hj he.symm)]
  entry j hj := by
    obtain ⟨n, hn⟩ := Finmap.mem_iff.mp (h.entry j (List.mem_cons_of_mem k hj))
    rw [Finmap.mem_iff, lookup_decrement]
    split
    · next he => subst he; rw [hn]; exact ⟨_, rfl⟩
    · exact ⟨n, hn⟩

/-- One occurrence of `k` off; its entry may be left at zero. -/
theorem IsTallyBut.decrement {m : Finmap fun _ : κ => ℤ} {l : List κ} {k : κ}
    (h : IsTallyBut k m (k :: l)) : IsTallyBut k (m.decrement k) l where
  toCounts := h.toCounts.decrement
  mem j hj hne := by
    rw [Finmap.mem_iff, lookup_decrement, if_neg hne] at hj
    exact (List.mem_cons.mp (h.mem j (Finmap.mem_iff.mpr hj) hne)).resolve_left hne

/-- Erasing the entry of `k` at zero leaves a tally. -/
theorem IsTallyBut.eraseZero {m : Finmap fun _ : κ => ℤ} {l : List κ} {k : κ}
    (h : IsTallyBut k m l) : IsTally (m.eraseZero k) l where
  count j n hn := by
    rw [lookup_eraseZero] at hn
    split at hn
    · simp at hn
    · exact h.count j n hn
  entry j hj := by
    obtain ⟨n, hn⟩ := Finmap.mem_iff.mp (h.entry j hj)
    rw [Finmap.mem_iff, lookup_eraseZero]
    split
    · next he =>
      obtain ⟨rfl, he0⟩ := he
      have hz := h.count j 0 he0
      have hpos := List.count_pos_iff.mpr hj
      omega
    · exact ⟨n, hn⟩
  mem j hj := by
    rw [Finmap.mem_iff, lookup_eraseZero] at hj
    obtain ⟨n, hn⟩ := hj
    split at hn
    · simp at hn
    · next hz =>
      by_cases hjk : j = k
      · subst hjk
        by_contra hl
        have hc := h.count j n hn
        rw [List.count_eq_zero_of_not_mem hl] at hc
        exact hz ⟨rfl, by rw [hn, hc]; rfl⟩
      · exact h.mem j (Finmap.mem_iff.mpr ⟨n, hn⟩) hjk

end Finmap
