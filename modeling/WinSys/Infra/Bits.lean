import Mathlib.Data.List.Perm.Basic
import Mathlib.Data.List.Range
import Mathlib.Data.UInt

/-!
# The bits of a word

`below x i` is the place of bit `i` among the set bits of `x`, as a population count gives it. The
set bits in order have the places from zero on (`map_below_bits`).

`assignments` are writes to an array, in order.
-/

namespace Infra

/-! ## bits -/

def testBit (x : UInt64) (i : ℕ) : Bool := x.toBitVec.getLsbD i

/-- The set bits, in order. -/
def bits (x : UInt64) : List ℕ := (List.range 64).filter (testBit x)

/-- `std::popcount` -/
def popcount (x : UInt64) : ℕ := (bits x).length

/-- The word with one bit set. -/
def bitAt (i : ℕ) : UInt64 := 1 <<< i.toUInt64

/-- How many bits are set below a bit. -/
def below (x : UInt64) (i : ℕ) : ℕ := popcount (x &&& (bitAt i - 1))

theorem bitAt_toNat {i : ℕ} (h : i < 64) : (bitAt i).toNat = 2 ^ i := by
  have hi : i % 2 ^ 64 % 64 = i := by omega
  have hlt : 2 ^ i < 2 ^ 64 := Nat.pow_lt_pow_right (by omega) h
  rw [bitAt, UInt64.toNat_shiftLeft, Nat.toUInt64, UInt64.toNat_ofNat', hi]
  rw [UInt64.toNat_one, Nat.one_shiftLeft, Nat.mod_eq_of_lt hlt]

theorem testBit_eq (x : UInt64) (i : ℕ) : testBit x i = x.toNat.testBit i := rfl

@[simp]
theorem testBit_and (x y : UInt64) (i : ℕ) : testBit (x &&& y) i = (testBit x i && testBit y i) := by
  simp [testBit]

theorem testBit_bitAt {i : ℕ} (h : i < 64) (j : ℕ) : testBit (bitAt i) j = decide (i = j) := by
  rw [testBit_eq, bitAt_toNat h, Nat.testBit_two_pow]

theorem testBit_bitAt_sub_one {i : ℕ} (h : i < 64) (j : ℕ) :
    testBit (bitAt i - 1) j = decide (j < i) := by
  have hpos : 1 ≤ bitAt i := by
    rw [UInt64.le_iff_toNat_le, bitAt_toNat h]
    exact Nat.one_le_two_pow
  rw [testBit_eq, UInt64.toNat_sub_of_le _ _ hpos, bitAt_toNat h, UInt64.toNat_one,
    Nat.testBit_two_pow_sub_one]

theorem testBit_of_le {x : UInt64} {i : ℕ} (h : 64 ≤ i) : testBit x i = false :=
  BitVec.getLsbD_of_ge _ _ h

theorem ext_testBit {x y : UInt64} (h : ∀ i, testBit x i = testBit y i) : x = y :=
  UInt64.toBitVec_inj.mp (BitVec.eq_of_getLsbD_eq fun i _ => h i)

@[simp]
theorem testBit_zero (i : ℕ) : testBit 0 i = false := by simp [testBit]

/-- The words have a common bit just if it is set in both. -/
theorem and_eq_zero_iff {x y : UInt64} :
    x &&& y = 0 ↔ ∀ i, ¬(testBit x i = true ∧ testBit y i = true) := by
  constructor
  · intro h i hi
    have hbit : testBit (x &&& y) i = true := by rw [testBit_and, hi.1, hi.2]; rfl
    rw [h, testBit_zero] at hbit
    cases hbit
  · intro h
    refine ext_testBit fun i => ?_
    rw [testBit_and, testBit_zero, Bool.and_eq_false_iff]
    by_cases hx : testBit x i = true
    · exact .inr (Bool.eq_false_iff.mpr fun hy => h i ⟨hx, hy⟩)
    · exact .inl (Bool.eq_false_iff.mpr hx)

theorem and_bitAt_eq_zero_iff {x : UInt64} {i : ℕ} (h : i < 64) :
    x &&& bitAt i = 0 ↔ testBit x i = false := by
  rw [and_eq_zero_iff]
  constructor
  · exact fun hall => Bool.eq_false_iff.mpr fun hx => hall i ⟨hx, by simp [testBit_bitAt h]⟩
  · rintro hx j ⟨hj, hij⟩
    rw [testBit_bitAt h, decide_eq_true_eq] at hij
    subst hij
    rw [hx] at hj
    cases hj

theorem mem_bits {x : UInt64} {i : ℕ} : i ∈ bits x ↔ testBit x i = true := by
  rw [bits, List.mem_filter, List.mem_range]
  refine ⟨fun h => h.2, fun h => ⟨?_, h⟩⟩
  by_contra hge
  rw [testBit_of_le (by omega)] at h
  cases h

theorem lt_of_mem_bits {x : UInt64} {i : ℕ} (h : i ∈ bits x) : i < 64 :=
  List.mem_range.mp (List.mem_of_mem_filter h)

theorem nodup_bits (x : UInt64) : (bits x).Nodup := List.nodup_range.filter _

/-! ## places -/

/-- Of those that pass, each has as many before it as its place says. -/
theorem map_countP_filter_range (p : ℕ → Bool) (n : ℕ) :
    ((List.range n).filter p).map (fun i => (List.range i).countP p)
      = List.range ((List.range n).countP p) := by
  induction n with
  | zero => rfl
  | succ n ih =>
    rw [List.range_succ, List.filter_append, List.map_append, ih, List.countP_append]
    by_cases hp : p n = true
    · simp [hp, List.range_succ]
    · simp [hp]

theorem below_eq {x : UInt64} {i : ℕ} (h : i < 64) : below x i = (List.range i).countP (testBit x) := by
  have hsplit : List.range 64 = List.range i ++ (List.range (64 - i)).map (i + ·) := by
    rw [← List.range_add, Nat.add_sub_cancel' h.le]
  have hlow : (List.range i).filter (testBit (x &&& (bitAt i - 1)))
      = (List.range i).filter (testBit x) := by
    refine List.filter_congr fun j hj => ?_
    rw [testBit_and, testBit_bitAt_sub_one h, decide_eq_true (List.mem_range.mp hj), Bool.and_true]
  have hhigh : ((List.range (64 - i)).map (i + ·)).filter (testBit (x &&& (bitAt i - 1))) = [] := by
    refine List.filter_eq_nil_iff.mpr fun j hj => ?_
    obtain ⟨k, -, rfl⟩ := List.mem_map.mp hj
    rw [testBit_and, testBit_bitAt_sub_one h]
    simp
  rw [below, popcount, bits, hsplit, List.filter_append, hlow, hhigh, List.append_nil,
    List.countP_eq_length_filter]

/-- **The set bits have the places from zero on.** -/
theorem map_below_bits (x : UInt64) : (bits x).map (below x) = List.range (popcount x) := by
  have hplaces : (bits x).map (below x)
      = (bits x).map fun i => (List.range i).countP (testBit x) :=
    List.map_congr_left fun i hi => below_eq (lt_of_mem_bits hi)
  rw [hplaces, bits, map_countP_filter_range, popcount, bits, List.countP_eq_length_filter]

theorem popcount_bitAt_sub_one {i : ℕ} (h : i < 64) : popcount (bitAt i - 1) = i := by
  have hall : below (~~~0) i = i := by
    have hones : ∀ j < 64, testBit (~~~0) j = true := by decide
    rw [below_eq h, List.countP_eq_length.mpr, List.length_range]
    exact fun j hj => hones j ((List.mem_range.mp hj).trans h)
  have hmask : ~~~0 &&& (bitAt i - 1) = bitAt i - 1 := by
    rw [UInt64.not_zero]
    exact UInt64.neg_one_and
  rw [below, hmask] at hall
  exact hall

/-! ## writes -/

/-- The array after the writes, in order. -/
def assignments {α : Type*} (l : List α) (writes : List (ℕ × α)) : List α :=
  writes.foldl (fun l write => l.set write.1 write.2) l

section Writes

variable {α : Type*} {l : List α} {writes : List (ℕ × α)}

@[simp]
theorem length_assignments (l : List α) (writes : List (ℕ × α)) :
    (assignments l writes).length = l.length := by
  induction writes generalizing l with
  | nil => rfl
  | cons write writes ih => exact (ih _).trans List.length_set

theorem getElem?_assignments_of_notMem {n : ℕ} (h : n ∉ writes.map Prod.fst) :
    (assignments l writes)[n]? = l[n]? := by
  induction writes generalizing l with
  | nil => rfl
  | cons write writes ih =>
    rw [List.map_cons, List.mem_cons, not_or] at h
    exact (ih h.2).trans (List.getElem?_set_ne (Ne.symm h.1))

/-- A place that is written once has what is written. -/
theorem getElem?_assignments {n : ℕ} {a : α} (hn : n < l.length)
    (hnodup : (writes.map Prod.fst).Nodup) (h : (n, a) ∈ writes) :
    (assignments l writes)[n]? = some a := by
  induction writes generalizing l with
  | nil => cases h
  | cons write writes ih =>
    rw [List.map_cons, List.nodup_cons] at hnodup
    cases List.mem_cons.mp h with
    | inl heq =>
      subst heq
      exact (getElem?_assignments_of_notMem hnodup.1).trans (List.getElem?_set_self hn)
    | inr hmem =>
      refine ih ?_ hnodup.2 hmem
      rw [List.length_set]
      exact hn

end Writes

end Infra
