import Mathlib.Data.List.Basic
import Mathlib.Data.UInt

/-!
# Masks

A mask as the set of its bits. A cover of a mask is what was picked for it, one after the other,
and what is left of it (`Cover`). A pick of what is within the mask takes its bits from the rest.
-/

namespace Infra

def bit (x : UInt32) (i : ℕ) : Bool := x.toBitVec.getLsbD i

theorem ext_bit {x y : UInt32} (h : ∀ i < 32, bit x i = bit y i) : x = y :=
  UInt32.toBitVec_inj.mp (BitVec.eq_of_getLsbD_eq h)

@[simp]
theorem bit_zero (i : ℕ) : bit 0 i = false := by simp [bit]

@[simp]
theorem bit_and (x y : UInt32) (i : ℕ) : bit (x &&& y) i = (bit x i && bit y i) := by simp [bit]

@[simp]
theorem bit_or (x y : UInt32) (i : ℕ) : bit (x ||| y) i = (bit x i || bit y i) := by simp [bit]

theorem bit_not (x : UInt32) {i : ℕ} (h : i < 32) : bit (~~~x) i = !bit x i := by simp [bit, h]

theorem lt_of_bit {x : UInt32} {i : ℕ} (h : bit x i = true) : i < 32 := by
  refine Nat.lt_of_not_le fun hle => ?_
  have hout : bit x i = false := BitVec.getLsbD_of_ge _ _ hle
  exact absurd (hout.symm.trans h) (by decide)

/-- All of a mask is in another. -/
def SubMask (mask x : UInt32) : Prop := x &&& mask = mask

instance (mask x : UInt32) : Decidable (SubMask mask x) := inferInstanceAs (Decidable (_ = _))

theorem subMask_rfl (x : UInt32) : SubMask x x := UInt32.and_self

theorem subMask_iff {mask x : UInt32} : SubMask mask x ↔ ∀ i, bit mask i → bit x i := by
  constructor
  · intro h i hi
    rw [SubMask] at h
    rw [← h, bit_and, Bool.and_eq_true] at hi
    exact hi.1
  · intro h
    refine ext_bit fun i _ => ?_
    rw [bit_and]
    cases hi : bit mask i with
    | false => exact Bool.and_false _
    | true => rw [h i hi, Bool.and_self]

theorem SubMask.trans {x y z : UInt32} (hxy : SubMask x y) (hyz : SubMask y z) : SubMask x z :=
  subMask_iff.mpr fun i hi => subMask_iff.mp hyz i (subMask_iff.mp hxy i hi)

theorem subMask_and_not (x mask : UInt32) : SubMask (x &&& ~~~mask) x := by
  refine subMask_iff.mpr fun i hi => ?_
  rw [bit_and, Bool.and_eq_true] at hi
  exact hi.1

theorem or_and_not_of_subMask {mask x : UInt32} (h : SubMask mask x) :
    mask ||| (x &&& ~~~mask) = x := by
  refine ext_bit fun i hi => ?_
  rw [bit_or, bit_and, bit_not _ hi]
  cases hbit : bit mask i with
  | false => simp
  | true => simp [subMask_iff.mp h i hbit]

/-- Masks with no bit in common. -/
theorem and_eq_zero_iff_bit {x y : UInt32} : x &&& y = 0 ↔ ∀ i, bit x i → ¬bit y i := by
  constructor
  · intro h i hx hy
    have hbit := congrArg (bit · i) h
    simp only [bit_and, bit_zero, hx, hy, Bool.and_self] at hbit
    cases hbit
  · intro h
    refine ext_bit fun i _ => ?_
    rw [bit_and, bit_zero, Bool.and_eq_false_iff]
    cases hx : bit x i with
    | false => exact .inl rfl
    | true => exact .inr (Bool.eq_false_of_not_eq_true (h i hx))

theorem and_eq_zero_of_subMask {x y mask : UInt32} (h : SubMask x y) (hy : y &&& mask = 0) :
    x &&& mask = 0 :=
  and_eq_zero_iff_bit.mpr fun i hi => and_eq_zero_iff_bit.mp hy i (subMask_iff.mp h i hi)

def union (masks : List UInt32) : UInt32 := masks.foldr (· ||| ·) 0

theorem bit_union {masks : List UInt32} {i : ℕ} : bit (union masks) i ↔ ∃ m ∈ masks, bit m i := by
  induction masks with
  | nil => simp [union]
  | cons m masks ih =>
    rw [union, List.foldr_cons, bit_or, ← union, Bool.or_eq_true, ih]
    simp

theorem union_subMask {masks : List UInt32} {x : UInt32} (h : ∀ m ∈ masks, SubMask m x) :
    SubMask (union masks) x := by
  refine subMask_iff.mpr fun i hi => ?_
  obtain ⟨m, hm, hbit⟩ := bit_union.mp hi
  exact subMask_iff.mp (h m hm) i hbit

theorem and_union_eq_zero {masks : List UInt32} {x : UInt32} (h : ∀ m ∈ masks, x &&& m = 0) :
    x &&& union masks = 0 := by
  refine and_eq_zero_iff_bit.mpr fun i hx hi => ?_
  obtain ⟨m, hm, hbit⟩ := bit_union.mp hi
  exact and_eq_zero_iff_bit.mp (h m hm) i hx hbit

/-- What is within a mask and what is outside of it. -/
theorem or_and_of_subMask {x y mask : UInt32} (hx : SubMask x mask) (hy : y &&& mask = 0) :
    (x ||| y) &&& mask = x := by
  refine ext_bit fun i _ => ?_
  rw [bit_and, bit_or]
  have hin := subMask_iff.mp hx i
  have hout := and_eq_zero_iff_bit.mp hy i
  cases hxi : bit x i with
  | true => rw [hin hxi, Bool.true_or, Bool.and_self]
  | false =>
    cases hyi : bit y i with
    | true => rw [Bool.eq_false_of_not_eq_true (hout hyi), Bool.and_false]
    | false => rfl

theorem and_or_and_not (x mask : UInt32) : (x &&& mask) ||| (x &&& ~~~mask) = x := by
  refine ext_bit fun i hi => ?_
  rw [bit_or, bit_and, bit_and, bit_not _ hi]
  cases bit x i <;> cases bit mask i <;> rfl

theorem or_and_of_and_eq_zero {x h mask : UInt32} (hzero : h &&& mask = 0) :
    (x ||| h) &&& mask = x &&& mask := by
  refine ext_bit fun i _ => ?_
  rw [bit_and, bit_and, bit_or]
  cases hi : bit h i with
  | false => rw [Bool.or_false]
  | true =>
    rw [Bool.eq_false_of_not_eq_true (and_eq_zero_iff_bit.mp hzero i hi), Bool.and_false,
      Bool.and_false]

theorem or_and_not_of_and_eq_zero {x h mask : UInt32} (hzero : h &&& mask = 0) :
    (x ||| h) &&& ~~~mask = (x &&& ~~~mask) ||| h := by
  refine ext_bit fun i hlt => ?_
  rw [bit_and, bit_or, bit_or, bit_and, bit_not _ hlt]
  cases hi : bit h i with
  | false => rw [Bool.or_false, Bool.or_false]
  | true =>
    rw [Bool.eq_false_of_not_eq_true (and_eq_zero_iff_bit.mp hzero i hi), Bool.or_true,
      Bool.or_true]
    rfl

/-! ## one bit -/

def Single (mask : UInt32) : Prop := ∃ i ∈ List.range 32, mask = (1 : UInt32) <<< i.toUInt32

instance : DecidablePred Single := fun _ => inferInstanceAs (Decidable (∃ _ ∈ _, _))

theorem Single.bit {mask : UInt32} (h : Single mask) : ∃ i, ∀ j, Infra.bit mask j ↔ j = i := by
  obtain ⟨i, hmem, rfl⟩ := h
  have hi : i < 32 := List.mem_range.mp hmem
  refine ⟨i, fun j => ?_⟩
  have hshift : i.toUInt32.toBitVec = BitVec.ofNat 32 i := rfl
  rw [Infra.bit, UInt32.toBitVec_shiftLeft, hshift]
  simp
  omega

/-- A single bit is in a mask or not. -/
theorem Single.subMask_or {mask : UInt32} (h : Single mask) (x : UInt32) :
    SubMask mask x ∨ x &&& mask = 0 := by
  obtain ⟨i, hi⟩ := h.bit
  cases hx : Infra.bit x i with
  | true =>
    refine .inl (subMask_iff.mpr fun j hj => ?_)
    rw [(hi j).mp hj]
    exact hx
  | false =>
    refine .inr (and_eq_zero_iff_bit.mpr fun j hj hmask => ?_)
    rw [(hi j).mp hmask, hx] at hj
    cases hj

/-! ## covers -/

structure Cover (α : Type*) where
  picked : List α := []
  left : UInt32
deriving DecidableEq

namespace Cover

variable {α : Type*} (mask : α → UInt32)

def pick (c : Cover α) (a : α) : Cover α := ⟨c.picked ++ [a], c.left &&& ~~~(mask a)⟩

/-- What was picked and what is left make up the mask. -/
def Of (x : UInt32) (c : Cover α) : Prop := union (c.picked.map mask) ||| c.left = x

variable {mask} {x : UInt32} {c : Cover α} {a : α}

theorem of_nothing : Of mask x { left := x } := by simp [Of, union]

theorem Of.pick (h : Of mask x c) (ha : SubMask (mask a) x) : Of mask x (c.pick mask a) := by
  refine Eq.trans (ext_bit fun i hi => ?_) h
  have hwithin := subMask_iff.mp ha i
  rw [← h] at hwithin
  simp only [bit_or, Bool.or_eq_true] at hwithin
  rw [Bool.eq_iff_iff]
  simp only [Cover.pick, List.map_append, List.map_cons, List.map_nil, bit_or, bit_and,
    bit_not _ hi, Bool.or_eq_true, Bool.and_eq_true, bit_union, List.mem_append,
    List.mem_singleton, or_and_right, exists_or, exists_eq_left, Bool.not_eq_true']
  simp only [bit_union] at hwithin
  cases hbit : bit (mask a) i with
  | false => simp
  | true =>
    simp only [or_true, true_or, true_iff]
    exact hwithin hbit

/-- Nothing is picked that is not within. -/
theorem Of.within (h : Of mask x c) (ha : a ∈ c.picked) : SubMask (mask a) x := by
  refine subMask_iff.mpr fun i hi => ?_
  rw [← h, bit_or, bit_union.mpr ⟨mask a, List.mem_map_of_mem ha, hi⟩, Bool.true_or]

theorem left_pick_subMask (c : Cover α) (a : α) : SubMask (c.pick mask a).left c.left :=
  subMask_and_not _ _

theorem left_pick_and (c : Cover α) (a : α) : (c.pick mask a).left &&& mask a = 0 := by
  refine and_eq_zero_iff_bit.mpr fun i hi hmask => ?_
  rw [Cover.pick, bit_and, bit_not _ (lt_of_bit hmask), hmask] at hi
  cases hi' : bit c.left i <;> simp [hi'] at hi

/-- What is picked in turns is a part of what is gone through. -/
theorem picked_sublist {turn : Cover α → α → Cover α}
    (h : ∀ c a, turn c a = c ∨ turn c a = c.pick mask a) (c : Cover α) (as : List α) :
    (as.foldl turn c).picked.Sublist (c.picked ++ as) := by
  induction as generalizing c with
  | nil => simp
  | cons a as ih =>
    rw [List.foldl_cons]
    obtain hturn | hturn := h c a
    · rw [hturn]
      exact (ih c).trans ((List.Sublist.refl _).append (List.sublist_cons_self a as))
    · rw [hturn]
      have hpick := ih (c.pick mask a)
      rw [Cover.pick, List.append_assoc, List.singleton_append] at hpick
      exact hpick

/-- What is left only gets less. -/
theorem left_foldl_subMask {turn : Cover α → α → Cover α}
    (h : ∀ c a, turn c a = c ∨ turn c a = c.pick mask a) (c : Cover α) (as : List α) :
    SubMask (as.foldl turn c).left c.left := by
  induction as generalizing c with
  | nil => exact subMask_rfl _
  | cons a as ih =>
    refine (ih (turn c a)).trans ?_
    obtain hturn | hturn := h c a
    · rw [hturn]
      exact subMask_rfl _
    · rw [hturn]
      exact left_pick_subMask c a

/-- What a turn takes all of is gone at the end. -/
theorem left_foldl_and {turn : Cover α → α → Cover α}
    (h : ∀ c a, turn c a = c ∨ turn c a = c.pick mask a)
    (hgone : ∀ c, SubMask c.left x → (turn c a).left &&& mask a = 0) {as : List α} (ha : a ∈ as)
    (hc : SubMask c.left x) : (as.foldl turn c).left &&& mask a = 0 := by
  induction as generalizing c with
  | nil => cases ha
  | cons b as ih =>
    rw [List.foldl_cons]
    obtain rfl | ha := List.mem_cons.mp ha
    · exact and_eq_zero_of_subMask (left_foldl_subMask h _ as) (hgone c hc)
    · exact ih ha ((left_foldl_subMask h c [b]).trans hc)

theorem Of.left_subMask (h : Of mask x c) : SubMask c.left x := by
  refine subMask_iff.mpr fun i hi => ?_
  rw [← h, bit_or, hi, Bool.or_true]

end Cover

end Infra
