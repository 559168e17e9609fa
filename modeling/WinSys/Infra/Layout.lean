import WinSys.Infra.Bytes

/-!
# Bytes at an offset

A record's fields are read back from its encoding; a table of records of one size is read back by
its index.
-/

namespace Infra

/-- The data has the bytes at an offset. -/
def HoldsAt (data : Bytes) (offset : ℕ) (bs : Bytes) : Prop := bs <+: data.drop offset

instance (data : Bytes) (offset : ℕ) (bs : Bytes) : Decidable (HoldsAt data offset bs) :=
  inferInstanceAs (Decidable (bs <+: data.drop offset))

namespace HoldsAt

variable {data bs bs' : Bytes} {offset : ℕ}

theorem append_iff :
    HoldsAt data offset (bs ++ bs') ↔
      HoldsAt data offset bs ∧ HoldsAt data (offset + bs.length) bs' := by
  unfold HoldsAt
  rw [← List.drop_drop]
  constructor
  · rintro ⟨rest, hrest⟩
    rw [List.append_assoc] at hrest
    refine ⟨⟨bs' ++ rest, hrest⟩, ?_⟩
    rw [← hrest, List.drop_left]
    exact List.prefix_append _ _
  · rintro ⟨⟨rest, hrest⟩, h⟩
    rw [← hrest, List.drop_left] at h
    rw [← hrest]
    exact (List.prefix_append_right_inj bs).mpr h

theorem left (h : HoldsAt data offset (bs ++ bs')) : HoldsAt data offset bs := (append_iff.mp h).1

theorem right (h : HoldsAt data offset (bs ++ bs')) : HoldsAt data (offset + bs.length) bs' :=
  (append_iff.mp h).2

theorem add_length_le (h : HoldsAt data offset bs) (hne : bs ≠ []) :
    offset + bs.length ≤ data.length := by
  have hle := h.length_le
  have hpos := List.length_pos_iff.mpr hne
  rw [List.length_drop] at hle
  omega

/-- What is in a part of the data is in the data. -/
theorem trans {inner : ℕ} (h : HoldsAt data offset bs) (h' : HoldsAt bs inner bs')
    (hle : inner ≤ bs.length) : HoldsAt data (offset + inner) bs' := by
  obtain ⟨rest, hrest⟩ := h
  unfold HoldsAt
  rw [← List.drop_drop, ← hrest, List.drop_append_of_le_length hle]
  exact List.IsPrefix.trans h' (List.prefix_append _ _)

theorem take_eq (h : HoldsAt data offset bs) : (data.drop offset).take bs.length = bs :=
  (List.prefix_iff_eq_take.mp h).symm

/-- An entry of a table. -/
theorem getElem {α : Type*} {encode : α → Bytes} {width : ℕ} (hwidth : ∀ a, (encode a).length = width)
    {xs : List α} (h : HoldsAt data offset (xs.flatMap encode)) {i : ℕ} (hi : i < xs.length) :
    HoldsAt data (offset + i * width) (encode xs[i]) := by
  induction xs generalizing offset i with
  | nil => exact absurd hi (Nat.not_lt_zero i)
  | cons x xs ih =>
    rw [List.flatMap_cons] at h
    cases i with
    | zero => simpa using h.left
    | succ i =>
      have hrest := ih h.right (Nat.lt_of_succ_lt_succ hi)
      rw [hwidth, Nat.add_assoc, Nat.add_comm width, ← Nat.succ_mul] at hrest
      exact hrest

/-- What follows a table. -/
theorem after {α : Type*} {encode : α → Bytes} {width : ℕ} (hwidth : ∀ a, (encode a).length = width)
    {xs : List α} (h : HoldsAt data offset (xs.flatMap encode ++ bs)) :
    HoldsAt data (offset + xs.length * width) bs := by
  have hlength : (xs.flatMap encode).length = xs.length * width := by
    simp [List.length_flatMap, hwidth, Nat.mul_comm]
  rw [← hlength]
  exact h.right

end HoldsAt

/-! ## a record's fields -/

section Field

variable {size offset : ℕ} (n : ℕ) (rest : Bytes)

theorem u16At_append_right {bs : Bytes} (h : bs.length ≤ offset) :
    u16At (bs ++ rest) offset = u16At rest (offset - bs.length) := by
  rw [u16At, List.drop_append, List.drop_eq_nil_of_le h, List.nil_append, u16At]

theorem u32At_append_right {bs : Bytes} (h : bs.length ≤ offset) :
    u32At (bs ++ rest) offset = u32At rest (offset - bs.length) := by
  rw [u32At, List.drop_append, List.drop_eq_nil_of_le h, List.nil_append, u32At]

@[simp]
theorem u16At_leBytes_append (h : size ≤ offset) :
    u16At (leBytes size n ++ rest) offset = u16At rest (offset - size) := by
  rw [u16At_append_right rest (by simpa using h), length_leBytes]

@[simp]
theorem u32At_leBytes_append (h : size ≤ offset) :
    u32At (leBytes size n ++ rest) offset = u32At rest (offset - size) := by
  rw [u32At_append_right rest (by simpa using h), length_leBytes]

end Field

/-! ## fields of a part -/

section Take

variable {data : Bytes} {size offset : ℕ}

theorem u16At_take (h : offset + 2 ≤ size) :
    u16At (data.take size) offset = u16At data offset := by
  rw [u16At, u16At, u16, u16, List.drop_take, List.take_take, Nat.min_eq_left (by omega)]

theorem u32At_take (h : offset + 4 ≤ size) :
    u32At (data.take size) offset = u32At data offset := by
  rw [u32At, u32At, u32, u32, List.drop_take, List.take_take, Nat.min_eq_left (by omega)]

theorem u64At_take (h : offset + 8 ≤ size) :
    u64At (data.take size) offset = u64At data offset := by
  rw [u64At, u64At, u64, u64, List.drop_take, List.take_take, Nat.min_eq_left (by omega)]

end Take

@[simp] theorem u16At_append (n : UInt16) (rest : Bytes) : u16At (leBytes 2 n.toNat ++ rest) 0 = n :=
  u16_append n rest

@[simp] theorem u32At_append (n : UInt32) (rest : Bytes) : u32At (leBytes 4 n.toNat ++ rest) 0 = n :=
  u32_append n rest

theorem u32At_append_nat {n : ℕ} (h : n < 2 ^ 32) (rest : Bytes) :
    u32At (leBytes 4 n ++ rest) 0 = n.toUInt32 := by
  rw [u32At, List.drop_zero, u32, take_leBytes_append, leNat_leBytes h]

theorem u32At_leBytes_nat {n : ℕ} (h : n < 2 ^ 32) : u32At (leBytes 4 n) 0 = n.toUInt32 := by
  simpa using u32At_append_nat h []

theorem u64At_leBytes_nat {n : ℕ} (h : n < 2 ^ 64) : u64At (leBytes 8 n) 0 = n.toUInt64 := by
  rw [u64At, List.drop_zero, u64, List.take_of_length_le (by simp), leNat_leBytes h]

theorem toNat_u32At_append {n : ℕ} (h : n < 2 ^ 32) (rest : Bytes) :
    (u32At (leBytes 4 n ++ rest) 0).toNat = n := by
  rw [u32At_append_nat h, Nat.toUInt32_eq, UInt32.toNat_ofNat', Nat.mod_eq_of_lt h]

theorem toNat_u16At_append {n : ℕ} (h : n < 2 ^ 16) (rest : Bytes) :
    (u16At (leBytes 2 n ++ rest) 0).toNat = n := by
  rw [u16At, List.drop_zero, u16, take_leBytes_append, leNat_leBytes h, Nat.toUInt16_eq,
    UInt16.toNat_ofNat', Nat.mod_eq_of_lt h]

/-- The low word of a number. -/
theorem u16At_dword (n : UInt16) (rest : Bytes) : u16At (leBytes 4 n.toNat ++ rest) 0 = n := by
  have hwords : leBytes 4 n.toNat = leBytes 2 n.toNat ++ leBytes 2 (n.toNat / 256 / 256) := rfl
  rw [hwords, List.append_assoc, u16At_append]

@[simp] theorem u16At_leBytes (n : UInt16) : u16At (leBytes 2 n.toNat) 0 = n := u16_leBytes n

@[simp] theorem u32At_leBytes (n : UInt32) : u32At (leBytes 4 n.toNat) 0 = n := u32_leBytes n

@[simp] theorem u64At_leBytes (n : UInt64) : u64At (leBytes 8 n.toNat) 0 = n := u64_leBytes n

/-! ## numbers at an offset -/

namespace HoldsAt

variable {data : Bytes} {offset n : ℕ}

theorem u8At {b : UInt8} (h : HoldsAt data offset [b]) : u8At data offset = b := by
  obtain ⟨rest, hrest⟩ := h
  have hhead : data[offset]? = some b := by
    rw [← List.head?_drop, ← hrest]
    rfl
  rw [Infra.u8At, List.getD_eq_getElem?_getD, hhead, Option.getD_some]

theorem u16At (h : HoldsAt data offset (leBytes 2 n)) (hn : n < 2 ^ 16) :
    (u16At data offset).toNat = n := by
  obtain ⟨rest, hrest⟩ := h
  rw [Infra.u16At, ← hrest]
  exact toNat_u16At_append hn rest

theorem u32At (h : HoldsAt data offset (leBytes 4 n)) (hn : n < 2 ^ 32) :
    (u32At data offset).toNat = n := by
  obtain ⟨rest, hrest⟩ := h
  rw [Infra.u32At, ← hrest]
  exact toNat_u32At_append hn rest

theorem u64At (h : HoldsAt data offset (leBytes 8 n)) (hn : n < 2 ^ 64) :
    (u64At data offset).toNat = n := by
  obtain ⟨rest, hrest⟩ := h
  rw [Infra.u64At, ← hrest, u64, take_leBytes_append, leNat_leBytes hn, Nat.toUInt64_eq,
    UInt64.toNat_ofNat', Nat.mod_eq_of_lt hn]

end HoldsAt

end Infra
