import Mathlib.Data.Nat.Bitwise
import Mathlib.Data.UInt

/-!
# Bytes

Values in a buffer, as a little-endian machine reads them.
-/

namespace Infra

abbrev Bytes := List UInt8

def leNat : Bytes → ℕ
  | [] => 0
  | b :: bs => b.toNat + 256 * leNat bs

/-- The value at the buffer's start; what is missing of it reads as 0. -/
def u16 (bs : Bytes) : UInt16 := (leNat (bs.take 2)).toUInt16

def u32 (bs : Bytes) : UInt32 := (leNat (bs.take 4)).toUInt32

def u64 (bs : Bytes) : UInt64 := (leNat (bs.take 8)).toUInt64

section Field

variable (bs : Bytes) (offset : ℕ)

def u8At : UInt8 := bs.getD offset 0

def u16At : UInt16 := u16 (bs.drop offset)

def u32At : UInt32 := u32 (bs.drop offset)

def u64At : UInt64 := u64 (bs.drop offset)

end Field

/-- The whole UTF-16 code units in a buffer. -/
def units : Bytes → List UInt16
  | a :: b :: bs => u16 [a, b] :: units bs
  | _ => []

/-- A number in a field of a size. -/
def leBytes : ℕ → ℕ → Bytes
  | 0, _ => []
  | size + 1, n => n.toUInt8 :: leBytes size (n / 256)

@[simp]
theorem length_leBytes (size n : ℕ) : (leBytes size n).length = size := by
  induction size generalizing n with
  | zero => rfl
  | succ size ih => simp [leBytes, ih]

theorem leNat_lt (bs : Bytes) : leNat bs < 256 ^ bs.length := by
  induction bs with
  | nil => simp [leNat]
  | cons b bs ih =>
    have hb := b.toNat_lt
    rw [leNat, List.length_cons, pow_succ]
    omega

/-- A number is what its field reads back as. -/
theorem leNat_leBytes {size n : ℕ} (h : n < 256 ^ size) : leNat (leBytes size n) = n := by
  induction size generalizing n with
  | zero =>
    rw [pow_zero] at h
    simp only [leBytes, leNat]
    omega
  | succ size ih =>
    rw [pow_succ] at h
    rw [leBytes, leNat, ih (by omega), UInt8.toNat_ofNat']
    omega

/-- A field is what its number is written as. -/
theorem leBytes_leNat (bs : Bytes) : leBytes bs.length (leNat bs) = bs := by
  induction bs with
  | nil => rfl
  | cons b bs ih =>
    have hb := b.toNat_lt
    have hdiv : (b.toNat + 256 * leNat bs) / 256 = leNat bs := by omega
    have hmod : (b.toNat + 256 * leNat bs).toUInt8 = b := by
      refine UInt8.toNat_inj.mp ?_
      rw [Nat.toUInt8_eq, UInt8.toNat_ofNat']
      omega
    rw [List.length_cons, leNat, leBytes, hdiv, hmod, ih]

/-! ## a number at the start -/

theorem take_leBytes_append (size n : ℕ) (rest : Bytes) :
    (leBytes size n ++ rest).take size = leBytes size n := by
  rw [List.take_left' (length_leBytes size n)]

theorem u16_take (bs : Bytes) : u16 (bs.take 2) = u16 bs := by
  rw [u16, List.take_take, Nat.min_self, u16]

theorem u32_take (bs : Bytes) : u32 (bs.take 4) = u32 bs := by
  rw [u32, List.take_take, Nat.min_self, u32]

theorem u64_take (bs : Bytes) : u64 (bs.take 8) = u64 bs := by
  rw [u64, List.take_take, Nat.min_self, u64]

theorem u16_append (n : UInt16) (rest : Bytes) : u16 (leBytes 2 n.toNat ++ rest) = n := by
  rw [u16, take_leBytes_append, leNat_leBytes n.toNat_lt]
  exact UInt16.ofNat_toNat

theorem u32_append (n : UInt32) (rest : Bytes) : u32 (leBytes 4 n.toNat ++ rest) = n := by
  rw [u32, take_leBytes_append, leNat_leBytes n.toNat_lt]
  exact UInt32.ofNat_toNat

theorem u64_append (n : UInt64) (rest : Bytes) : u64 (leBytes 8 n.toNat ++ rest) = n := by
  rw [u64, take_leBytes_append, leNat_leBytes n.toNat_lt]
  exact UInt64.ofNat_toNat

theorem u16_leBytes (n : UInt16) : u16 (leBytes 2 n.toNat) = n := by
  simpa using u16_append n []

theorem u32_leBytes (n : UInt32) : u32 (leBytes 4 n.toNat) = n := by
  simpa using u32_append n []

theorem u64_leBytes (n : UInt64) : u64 (leBytes 8 n.toNat) = n := by
  simpa using u64_append n []

/-- `_byteswap_ushort` -/
def byteswap (n : UInt16) : UInt16 := u16 (leBytes 2 n.toNat).reverse

@[simp]
theorem byteswap_byteswap (n : UInt16) : byteswap (byteswap n) = n := by
  have hback : leBytes 2 (byteswap n).toNat = (leBytes 2 n.toNat).reverse := by
    have hlength : (leBytes 2 n.toNat).reverse.length = 2 := by simp
    have hlt : leNat (leBytes 2 n.toNat).reverse < 2 ^ 16 := by
      simpa using leNat_lt (leBytes 2 n.toNat).reverse
    rw [byteswap, u16, List.take_of_length_le (by simp), Nat.toUInt16_eq, UInt16.toNat_ofNat',
      Nat.mod_eq_of_lt hlt]
    exact hlength ▸ leBytes_leNat _
  rw [byteswap, hback, List.reverse_reverse]
  simpa using u16_append n []

/-- The units of a whole number of units and what follows. -/
theorem units_append {xs : Bytes} (h : xs.length % 2 = 0) (ys : Bytes) :
    units (xs ++ ys) = units xs ++ units ys := by
  induction xs using units.induct with
  | case1 a b bs ih =>
    have hbs : bs.length % 2 = 0 := by
      simp only [List.length_cons] at h
      omega
    simp only [List.cons_append, units, ih hbs]
  | case2 bs hshort =>
    cases bs with
    | nil => rfl
    | cons a bs =>
      cases bs with
      | nil => simp at h
      | cons b bs => exact absurd rfl (hshort a b bs)

/-- An odd byte at the end is no unit. -/
theorem units_of_length_lt {bs : Bytes} (h : bs.length < 2) : units bs = [] := by
  match bs, h with
  | [], _ => rfl
  | [a], _ => simp [units]

theorem length_lt_two {bs : Bytes} (h : ∀ a b rest, bs = a :: b :: rest → False) :
    bs.length < 2 := by
  match bs, h with
  | [], _ => decide
  | [_], _ => simp
  | a :: b :: rest, h => exact absurd rfl (h a b rest)

@[simp]
theorem length_units (bs : Bytes) : (units bs).length = bs.length / 2 := by
  induction bs using units.induct with
  | case1 a b bs ih =>
    rw [units, List.length_cons, ih]
    simp only [List.length_cons]
    omega
  | case2 bs hshort =>
    have hlt := length_lt_two hshort
    rw [units_of_length_lt hlt, Nat.div_eq_of_lt hlt, List.length_nil]

/-- A cut inside a unit loses the unit. -/
theorem units_take (bs : Bytes) (n : ℕ) : units (bs.take n) = (units bs).take (n / 2) := by
  induction bs using units.induct generalizing n with
  | case1 a b bs ih =>
    match n with
    | 0 => rfl
    | 1 => simp [units]
    | n + 2 =>
      have hhalf : (n + 2) / 2 = n / 2 + 1 := by omega
      rw [hhalf, List.take_succ_cons, List.take_succ_cons, units, units, ih, List.take_succ_cons]
  | case2 bs hshort =>
    have hlt := length_lt_two hshort
    have htake : (bs.take n).length < 2 := (List.length_take_le' n bs).trans_lt hlt
    rw [units_of_length_lt hlt, units_of_length_lt htake, List.take_nil]

/-! ## flags -/

/-- The top bit of a number. -/
theorem and_two_pow_ne_zero_iff {n k : ℕ} (h : n < 2 * 2 ^ k) : n &&& 2 ^ k ≠ 0 ↔ 2 ^ k ≤ n := by
  rw [Nat.and_two_pow]
  cases hbit : n.testBit k with
  | false =>
    have hlt := Nat.lt_pow_two_of_testBit n fun j hj => by
      obtain rfl | hj := hj.eq_or_lt
      · exact hbit
      · refine Nat.testBit_lt_two_pow (h.trans_le ?_)
        rw [← Nat.pow_succ']
        exact Nat.pow_le_pow_right (by decide) hj
    simp [hlt]
  | true =>
    have hge := Nat.ge_two_pow_of_testBit hbit
    simp [hge]

end Infra
