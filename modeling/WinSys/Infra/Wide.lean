import Mathlib.Data.Nat.Digits.Lemmas
import Mathlib.Data.UInt

/-!
# Wide strings

A wide string is a list of UTF-16 code units. `wide` writes a constant; `hex` is the `%llX` of a
64-bit value, `decimal` the `std::to_wstring` of an unsigned one.
-/

namespace Infra

abbrev WChar := UInt16

abbrev WString := List WChar

section Decidable

variable {α : Type*} (p : α → Prop) [DecidablePred p]

-- decided along the text: over all values of a character it would not end
instance (priority := high) decidableForallMem (l : List α) : Decidable (∀ c ∈ l, p c) :=
  List.decidableBAll p l

instance (priority := high) decidableForallHead (c? : Option α) : Decidable (∀ c ∈ c?, p c) :=
  inferInstance

end Decidable

/-- A constant made of characters below U+10000. -/
def wide (s : String) : WString := s.toList.map fun c => c.toNat.toUInt16

def backslash : WChar := 0x5C

def hexDigit (d : ℕ) : WChar :=
  if d < 10 then (0x30 + d).toUInt16 else (0x41 + d - 10).toUInt16

/-- The upper-case hexadecimal digits of a number below `16 ^ fuel`, without leading zeros. -/
def hexDigits : ℕ → ℕ → WString
  | 0, _ => []
  | fuel + 1, n =>
    if n < 16 then [hexDigit n] else hexDigits fuel (n / 16) ++ [hexDigit (n % 16)]

def hex (value : UInt64) : WString := hexDigits 16 value.toNat

example : hex 0xFFFF0A = wide "FFFF0A" := by decide

theorem hexDigit_inj {d d' : ℕ} (hd : d < 16) (hd' : d' < 16) (h : hexDigit d = hexDigit d') :
    d = d' := by
  have hall : ∀ d < 16, ∀ d' < 16, hexDigit d = hexDigit d' → d = d' := by decide
  exact hall d hd d' hd' h

theorem hexDigits_ne_nil (fuel n : ℕ) : hexDigits (fuel + 1) n ≠ [] := by
  rw [hexDigits]
  split
  · exact List.cons_ne_nil _ _
  · exact List.append_ne_nil_of_right_ne_nil _ (List.cons_ne_nil _ _)

/-- Numbers with the same digits are the same. -/
theorem hexDigits_inj {fuel n n' : ℕ} (hn : n < 16 ^ fuel) (hn' : n' < 16 ^ fuel)
    (h : hexDigits fuel n = hexDigits fuel n') : n = n' := by
  induction fuel generalizing n n' with
  | zero => omega
  | succ fuel ih =>
    rw [pow_succ] at hn hn'
    have hone : ∀ m d d' : ℕ, 16 ≤ m → m < 16 ^ fuel * 16 →
        [hexDigit d] = hexDigits fuel (m / 16) ++ [hexDigit d'] → False := by
      intro m d d' hle hlt heq
      have hlength := congrArg List.length heq
      cases fuel with
      | zero => omega
      | succ fuel =>
        have hpos := List.length_pos_iff.mpr (hexDigits_ne_nil fuel (m / 16))
        rw [List.length_append, List.length_singleton, List.length_singleton] at hlength
        omega
    rw [hexDigits, hexDigits] at h
    split at h
    · next hlt =>
      split at h
      · next hlt' => exact hexDigit_inj hlt hlt' (List.singleton_inj.mp h)
      · next hle => exact (hone n' n (n' % 16) (by omega) hn' h).elim
    · next hle =>
      split at h
      · next hlt' => exact (hone n n' (n % 16) (by omega) hn h.symm).elim
      · next hle' =>
        obtain ⟨hdigits, hlast⟩ := List.append_inj' h rfl
        have hdiv := ih (by omega) (by omega) hdigits
        have hmod := hexDigit_inj (Nat.mod_lt _ (by omega)) (Nat.mod_lt _ (by omega))
          (List.singleton_inj.mp hlast)
        omega

theorem hex_injective : Function.Injective hex := by
  intro a b h
  have hpow : (2 : ℕ) ^ 64 = 16 ^ 16 := by norm_num
  exact UInt64.toNat_inj.mp (hexDigits_inj (hpow ▸ a.toNat_lt) (hpow ▸ b.toNat_lt) h)

/-- The digits of a number are digits and capital letters. -/
theorem mem_hexDigits {fuel n : ℕ} {c : WChar} (h : c ∈ hexDigits fuel n) :
    ∃ d < 16, c = hexDigit d := by
  induction fuel generalizing n with
  | zero => cases h
  | succ fuel ih =>
    rw [hexDigits] at h
    split at h
    · next hlt => exact ⟨n, hlt, List.mem_singleton.mp h⟩
    · obtain h | h := List.mem_append.mp h
      · exact ih h
      · exact ⟨n % 16, Nat.mod_lt _ (by omega), List.mem_singleton.mp h⟩

def digit (d : ℕ) : WChar := (0x30 + d).toUInt16

def decimal (n : ℕ) : WString :=
  if n = 0 then [digit 0] else (Nat.digits 10 n).reverse.map digit

theorem digit_toNat {d : ℕ} (h : d < 10) : (digit d).toNat - 0x30 = d := by
  have hall : ∀ d < 10, (digit d).toNat - 0x30 = d := by decide
  exact hall d h

/-- The decimal digits are digits. -/
theorem mem_decimal {n : ℕ} {c : WChar} (h : c ∈ decimal n) : ∃ d < 10, c = digit d := by
  unfold decimal at h
  split at h
  · exact ⟨0, by omega, List.mem_singleton.mp h⟩
  · obtain ⟨d, hd, rfl⟩ := List.mem_map.mp h
    exact ⟨d, Nat.digits_lt_base (by omega) (List.mem_reverse.mp hd), rfl⟩

/-- The digits read back. -/
theorem ofDigits_decimal (n : ℕ) :
    Nat.ofDigits 10 ((decimal n).map fun c => c.toNat - 0x30).reverse = n := by
  unfold decimal
  split
  · next hn => simp [hn, digit_toNat]
  · have hback : ((Nat.digits 10 n).reverse.map digit).map (fun c => c.toNat - 0x30)
        = (Nat.digits 10 n).reverse := by
      rw [List.map_map]
      refine (List.map_congr_left fun d hd => ?_).trans (List.map_id _)
      exact digit_toNat (Nat.digits_lt_base (by omega) (List.mem_reverse.mp hd))
    rw [hback, List.reverse_reverse, Nat.ofDigits_digits]

theorem decimal_injective : Function.Injective decimal := by
  intro a b h
  rw [← ofDigits_decimal a, h, ofDigits_decimal]

/-- ASCII lower case, as the C locale folds. -/
def foldCase (c : WChar) : WChar := if 0x41 ≤ c ∧ c ≤ 0x5A then c + 0x20 else c

/-- What is no letter is only itself without case. -/
theorem foldCase_eq_iff {d : WChar}
    (h : ¬(0x41 ≤ d ∧ d ≤ 0x5A ∨ 0x61 ≤ d ∧ d ≤ 0x7A)) (c : WChar) : foldCase c = d ↔ c = d := by
  unfold foldCase
  split
  · next hc =>
    have hlow : 0x41 ≤ c.toNat := hc.1
    have hhigh : c.toNat ≤ 0x5A := hc.2
    have hsum : (c + 0x20).toNat = c.toNat + 0x20 := by
      rw [UInt16.toNat_add]
      exact Nat.mod_eq_of_lt (by change c.toNat + 0x20 < 2 ^ 16; omega)
    constructor
    · rintro rfl
      refine absurd (.inr ⟨?_, ?_⟩) h
      · change 0x61 ≤ (c + 0x20).toNat
        omega
      · change (c + 0x20).toNat ≤ 0x7A
        omega
    · rintro rfl
      exact absurd (.inl hc) h
  · exact Iff.rfl

/-- `_wcsnicmp(name, pre, |pre|) == 0` for a `pre` without NULs: `name` starts with `pre`, case
aside. -/
def startsWithFold (name pre : WString) : Bool :=
  (name.take pre.length).map foldCase == pre.map foldCase

end Infra
