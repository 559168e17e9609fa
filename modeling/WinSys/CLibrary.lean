import WinSys.Infra.Wide

/-!
# The C library's characters

What the C library takes for white space and for digits beyond ASCII is the system's to say, so it is
a parameter (`CLibrary`), fixed on ASCII.
-/

namespace WinSys

open Infra

namespace CLibrary

/-- From the tab to the carriage return, and the space. -/
def asciiSpace (c : WChar) : Bool := (0x09 ≤ c && c ≤ 0x0D) || c = 0x20

/-- What a character counts as a digit, of any base up to 36. -/
def asciiDigit (c : WChar) : Option ℕ :=
  if 0x30 ≤ c ∧ c ≤ 0x39 then some (c.toNat - 0x30)
  else if 0x41 ≤ c ∧ c ≤ 0x5A then some (c.toNat - 0x41 + 10)
  else if 0x61 ≤ c ∧ c ≤ 0x7A then some (c.toNat - 0x61 + 10)
  else none

def isDigit (value : WChar → Option ℕ) (base : ℕ) (c : WChar) : Bool := (value c).any (· < base)

end CLibrary

open CLibrary

/-- What the C library takes for white space and for digits: beyond ASCII, other scripts' as well. -/
class CLibrary where
  iswspace : WChar → Bool
  iswxdigit : WChar → Bool
  /-- As `asciiDigit`, for `wcstoul`. -/
  digitValue : WChar → Option ℕ
  iswspace_ascii : ∀ c < 0x80, iswspace c = asciiSpace c
  iswxdigit_ascii : ∀ c < 0x80, iswxdigit c = isDigit asciiDigit 16 c
  digitValue_ascii : ∀ c < 0x80, digitValue c = asciiDigit c

namespace CLibrary

/-- As it takes the Unicode spaces and the full-width digits. -/
@[reducible]
def unicode : CLibrary where
  iswspace c := asciiSpace c || c = 0x85 || c = 0xA0 || c = 0x1680 || (0x2000 ≤ c && c ≤ 0x200A)
    || c = 0x2028 || c = 0x2029 || c = 0x202F || c = 0x205F || c = 0x3000
  iswxdigit c := isDigit asciiDigit 16 c || (0xFF10 ≤ c && c ≤ 0xFF19)
    || (0xFF21 ≤ c && c ≤ 0xFF26) || (0xFF41 ≤ c && c ≤ 0xFF46)
  digitValue c := if 0xFF10 ≤ c ∧ c ≤ 0xFF19 then some (c.toNat - 0xFF10) else asciiDigit c
  iswspace_ascii c hc := by
    have hlt : c.toNat < 0x80 := UInt16.lt_iff_toNat_lt.mp hc
    cases hspace : asciiSpace c with
    | true => rfl
    | false =>
      simp only [Bool.false_or, Bool.or_eq_false_iff, decide_eq_false_iff_not,
        Bool.and_eq_false_iff, UInt16.le_iff_toNat_le, ← UInt16.toNat_inj, UInt16.reduceToNat]
      omega
  iswxdigit_ascii c hc := by
    have hlt : c.toNat < 0x80 := UInt16.lt_iff_toNat_lt.mp hc
    cases hdigit : isDigit asciiDigit 16 c with
    | true => rfl
    | false =>
      simp only [Bool.false_or, Bool.or_eq_false_iff, decide_eq_false_iff_not,
        Bool.and_eq_false_iff, UInt16.le_iff_toNat_le, UInt16.reduceToNat]
      omega
  digitValue_ascii c hc := by
    have hlt : c.toNat < 0x80 := UInt16.lt_iff_toNat_lt.mp hc
    refine if_neg fun h => ?_
    have hge : 0xFF10 ≤ c.toNat := UInt16.le_iff_toNat_le.mp h.1
    omega

def numeral (value : WChar → Option ℕ) (base : ℕ) (digits : WString) : ℕ :=
  digits.foldl (fun n c => n * base + (value c).getD 0) 0

variable [CLibrary]

/-- The digits after white space, a sign, and `0x` in base 16, as a 32-bit number: the largest one on
overflow. -/
def wcstoul (text : WString) (base : ℕ) : ℕ :=
  let unsigned : WString → ℕ := fun rest =>
    numeral digitValue base
      ((if base = 16 ∧ (wide "0x" <+: rest ∨ wide "0X" <+: rest) then rest.drop 2
        else rest).takeWhile (isDigit digitValue base))
  match text.dropWhile iswspace with
  | [] => 0
  | c :: rest =>
    if c = 0x2D then
      let value := unsigned rest
      if 2 ^ 32 ≤ value then 2 ^ 32 - 1 else (2 ^ 32 - value) % 2 ^ 32
    else
      min (unsigned (if c = 0x2B then rest else c :: rest)) (2 ^ 32 - 1)

end CLibrary

end WinSys
