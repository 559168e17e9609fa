import WinSys.Infra.Bytes
import WinSys.Infra.Wide

/-!
# Loads from an address space

A computation that follows pointers is its value with every load it made, in order, and where each
has to end. Addresses are reduced modulo 2⁶⁴. `Within` says that no load is outside the buffer; it is
checked along a computation by its binds.
-/

namespace Infra

/-- A `size_t`, or a pointer. -/
def wrap (n : ℕ) : ℕ := n % 2 ^ 64

theorem wrap_of_lt {n : ℕ} (h : n < 2 ^ 64) : wrap n = n := Nat.mod_eq_of_lt h

abbrev Memory := ℕ → UInt8

structure Load where
  address : ℕ
  count : ℕ
  /-- Where it has to end. -/
  limit : ℕ
deriving DecidableEq, Repr

structure Loads (α : Type) where
  value : α
  loads : List Load := []

namespace Loads

variable {α β : Type}

instance : Monad Loads where
  pure a := { value := a }
  bind r f := { value := (f r.value).value, loads := r.loads ++ (f r.value).loads }

@[simp] theorem value_pure (a : α) : (pure a : Loads α).value = a := rfl

@[simp] theorem value_bind (r : Loads α) (f : α → Loads β) :
    (r >>= f).value = (f r.value).value := rfl

/-- Every load is in the buffer at `base` of `size` bytes, and ends where it has to. -/
def Within (base size : ℕ) (r : Loads α) : Prop :=
  ∀ l ∈ r.loads, base ≤ l.address ∧ l.address + l.count ≤ l.limit ∧ l.limit ≤ base + size

instance (base size : ℕ) (r : Loads α) : Decidable (r.Within base size) :=
  inferInstanceAs (Decidable (∀ l ∈ r.loads, _ ∧ _ ∧ _))

variable {base size : ℕ}

@[simp] theorem within_pure (a : α) : (pure a : Loads α).Within base size := nofun

@[simp] theorem within_bind (r : Loads α) (f : α → Loads β) :
    (r >>= f).Within base size ↔ r.Within base size ∧ (f r.value).Within base size :=
  List.forall_mem_append

/-! ## memory -/

/-- The bytes from an address on. -/
def bytesAt (m : Memory) (address count : ℕ) : Bytes :=
  (List.range count).map fun i => m (wrap (address + i))

@[simp] theorem length_bytesAt (m : Memory) (address count : ℕ) :
    (bytesAt m address count).length = count := by simp [bytesAt]

/-- A record is loaded whole. -/
def record (m : Memory) (address count limit : ℕ) : Loads Bytes where
  value := bytesAt m address count
  loads := [⟨address, count, limit⟩]

@[simp] theorem value_record (m : Memory) (address count limit : ℕ) :
    (record m address count limit).value = bytesAt m address count := rfl

@[simp] theorem within_record (m : Memory) (address count limit : ℕ) :
    (record m address count limit).Within base size
      ↔ base ≤ address ∧ address + count ≤ limit ∧ limit ≤ base + size := List.forall_mem_singleton

/-- The wide string at an address, up to its NUL, or of a length. -/
def wideAt (m : Memory) (address : ℕ) : ℕ → WString
  | 0 => []
  | max + 1 =>
    let ch := u16 (bytesAt m address 2)
    if ch = 0 then [] else ch :: wideAt m (address + 2) max

/-- `wcsnlen`, which loads up to the NUL, then the string. -/
def wideString (m : Memory) (address max limit : ℕ) : Loads WString :=
  let text := wideAt m address max
  { value := text
    loads := if max = 0 then [] else [⟨address, 2 * min (text.length + 1) max, limit⟩] }

/-! ## counted loops -/

/-- The results of `turns` turns from index `i` on. -/
def collect (turn : ℕ → Loads (Option α)) : ℕ → ℕ → Loads (List α)
  | 0, _ => pure []
  | turns + 1, i => do
    let result ← turn i
    return result.toList ++ (← collect turn turns (i + 1))

variable {turn : ℕ → Loads (Option α)}

theorem within_collect {turns i : ℕ} : (collect turn turns i).Within base size
    ↔ ∀ j, i ≤ j → j < i + turns → (turn j).Within base size := by
  induction turns generalizing i with
  | zero => exact iff_of_true (within_pure _) fun j hi hj => absurd hj (by omega)
  | succ turns ih =>
    simp only [collect, within_bind, within_pure, and_true, ih]
    constructor
    · rintro ⟨hfirst, hrest⟩ j hi hj
      obtain rfl | hlt := hi.eq_or_lt
      · exact hfirst
      · exact hrest j hlt (by omega)
    · exact fun h => ⟨h i (Nat.le_refl i) (by omega), fun j hi hj => h j (by omega) (by omega)⟩

theorem length_collect (turns i : ℕ) : (collect turn turns i).value.length ≤ turns := by
  induction turns generalizing i with
  | zero => exact Nat.le_refl 0
  | succ turns ih =>
    have hrest := ih (i + 1)
    simp only [collect, value_bind, value_pure, List.length_append]
    cases (turn i).value with
    | none => simpa using Nat.le_succ_of_le hrest
    | some a =>
      simp only [Option.toList_some, List.length_singleton]
      omega

end Loads

end Infra
