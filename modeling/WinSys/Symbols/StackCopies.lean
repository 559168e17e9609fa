import Mathlib.Data.UInt
import WinSys.Infra.Reads

/-!
# Stack copies

A thread is suspended only while its stack is copied; the walk reads the copies, by `ReadMemory`.
The addresses it asks for are from the stack itself, so they may be any.

* `StackCopy`, `copyStack`, `captureStacks`
* `readMemory`: the test of each copy is made modulo 2⁶⁴
* `Sound`, `readMemory_sound_iff`: no read is outside a copy unless its end wraps into one
* `readMemory_captured`: the walk reads the stacks as they were when they were copied
-/

namespace WinSys.Symbols

open Infra

/-! ## the copies -/

def maxStackCopy : ℕ := 2 ^ 20

/-- A part of a stack, from a stack pointer up. -/
structure StackCopy where
  base : UInt64
  bytes : List UInt8
  base_pos : 0 < base
  /-- it ends below the stack's base, an address -/
  below : base.toNat + bytes.length < 2 ^ 64
  length_le : bytes.length ≤ maxStackCopy

/-- What `ReadProcessMemory` gives: whether all was read, and what was. -/
abbrev ReadProcess := UInt64 → ℕ → Bool × List UInt8

theorem copyStack_length {sp base : UInt64} (h : sp < base) (bytes : List UInt8) :
    sp.toNat + (bytes.take (min (base - sp).toNat maxStackCopy)).length < 2 ^ 64 := by
  have hsub : (base - sp).toNat = base.toNat - sp.toNat :=
    UInt64.toNat_sub_of_le _ _ (UInt64.le_of_lt h)
  have hlt : sp.toNat < base.toNat := UInt64.lt_iff_toNat_lt.mp h
  have hbase := base.toNat_lt
  rw [List.length_take]
  omega

/-- The lambda of `CaptureStack`. -/
def copyStack (readProcess : ReadProcess) (sp base : UInt64) : Option StackCopy :=
  if h : sp ≠ 0 ∧ sp < base then
    let size := min (base - sp).toNat maxStackCopy
    some
      { base := sp
        bytes := (readProcess sp size).2.take size
        base_pos := UInt64.pos_iff_ne_zero.mpr h.1
        below := copyStack_length h.2 _
        length_le := (List.length_take_le _ _).trans (min_le_right _ _) }
  else none

/-- The stack's copy, and for a WOW64 thread its 32-bit stack's; each a stack pointer and a base. -/
def captureStacks (readProcess : ReadProcess) (native : UInt64 × UInt64)
    (wow64 : Option (UInt64 × UInt64)) : List StackCopy :=
  (native :: wow64.toList).filterMap fun stack => copyStack readProcess stack.1 stack.2

/-! ## reading -/

/-- The test of a copy, with the sums of 64-bit numbers. -/
def StackCopy.Test (copy : StackCopy) (address : UInt64) (size : UInt32) : Prop :=
  copy.base ≤ address ∧
    address + size.toUInt64 ≤ copy.base + copy.bytes.length.toUInt64

instance (copy : StackCopy) (address : UInt64) (size : UInt32) :
    Decidable (copy.Test address size) := inferInstanceAs (Decidable (_ ∧ _))

/-- The copy that is read from. -/
def chosen (copies : List StackCopy) (address : UInt64) (size : UInt32) : Option StackCopy :=
  copies.find? fun copy => copy.Test address size

/-- `ReadMemory`: its result and the bytes read. -/
def readMemory (copies : List StackCopy) (readProcess : ReadProcess) (address : UInt64)
    (size : UInt32) : Reads (Bool × List UInt8) :=
  match chosen copies address size with
  | some copy => do
    let bytes ← Reads.raw copy.bytes (address - copy.base).toNat size.toNat
    return (true, bytes)
  | none =>
    let (ok, bytes) := readProcess address size.toNat
    pure (ok || bytes ≠ [], bytes)

/-! ## what a read is to give -/

/-- All addresses of a read are inside a copy. -/
def StackCopy.Covers (copy : StackCopy) (address : UInt64) (size : UInt32) : Prop :=
  ∀ i, address.toNat ≤ i → i < address.toNat + size.toNat →
    copy.base.toNat ≤ i ∧ i < copy.base.toNat + copy.bytes.length

/-- Reads from copies are of what was captured there; all others are from the process. -/
structure Sound (copies : List StackCopy) (readProcess : ReadProcess) (address : UInt64)
    (size : UInt32) : Prop where
  covers : ∀ copy ∈ chosen copies address size, copy ∈ copies ∧ copy.Covers address size
  safe : (readMemory copies readProcess address size).Safe
  captured : ∀ copy ∈ chosen copies address size,
    ∃ bytes : List UInt8, (readMemory copies readProcess address size).value = (true, bytes) ∧
      bytes.length = size.toNat ∧
      ∀ k < size.toNat, bytes[k]? = copy.bytes[address.toNat + k - copy.base.toNat]?
  other : chosen copies address size = none →
    (readMemory copies readProcess address size).value =
      ((readProcess address size.toNat).1 || (readProcess address size.toNat).2 ≠ [],
        (readProcess address size.toNat).2)

/-- The end of a read is past the last address and, taken for what is left of it, not behind the
end of a copy that begins below it. -/
def Wraps (copies : List StackCopy) (address : UInt64) (size : UInt32) : Prop :=
  2 ^ 64 ≤ address.toNat + size.toNat ∧
    ∃ copy ∈ copies, copy.base ≤ address ∧
      address.toNat + size.toNat - 2 ^ 64 ≤ copy.base.toNat + copy.bytes.length

section Sound

variable {copies : List StackCopy} {readProcess : ReadProcess} {address : UInt64} {size : UInt32}
  {copy : StackCopy}

theorem StackCopy.end_toNat (copy : StackCopy) :
    (copy.base + copy.bytes.length.toUInt64).toNat = copy.base.toNat + copy.bytes.length := by
  have hbelow := copy.below
  have hlength : copy.bytes.length.toUInt64.toNat = copy.bytes.length := by
    rw [Nat.toUInt64_eq, UInt64.toNat_ofNat']
    exact Nat.mod_eq_of_lt (by omega)
  rw [UInt64.toNat_add, hlength]
  exact Nat.mod_eq_of_lt hbelow

theorem request_end_toNat (address : UInt64) (size : UInt32) :
    (address + size.toUInt64).toNat = (address.toNat + size.toNat) % 2 ^ 64 := by
  rw [UInt64.toNat_add, UInt32.toNat_toUInt64]

theorem StackCopy.test_iff (copy : StackCopy) :
    copy.Test address size ↔ copy.base.toNat ≤ address.toNat ∧
      (address.toNat + size.toNat) % 2 ^ 64 ≤ copy.base.toNat + copy.bytes.length := by
  unfold StackCopy.Test
  rw [UInt64.le_iff_toNat_le, UInt64.le_iff_toNat_le, request_end_toNat, copy.end_toNat]

/-- A read that ends below the last address is tested as it is meant. -/
theorem StackCopy.Test.inside (htest : copy.Test address size)
    (hend : address.toNat + size.toNat < 2 ^ 64) :
    copy.base.toNat ≤ address.toNat ∧
      address.toNat + size.toNat ≤ copy.base.toNat + copy.bytes.length := by
  obtain ⟨hbase, htest⟩ := copy.test_iff.mp htest
  rw [Nat.mod_eq_of_lt hend] at htest
  exact ⟨hbase, htest⟩

/-- A read that wraps is inside no copy. -/
theorem not_covers_of_wraps (hend : 2 ^ 64 ≤ address.toNat + size.toNat) :
    ¬copy.Covers address size := by
  intro hcovers
  have haddress := address.toNat_lt
  have hbelow := copy.below
  obtain ⟨-, hlast⟩ := hcovers (address.toNat + size.toNat - 1) (by omega) (by omega)
  omega

theorem wraps_iff (hend : 2 ^ 64 ≤ address.toNat + size.toNat) :
    Wraps copies address size ↔ ∃ copy ∈ copies, copy.Test address size := by
  have haddress := address.toNat_lt
  have hsize := size.toNat_lt
  unfold Wraps
  rw [and_iff_right hend]
  refine exists_congr fun copy => and_congr_right fun _ => ?_
  rw [copy.test_iff, Nat.mod_eq_sub_mod hend, Nat.mod_eq_of_lt (by omega), UInt64.le_iff_toNat_le]

theorem chosen_mem (h : chosen copies address size = some copy) :
    copy ∈ copies ∧ copy.Test address size := by
  refine ⟨List.mem_of_find?_eq_some h, ?_⟩
  have htest := List.find?_some h
  exact of_decide_eq_true htest

/-- Where no copy is chosen, the process is read. -/
theorem sound_of_none (h : chosen copies address size = none) :
    Sound copies readProcess address size := by
  have hread : readMemory copies readProcess address size
      = pure ((readProcess address size.toNat).1 || (readProcess address size.toNat).2 ≠ [],
          (readProcess address size.toNat).2) := by
    rw [readMemory, h]
  refine ⟨fun copy hcopy => ?_, ?_, fun copy hcopy => ?_, fun _ => ?_⟩
  · cases h.symm.trans hcopy
  · rw [hread]
    exact Reads.safe_pure _
  · cases h.symm.trans hcopy
  · rw [hread]
    rfl

theorem sound_of_some (h : chosen copies address size = some copy)
    (hbase : copy.base.toNat ≤ address.toNat)
    (hinside : address.toNat + size.toNat ≤ copy.base.toNat + copy.bytes.length) :
    Sound copies readProcess address size := by
  have hoffset : (address - copy.base).toNat = address.toNat - copy.base.toNat :=
    UInt64.toNat_sub_of_le _ _ (UInt64.le_iff_toNat_le.mpr hbase)
  have hcovers : copy.Covers address size := fun i hi hlt => ⟨by omega, by omega⟩
  have hread : readMemory copies readProcess address size = do
      let bytes ← Reads.raw copy.bytes (address - copy.base).toNat size.toNat
      return (true, bytes) := by
    rw [readMemory, h]
  refine ⟨fun copy' hcopy => ?_, ?_, fun copy' hcopy => ?_, fun hnone => ?_⟩
  · cases h.symm.trans hcopy
    exact ⟨(chosen_mem h).1, hcovers⟩
  · rw [hread, Reads.safe_bind, Reads.safe_raw, hoffset]
    exact ⟨by omega, Reads.safe_pure _⟩
  · cases h.symm.trans hcopy
    refine ⟨_, congrArg Reads.value hread, ?_, fun k hk => ?_⟩
    · rw [Reads.value_raw, List.length_take, List.length_drop, hoffset]
      omega
    · rw [Reads.value_raw, List.getElem?_take_of_lt hk, List.getElem?_drop, hoffset]
      congr 1
      omega
  · cases h.symm.trans hnone

/-- **A read is sound if and only if its end does not wrap into a copy.** -/
theorem readMemory_sound_iff (copies : List StackCopy) (readProcess : ReadProcess)
    (address : UInt64) (size : UInt32) :
    Sound copies readProcess address size ↔ ¬Wraps copies address size := by
  obtain hend | hend := Nat.lt_or_ge (address.toNat + size.toNat) (2 ^ 64)
  · refine iff_of_true ?_ fun hwraps => absurd hwraps.1 (Nat.not_le.mpr hend)
    cases hchosen : chosen copies address size with
    | none => exact sound_of_none hchosen
    | some copy =>
      obtain ⟨hbase, hinside⟩ := (chosen_mem hchosen).2.inside hend
      exact sound_of_some hchosen hbase hinside
  · rw [wraps_iff hend]
    constructor
    · rintro hsound ⟨copy, hmem, htest⟩
      have hsome : (chosen copies address size).isSome :=
        List.find?_isSome.mpr ⟨copy, hmem, decide_eq_true htest⟩
      obtain ⟨copy', hchosen⟩ := Option.isSome_iff_exists.mp hsome
      exact not_covers_of_wraps hend (hsound.covers copy' hchosen).2
    · intro hnone
      refine sound_of_none (List.find?_eq_none.mpr fun copy hmem htest => ?_)
      exact hnone ⟨copy, hmem, of_decide_eq_true htest⟩

end Sound

/-! ## the stacks as they were -/

/-- What is read of a process is its memory, from an address on and as far as it can be read. -/
def ReadsMemory (memory : ℕ → UInt8) (readProcess : ReadProcess) : Prop :=
  ∀ address size k byte, (readProcess address size).2[k]? = some byte →
    byte = memory (address.toNat + k)

section Captured

variable {memory : ℕ → UInt8} {readProcess : ReadProcess} {native : UInt64 × UInt64}
  {wow64 : Option (UInt64 × UInt64)} {copy : StackCopy} {address : UInt64} {size : UInt32}

/-- A copy is of one of the thread's stacks: from its pointer on, and not behind its base. -/
theorem captureStacks_inside (h : copy ∈ captureStacks readProcess native wow64) :
    ∃ stack ∈ native :: wow64.toList,
      copy.base = stack.1 ∧ copy.base.toNat + copy.bytes.length ≤ stack.2.toNat := by
  obtain ⟨stack, hstack, hcopy⟩ := List.mem_filterMap.mp h
  refine ⟨stack, hstack, ?_⟩
  unfold copyStack at hcopy
  split at hcopy
  · next hsp =>
    have hsize : (stack.2 - stack.1).toNat = stack.2.toNat - stack.1.toNat :=
      UInt64.toNat_sub_of_le _ _ (UInt64.le_of_lt hsp.2)
    have hlt := UInt64.lt_iff_toNat_lt.mp hsp.2
    cases hcopy
    refine ⟨rfl, ?_⟩
    show stack.1.toNat + (List.take _ _).length ≤ stack.2.toNat
    rw [List.length_take]
    omega
  · cases hcopy

/-- A copy holds what was in the memory when it was made. -/
theorem captureStacks_memory (hmemory : ReadsMemory memory readProcess)
    (h : copy ∈ captureStacks readProcess native wow64) {i : ℕ} {byte : UInt8}
    (hbyte : copy.bytes[i]? = some byte) : byte = memory (copy.base.toNat + i) := by
  obtain ⟨stack, -, hcopy⟩ := List.mem_filterMap.mp h
  unfold copyStack at hcopy
  split at hcopy
  · cases hcopy
    rw [List.getElem?_take] at hbyte
    split at hbyte
    · exact hmemory _ _ _ _ hbyte
    · cases hbyte
  · cases hcopy

/-- **The walk reads the stacks as they were when they were copied**, whatever the process has there
since. -/
theorem readMemory_captured (hmemory : ReadsMemory memory readProcess) (later : ReadProcess)
    (hcopy : copy ∈ captureStacks readProcess native wow64)
    (hbase : copy.base.toNat ≤ address.toNat)
    (hinside : address.toNat + size.toNat ≤ copy.base.toNat + copy.bytes.length) :
    (readMemory (captureStacks readProcess native wow64) later address size).value
      = (true, (List.range size.toNat).map fun k => memory (address.toNat + k)) := by
  have hbelow := copy.below
  have hend : address.toNat + size.toNat < 2 ^ 64 := by omega
  have htest : copy.Test address size := by
    rw [copy.test_iff, Nat.mod_eq_of_lt hend]
    exact ⟨hbase, hinside⟩
  -- the first copy that has the range need not be this one
  have hsome : (chosen (captureStacks readProcess native wow64) address size).isSome :=
    List.find?_isSome.mpr ⟨copy, hcopy, decide_eq_true htest⟩
  obtain ⟨first, hfirst⟩ := Option.isSome_iff_exists.mp hsome
  obtain ⟨hmem, hfirst'⟩ := chosen_mem hfirst
  obtain ⟨hfirstBase, hfirstEnd⟩ := hfirst'.inside hend
  have hsound : Sound (captureStacks readProcess native wow64) later address size :=
    sound_of_some hfirst hfirstBase hfirstEnd
  obtain ⟨bytes, hvalue, hlength, hbytes⟩ := hsound.captured first hfirst
  rw [hvalue]
  congr 1
  refine List.ext_getElem? fun k => ?_
  by_cases hk : k < size.toNat
  · have hget : k < bytes.length := by omega
    have hcaptured := hbytes k hk
    rw [List.getElem?_eq_getElem hget] at hcaptured ⊢
    have hbyte := captureStacks_memory hmemory hmem hcaptured.symm
    have hplace : first.base.toNat + (address.toNat + k - first.base.toNat) = address.toNat + k := by
      omega
    rw [hbyte, hplace, List.getElem?_map, List.getElem?_range hk]
    rfl
  · rw [List.getElem?_eq_none (by omega), List.getElem?_eq_none (by simp; omega)]

end Captured

/-- A copy of four bytes. -/
def shortStack : StackCopy where
  base := 0x7FFDF000
  bytes := [1, 2, 3, 4]
  base_pos := by decide
  below := by decide
  length_le := by decide

/-- The end of the read wraps: the copy would be read far behind its end. -/
theorem readMemory_top :
    ¬(readMemory [shortStack] (fun _ _ => (false, [])) 0xFFFFFFFFFFFFFFF8 0x10).Safe ∧
      ¬Sound [shortStack] (fun _ _ => (false, [])) 0xFFFFFFFFFFFFFFF8 0x10 := by
  have hlost :
      ¬(readMemory [shortStack] (fun _ _ => (false, [])) 0xFFFFFFFFFFFFFFF8 0x10).Safe := by
    intro hsafe
    have hinside := hsafe ⟨4, 0xFFFFFFFF80020FF8, 0x10⟩ (by decide)
    exact absurd hinside (by decide)
  exact ⟨hlost, fun hsound => hlost hsound.safe⟩

end WinSys.Symbols
