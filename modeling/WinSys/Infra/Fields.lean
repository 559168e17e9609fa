import WinSys.Infra.Payload

/-!
# Readers that give zero past the end

A reader goes over a payload by an offset that may run past the end; there a number reads as zero
and a string as what is left of it. `Degrades` says what a reader gives of the first bytes of an
encoding, whatever is behind; it is checked along a reader by its binds.
-/

namespace Infra

open Reads

def FieldReader (α : Type) : Type := Bytes → ℕ → Reads (α × ℕ)

namespace FieldReader

variable {α β : Type}

instance : Monad FieldReader where
  pure a := fun _ offset => pure (a, offset)
  bind m f := fun data offset => do
    let (a, offset) ← m data offset
    f a data offset

/-- A number of a width. -/
def number (width : ℕ) : FieldReader ℕ := fun data offset =>
  if offset + width ≤ data.length then do
    return (leNat (← raw data offset width), offset + width)
  else return (0, offset + width)

/-- A NUL-terminated UTF-16 string, past its terminator. -/
def text : FieldReader WString := fun data offset =>
  if offset ≥ data.length then return ([], offset)
  else do
    let available := units (data.drop offset)
    let found := available.takeWhile (· ≠ 0)
    let _ ← raw data offset (2 * min (found.length + 1) available.length)
    return (found, offset + (found.length + 1) * 2)

/-! ## what a reader does -/

class Safe (m : FieldReader α) : Prop where
  safe : ∀ data offset, (m data offset).Safe

instance (a : α) : Safe (pure a) where
  safe _ _ := safe_pure _

instance {m : FieldReader α} {f : α → FieldReader β} [hm : Safe m] [hf : ∀ a, Safe (f a)] :
    Safe (m >>= f) where
  safe data offset := (safe_bind (m data offset) fun r => f r.1 data r.2).mpr
    ⟨hm.safe data offset, (hf _).safe data _⟩

instance (width : ℕ) : Safe (number width) where
  safe data offset := by
    unfold number
    split
    · next h =>
      simp only [safe_bind, safe_raw, safe_pure, and_true]
      exact h
    · exact safe_pure _

instance : Safe text where
  safe data offset := by
    unfold text
    split
    · exact safe_pure _
    · have hlength := length_units (data.drop offset)
      rw [List.length_drop] at hlength
      refine (safe_bind _ _).mpr ⟨?_, safe_pure _⟩
      rw [safe_raw]
      omega

/-- The reader is at the place, or both are past the end. -/
def InStep (data : Bytes) (place offset : ℕ) : Prop :=
  offset = place ∨ data.length ≤ place ∧ data.length ≤ offset

/-- What the reader gives of the encoding's first `n` bytes is `value n`. -/
structure Degrades (m : FieldReader α) (bytes : Bytes) (value : ℕ → α) : Prop where
  gives : ∀ (payload rest : Bytes) (place offset cut : ℕ), payload.drop place = bytes ++ rest →
    InStep (payload.take cut) place offset →
    (m (payload.take cut) offset).value.1 = value (cut - place)
  moves : ∀ (payload rest : Bytes) (place offset cut : ℕ), payload.drop place = bytes ++ rest →
    InStep (payload.take cut) place offset →
    InStep (payload.take cut) (place + bytes.length) (m (payload.take cut) offset).value.2

theorem degrades_pure (a : α) : Degrades (pure a) [] fun _ => a where
  gives _ _ _ _ _ _ _ := rfl
  moves _ _ _ _ _ _ h := h

theorem Degrades.bind {m : FieldReader α} {f : α → FieldReader β} {bytes more : Bytes}
    {value : ℕ → α} {next : ℕ → ℕ → β} (hm : Degrades m bytes value)
    (hf : ∀ n, Degrades (f (value n)) more (next n)) :
    Degrades (m >>= f) (bytes ++ more) fun n => next n (n - bytes.length) where
  gives payload rest place offset cut hdata hstep := by
    rw [List.append_assoc] at hdata
    have hnext : payload.drop (place + bytes.length) = more ++ rest := by
      rw [← List.drop_drop, hdata, List.drop_left]
    have hgives := hm.gives payload _ place offset cut hdata hstep
    have hmoves := hm.moves payload _ place offset cut hdata hstep
    refine (congrArg (fun a => (f a _ _).value.1) hgives).trans ?_
    rw [(hf _).gives payload rest _ _ cut hnext hmoves, Nat.sub_add_eq]
  moves payload rest place offset cut hdata hstep := by
    rw [List.append_assoc] at hdata
    have hnext : payload.drop (place + bytes.length) = more ++ rest := by
      rw [← List.drop_drop, hdata, List.drop_left]
    have hgives := hm.gives payload _ place offset cut hdata hstep
    have hmoves := hm.moves payload _ place offset cut hdata hstep
    rw [List.length_append, ← Nat.add_assoc]
    have hstep' := (hf (cut - place)).moves payload rest _ _ cut hnext hmoves
    rw [← hgives] at hstep'
    exact hstep'

theorem Degrades.congr {m : FieldReader α} {bytes : Bytes} {value value' : ℕ → α}
    (h : Degrades m bytes value) (hv : ∀ n, value n = value' n) : Degrades m bytes value' :=
  funext hv ▸ h

theorem Degrades.map {m : FieldReader α} {bytes : Bytes} {value : ℕ → α}
    (h : Degrades m bytes value) (f : α → β) :
    Degrades (do return f (← m)) bytes fun n => f (value n) := by
  simpa using h.bind (f := fun a => pure (f a)) fun n => degrades_pure (f (value n))

/-- A reader of the fields gives the values of the payload's first bytes. -/
theorem Degrades.value_take {m : FieldReader α} {bytes : Bytes} {value : ℕ → α}
    (h : Degrades m bytes value) (rest : Bytes) (cut : ℕ) :
    (m ((bytes ++ rest).take cut) 0).value.1 = value cut :=
  h.gives (bytes ++ rest) rest 0 0 cut rfl (.inl rfl)

/-! ## the fields -/

theorem number_value (width : ℕ) (data : Bytes) (offset : ℕ) :
    (number width data offset).value
      = (if offset + width ≤ data.length then leNat ((data.drop offset).take width) else 0,
          offset + width) := by
  unfold number
  split <;> rfl

/-- A number is there when all of it is. -/
theorem degrades_number {width n : ℕ} (h : n < 256 ^ width) :
    Degrades (number width) (leBytes width n) fun present => if width ≤ present then n else 0 where
  gives payload rest place offset cut hdata hstep := by
    rw [number_value]
    obtain rfl | hwidth := Nat.eq_zero_or_pos width
    · obtain rfl : n = 0 := by omega
      rw [List.take_zero, leNat, ite_self, ite_self]
    · have hlength := congrArg List.length hdata
      rw [List.length_drop, List.length_append, length_leBytes] at hlength
      rw [InStep, List.length_take] at hstep
      simp only [List.length_take]
      obtain rfl | ⟨hplace, hoffset⟩ := hstep
      · by_cases hin : offset + width ≤ cut
        · rw [if_pos (by omega), if_pos (by omega), List.drop_take, List.take_take,
            Nat.min_eq_left (by omega), hdata, take_leBytes_append, leNat_leBytes h]
        · rw [if_neg (by omega), if_neg (by omega)]
      · rw [if_neg (by omega), if_neg (by omega)]
  moves payload rest place offset cut hdata hstep := by
    rw [length_leBytes, number_value]
    obtain rfl | ⟨hplace, hpast⟩ := hstep
    · exact .inl rfl
    · exact .inr ⟨by omega, by simp only; omega⟩

theorem takeWhile_take {text : WString} (h : 0 ∉ text) (n : ℕ) (more : WString) :
    ((text ++ 0 :: more).take n).takeWhile (· ≠ 0) = text.take n := by
  have hne : ∀ c ∈ text.take n, decide (c ≠ 0) = true := fun c hc =>
    decide_eq_true fun h0 => h (h0 ▸ List.mem_of_mem_take hc)
  rw [List.take_append, List.takeWhile_append_of_pos hne]
  cases hn : n - text.length with
  | zero => rw [List.take_zero, List.takeWhile_nil, List.append_nil]
  | succ k => simp

theorem text_value (data : Bytes) (offset : ℕ) :
    (text data offset).value =
      if offset ≥ data.length then ([], offset)
      else ((units (data.drop offset)).takeWhile (· ≠ 0),
        offset + (((units (data.drop offset)).takeWhile (· ≠ 0)).length + 1) * 2) := by
  unfold text
  split <;> rfl

/-- Of a string there are the whole characters before the cut. -/
theorem units_zString_cut {text : WString} (h : 0 ∉ text) {payload rest : Bytes} {place : ℕ}
    (hdata : payload.drop place = zString text ++ rest) (cut : ℕ) :
    (units ((payload.take cut).drop place)).takeWhile (· ≠ 0) = text.take ((cut - place) / 2) := by
  rw [List.drop_take, hdata, units_take, zString, units_wideBytes_append, List.append_assoc]
  exact takeWhile_take h _ _

theorem degrades_text {t : WString} (h : 0 ∉ t) :
    Degrades text (zString t) fun present => t.take (present / 2) where
  gives payload rest place offset cut hdata hstep := by
    rw [text_value]
    obtain rfl | ⟨hplace, hoffset⟩ := hstep
    · split
      · next hpast =>
        rw [List.length_take] at hpast
        have hlength := congrArg List.length hdata
        rw [List.length_drop, List.length_append] at hlength
        simp only [zString, length_wideBytes, List.length_append, List.length_singleton] at hlength
        have hcut : cut - offset = 0 := by omega
        simp [hcut]
      · exact units_zString_cut h hdata cut
    · have hlength := congrArg List.length hdata
      rw [List.length_drop, List.length_append] at hlength
      simp only [zString, length_wideBytes, List.length_append, List.length_singleton] at hlength
      rw [List.length_take] at hplace
      have hcut : cut - place = 0 := by omega
      rw [if_pos hoffset]
      simp [hcut]
  moves payload rest place offset cut hdata hstep := by
    have hlength := congrArg List.length hdata
    rw [List.length_drop, List.length_append] at hlength
    simp only [zString, length_wideBytes, List.length_append, List.length_singleton] at hlength ⊢
    rw [text_value]
    obtain rfl | ⟨hplace, hoffset⟩ := hstep
    · split
      · next hpast => exact .inr ⟨by omega, hpast⟩
      · rw [units_zString_cut h hdata cut, List.length_take]
        by_cases hwhole : offset + 2 * (t.length + 1) ≤ cut
        · left
          simp only
          omega
        · right
          rw [List.length_take]
          simp only
          omega
    · rw [if_pos hoffset]
      exact .inr ⟨by omega, hoffset⟩

end FieldReader

end Infra
