import WinSys.Wsl.Stat

/-!
# Any stat line

`parseStat` of a line with any name and any decimal fields, and of a line with too few of them.
-/

namespace WinSys.Wsl

open Infra

/-! ## decimal fields -/

/-- The number that digits are. -/
def decimalValue (digits : Bytes) : ℕ := digits.foldl (fun n ch => n * 10 + (ch - 48).toNat) 0

/-- A number in a stat line; the kernel prints some with a sign. -/
structure DecimalField where
  negative : Bool
  digits : Bytes
  digits_ne : digits ≠ []
  isDigits : ∀ ch ∈ digits, isDigit ch = true
  value_lt : decimalValue digits < 2 ^ 64

namespace DecimalField

variable (f : DecimalField)

def text : Bytes := if f.negative then 45 :: f.digits else f.digits

/-- What the number is read as: one with a sign as 0. -/
def number : UInt64 := if f.negative then 0 else (decimalValue f.digits).toUInt64

theorem isField_text : IsField f.text ∧ 41 ∉ f.text := by
  have hdigit : ∀ ch, isDigit ch = true → isBlank ch = false ∧ ch ≠ 41 := by
    intro ch hch
    have hstat : isStatChar ch = true := by
      rw [isStatChar, isNumeric, hch]
      rfl
    exact ⟨(isStatChar_ne hstat).2.2.2, (isStatChar_ne hstat).1⟩
  unfold text IsField
  split
  · refine ⟨⟨List.cons_ne_nil _ _, ?_⟩, ?_⟩
    · intro ch hch
      cases List.mem_cons.mp hch with
      | inl h => rw [h]; decide
      | inr h => exact (hdigit ch (f.isDigits ch h)).1
    · intro hm
      cases List.mem_cons.mp hm with
      | inl h => exact absurd h (by decide)
      | inr h => exact (hdigit 41 (f.isDigits 41 h)).2 rfl
  · exact ⟨⟨f.digits_ne, fun ch hch => (hdigit ch (f.isDigits ch hch)).1⟩,
      fun hm => (hdigit 41 (f.isDigits 41 hm)).2 rfl⟩

end DecimalField

/-- Digits are read as their number, modulo 2^64. -/
theorem toNumber_digits {digits : Bytes} (h : ∀ ch ∈ digits, isDigit ch = true) :
    toNumber digits = (decimalValue digits).toUInt64 := by
  have hfold : ∀ (digits : Bytes) (value : ℕ),
      digits.foldl (fun value ch => value * 10 + (ch - 48).toUInt64) value.toUInt64
        = (digits.foldl (fun n ch => n * 10 + (ch - 48).toNat) value).toUInt64 := by
    intro digits
    induction digits with
    | nil => exact fun value => rfl
    | cons ch digits ih =>
      intro value
      have hstep : value.toUInt64 * 10 + (ch - 48).toUInt64
          = (value * 10 + (ch - 48).toNat).toUInt64 := by
        simp [Nat.toUInt64_eq]
      rw [List.foldl_cons, List.foldl_cons, hstep, ih]
  rw [toNumber, List.takeWhile_eq_self_iff.mpr h]
  exact hfold digits 0

theorem DecimalField.toNumber_text (f : DecimalField) : toNumber f.text = f.number := by
  unfold text number
  split
  · rfl
  · exact toNumber_digits f.isDigits

/-! ## lines -/

/-- `pid (name) state f4 f5 ...` -/
def statLine (pid : UInt32) (comm : Bytes) (state : UInt8) (fields : List DecimalField) : Bytes :=
  decimalText pid.toNat ++ (ascii " (" ++ (comm ++ 41 ::
    ([state] :: fields.map DecimalField.text).flatMap (space :: ·)))

/-- What a line's fields say, in order from the parent's ID. -/
def statRead (conv : Conversions) (pageSize pid : UInt32) (comm : Bytes) (state : UInt8)
    (numbers : ℕ → UInt64) : WslProcess where
  pid := pid
  parentPid := (numbers 0).toUInt32
  name := conv.fromUtf8 comm
  state := charToWide state
  userTicks := numbers 10
  systemTicks := numbers 11
  threads := (numbers 16).toUInt32
  startTicks := numbers 18
  virtualBytes := numbers 19
  residentBytes := numbers 20 * pageSize.toUInt64

theorem parseStat_statLine (conv : Conversions) (pageSize pid : UInt32) (hpid : pid ≠ 0)
    (comm : Bytes) {state : UInt8} (hstate : isLetter state = true) (fields : List DecimalField)
    (hcount : 21 ≤ fields.length) :
    parseStat conv (statLine pid comm state fields) pageSize = some
      (statRead conv pageSize pid comm state fun i => (fields[i]?.map DecimalField.number).getD 0) := by
  have hfields : ∀ f ∈ [state] :: fields.map DecimalField.text, IsField f ∧ 41 ∉ f := by
    intro f hf
    cases List.mem_cons.mp hf with
    | inl h =>
      have hchar : isStatChar state = true := by
        rw [isStatChar, hstate, Bool.or_true]
      rw [h]
      refine ⟨⟨by simp, fun ch hch => ?_⟩, fun hm => ?_⟩
      · rw [List.mem_singleton.mp hch]
        exact (isStatChar_ne hchar).2.2.2
      · exact (isStatChar_ne hchar).1 (List.mem_singleton.mp hm).symm
    | inr h =>
      obtain ⟨field, -, rfl⟩ := List.mem_map.mp h
      exact field.isField_text
  have hnumber : ∀ i, toNumber (([state] :: fields.map DecimalField.text).getD (i + 1) [])
      = (fields[i]?.map DecimalField.number).getD 0 := by
    intro i
    rw [List.getD_cons_succ, List.getD_eq_getElem?_getD, List.getElem?_map]
    cases fields[i]? with
    | none => rfl
    | some f => exact f.toNumber_text
  rw [statLine, parseStat_line conv pageSize pid hpid comm hfields (by simpa using hcount)]
  simp only [hnumber]
  rfl

/-- A line with too few fields after its last `)` is no process's. -/
theorem parseStat_few (conv : Conversions) (pageSize : UInt32) (before after : Bytes)
    (hafter : 41 ∉ after) (hfew : (split after).length < 22) :
    parseStat conv (before ++ 41 :: after) pageSize = none := by
  have hclose : rfind 41 (before ++ 41 :: after) = some before.length :=
    rfind_append_cons hafter before
  have hdrop : (before ++ 41 :: after).drop (before.length + 1) = after := by
    rw [List.append_cons, List.drop_left' (by simp)]
  unfold parseStat
  rw [hclose]
  split
  · next opening closing hopen hclosing =>
    cases hclosing
    split
    · rfl
    · dsimp only
      rw [hdrop, if_pos hfew]
      split
      · rfl
      · rfl
  · rfl

/-- **A stat line is read as what it was written of**, the 32-bit IDs and counts modulo 2^32, and
one with fewer fields as nothing. -/
theorem stat_lines_read (conv : Conversions) (pageSize : UInt32) :
    (∀ (pid : UInt32) (comm : Bytes) (state : UInt8) (fields : List DecimalField),
      pid ≠ 0 → isLetter state = true → 21 ≤ fields.length →
      parseStat conv (statLine pid comm state fields) pageSize = some
        (statRead conv pageSize pid comm state
          fun i => (fields[i]?.map DecimalField.number).getD 0)) ∧
    ∀ before after : Bytes, 41 ∉ after → (split after).length < 22 →
      parseStat conv (before ++ 41 :: after) pageSize = none := by
  constructor
  · intro pid comm state fields hpid hstate hcount
    exact parseStat_statLine conv pageSize pid hpid comm hstate fields hcount
  · intro before after hafter hfew
    exact parseStat_few conv pageSize before after hafter hfew

/-- ASCII names; the times are not read in a stat line. -/
def asciiConversions : Conversions where
  fromUtf8 := fun bs => bs.map UInt8.toUInt16
  strtod := fun _ => 0

def decimalField (digits : Bytes) (hne : digits ≠ [] := by decide)
    (hdigits : ∀ ch ∈ digits, isDigit ch = true := by decide)
    (hlt : decimalValue digits < 2 ^ 64 := by decide) : DecimalField :=
  ⟨false, digits, hne, hdigits, hlt⟩

/-- A name that looks like the fields after a name. -/
theorem stat_lines_read_parens :
    parseStat asciiConversions (statLine 7 (ascii "a) R 1 (b") 83
        (List.replicate 21 (decimalField (ascii "12")))) 4096 = some
      (statRead asciiConversions 4096 7 (ascii "a) R 1 (b") 83
        fun i => ((List.replicate 21 (decimalField (ascii "12")))[i]?.map
          DecimalField.number).getD 0) ∧
    parseStat asciiConversions (ascii "7 (a) R 1 (b" ++ 41 :: ascii " S 1 2") 4096 = none :=
  ⟨(stat_lines_read asciiConversions 4096).1 7 (ascii "a) R 1 (b") 83 _ (by decide) (by decide)
      (by simp),
    (stat_lines_read asciiConversions 4096).2 _ _ (by decide) (by decide)⟩

/-- A parent's ID of 33 bits is not what is read. -/
theorem wide_parent_cut :
    ¬ ∀ (conv : Conversions) (pageSize pid : UInt32) (comm : Bytes) (state : UInt8)
        (parent : DecimalField) (fields : List DecimalField), pid ≠ 0 → newline ∉ comm →
      isLetter state = true → parent.negative = false → 20 ≤ fields.length →
      ∃ p, parseStat conv (statLine pid comm state (parent :: fields)) pageSize = some p ∧
        p.parentPid.toNat = decimalValue parent.digits := by
  intro h
  obtain ⟨p, hp, hparent⟩ := h asciiConversions 4096 7 [] 83 (decimalField (ascii "4294967296"))
    (List.replicate 20 (decimalField (ascii "0"))) (by decide) (by decide) (by decide) rfl (by simp)
  rw [parseStat_statLine _ _ _ (by decide) _ (by decide) _ (by simp)] at hp
  cases hp
  revert hparent
  decide

end WinSys.Wsl
