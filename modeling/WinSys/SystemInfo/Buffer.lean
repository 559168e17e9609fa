import WinSys.Infra.Chain
import WinSys.Infra.Layout
import WinSys.Infra.Payload

/-!
# Reading what a query gave

The kernel's records are read in place, with the check `IsInside` before a record and with `ToVector`
for the arrays in it.

* `toVector`: an array, without what would be past the buffer's end
* `readText`: a text up to its NUL, wherever that is
* `TableAt`, `value_toVector`: an array that is there is read
-/

namespace WinSys.SystemInfo

open Infra Reads

/-! ## the source -/

variable {α : Type}

/-- `IsInside`; pointers are offsets in the buffer. -/
def isInside (buffer : Bytes) (p size : ℕ) : Bool := p + size ≤ buffer.length

/-- A field of a record, unchecked. -/
def field (buffer : Bytes) (p size : ℕ) (decode : Bytes → α) : Reads α := do
  return decode (← raw buffer p size)

/-- `ToVector`: up to `count` elements from a pointer on, none of them past the buffer's end. -/
def toVector (buffer : Bytes) (first width count : ℕ) (decode : Bytes → α) : Reads (List α) :=
  if buffer.length ≤ first then pure []
  else do
    let count := min count ((buffer.length - first) / width)
    let elements ← raw buffer first (count * width)
    return (List.range count).map fun i => decode ((elements.drop (i * width)).take width)

/-- A NUL-terminated text. -/
def readText (bytes : Bytes) (place : ℕ) : Reads WString := do
  let text := (units (bytes.drop place)).takeWhile (· ≠ 0)
  let _ ← raw bytes place (2 * (text.length + 1))
  return text

/-! ## what they read -/

variable {buffer : Bytes} {p size first width count : ℕ} {decode : Bytes → α}

@[simp]
theorem isInside_iff : isInside buffer p size = true ↔ p + size ≤ buffer.length := decide_eq_true_iff

@[simp]
theorem safe_field : (field buffer p size decode).Safe ↔ p + size ≤ buffer.length := by
  rw [field, safe_bind, safe_raw, and_iff_left (safe_pure _)]

@[simp]
theorem value_field :
    (field buffer p size decode).value = decode ((buffer.drop p).take size) := rfl

/-- An array's elements are read in the buffer, whatever the count says. -/
@[simp]
theorem safe_toVector : (toVector buffer first width count decode).Safe := by
  refine Safe.ite (fun _ => safe_pure _) fun hstart => ?_
  refine (safe_bind _ _).mpr ⟨(safe_raw _ _ _).mpr ?_, safe_pure _⟩
  have hfit : min count ((buffer.length - first) / width) * width ≤ buffer.length - first :=
    (Nat.mul_le_mul_right width (Nat.min_le_right _ _)).trans (Nat.div_mul_le_self _ _)
  omega

/-- The NUL of the text at a place is in the buffer. -/
def TextEnds (buffer : Bytes) (place : ℕ) : Prop :=
  place + 2 * (((units (buffer.drop place)).takeWhile (· ≠ 0)).length + 1) ≤ buffer.length

theorem safe_readText_iff {place : ℕ} : (readText buffer place).Safe ↔ TextEnds buffer place := by
  rw [readText, safe_bind, safe_raw, and_iff_left (safe_pure _), TextEnds]

/-- A text with its NUL that is there is read. -/
theorem readText_of_holdsAt {place : ℕ} {text : WString} (hnul : 0 ∉ text)
    (h : HoldsAt buffer place (zString text)) :
    (readText buffer place).value = text ∧ TextEnds buffer place := by
  have hvalue : (units (buffer.drop place)).takeWhile (· ≠ 0) = text := by
    obtain ⟨rest, hrest⟩ := h
    rw [← hrest, zString, units_wideBytes_append, List.append_assoc, List.singleton_append,
      List.takeWhile_append_of_pos, List.takeWhile_cons_of_neg (by simp), List.append_nil]
    intro c hc
    simpa using fun hzero : c = 0 => hnul (hzero ▸ hc)
  refine ⟨hvalue, ?_⟩
  have hlength := h.length_le
  rw [zString, length_wideBytes, List.length_append, List.length_singleton,
    List.length_drop] at hlength
  rw [TextEnds, hvalue]
  omega

/-! ## arrays that are there -/

/-- The elements of an array are there, one after another; `Element` says what has to be at an
element's place. -/
def TableAt (buffer : Bytes) (first width : ℕ) (Element : ℕ → α → Prop) (elements : List α) : Prop :=
  first + elements.length * width ≤ buffer.length
    ∧ ∀ i (h : i < elements.length), Element (first + i * width) elements[i]

instance {Element : ℕ → α → Prop} [∀ place, DecidablePred (Element place)] {elements : List α} :
    Decidable (TableAt buffer first width Element elements) :=
  inferInstanceAs (Decidable (_ ∧ _))

/-- An array that is there is read. -/
theorem value_toVector_map {β : Type} (decode : Bytes → β) {f : α → β}
    {Element : ℕ → α → Prop} (hwidth : 0 < width)
    (hdecode : ∀ place a, Element place a → decode ((buffer.drop place).take width) = f a)
    {elements : List α} (h : TableAt buffer first width Element elements) :
    (toVector buffer first width elements.length decode).value = elements.map f := by
  obtain ⟨hinside, helement⟩ := h
  unfold toVector
  split
  · next hstart =>
    have hnone : elements.length * width = 0 := by omega
    have hnil : elements.length = 0 := (Nat.mul_eq_zero.mp hnone).resolve_right (Nat.ne_of_gt hwidth)
    rw [List.eq_nil_of_length_eq_zero hnil]
    rfl
  · next hstart =>
    have hcount : elements.length ≤ (buffer.length - first) / width :=
      (Nat.le_div_iff_mul_le hwidth).mpr (by omega)
    rw [Nat.min_eq_left hcount, value_bind, value_pure, value_raw]
    refine List.ext_getElem (by simp) fun i hi hi' => ?_
    rw [List.length_map] at hi'
    have hend : i * width + width ≤ elements.length * width := by
      rw [← Nat.succ_mul]
      exact Nat.mul_le_mul_right width hi'
    rw [List.getElem_map, List.getElem_range, List.getElem_map, List.drop_take, List.drop_drop,
      List.take_take, Nat.min_eq_left (by omega)]
    exact hdecode _ _ (helement i hi')

theorem value_toVector {Element : ℕ → α → Prop} (hwidth : 0 < width)
    (hdecode : ∀ place a, Element place a → decode ((buffer.drop place).take width) = a)
    {elements : List α} (h : TableAt buffer first width Element elements) :
    (toVector buffer first width elements.length decode).value = elements := by
  rw [value_toVector_map decode hwidth hdecode h, List.map_id']

/-- What is in a record is in its bytes. -/
theorem holdsAt_record (p size inner : ℕ) {bs : Bytes} (h : HoldsAt buffer (p + inner) bs)
    (hsize : inner + bs.length ≤ size) : HoldsAt ((buffer.drop p).take size) inner bs := by
  unfold HoldsAt at h ⊢
  rw [List.drop_take, List.drop_drop]
  exact List.prefix_take_iff.mpr ⟨h, by omega⟩

end WinSys.SystemInfo
