import WinSys.Infra.Layout
import WinSys.PE.Safety

/-!
# What is at an RVA

Bytes are placed at an RVA when they are in the raw data of the section it is in. They are then read
from there: as a record, as an entry of a table, as a string.
-/

namespace WinSys.PE

open Infra Reads

variable {data : Bytes} {offset : ℕ} {bs : Bytes}

theorem load_eq_some {pe : PEFile} (h : (load data).value = some pe) :
    (parse data).value = some pe ∧ pe.data.length ≤ maxFileSize := by
  unfold load at h
  split at h
  · cases h
  · next hsize =>
    refine ⟨h, ?_⟩
    rw [(parsed h).data_eq]
    omega

section Bytes

variable (hsize : data.length ≤ maxFileSize)

include hsize

theorem sizeT_of_holdsAt (h : HoldsAt data offset bs) (hne : bs ≠ []) : sizeT offset = offset := by
  have hle := h.add_length_le hne
  unfold maxFileSize at hsize
  exact Nat.mod_eq_of_lt (by omega)

/-- A record that is there is read. -/
theorem value_atOffset_of_holdsAt (h : HoldsAt data offset bs) {size : ℕ}
    (hlength : bs.length = size) (hpos : 0 < size) :
    (atOffset data size offset).value = some bs := by
  have hne : bs ≠ [] := List.length_pos_iff.mp (hlength ▸ hpos)
  have hoffset := sizeT_of_holdsAt hsize h hne
  rw [← hlength, value_atOffset (by rw [hoffset]; exact h.add_length_le hne), hoffset, h.take_eq]

/-- A string that is there is read, up to its NUL. -/
theorem value_stringAt_of_holdsAt {name : Bytes} (hname : (0 : UInt8) ∉ name) {maxLength : ℕ}
    (hlimit : name.length ≤ maxLength) (h : HoldsAt data offset (name ++ [0])) :
    (stringAt data offset maxLength).value = name := by
  have hoffset := sizeT_of_holdsAt hsize h (by simp)
  have hle := h.add_length_le (by simp)
  obtain ⟨rest, hrest⟩ := h
  rw [List.length_append, List.length_singleton] at hle
  have hword (count : ℕ) (hcount : name.length ≤ count) :
      (((data.drop offset).take count).takeWhile (· ≠ 0)) = name := by
    rw [← hrest, List.append_assoc, List.take_append, List.take_of_length_le hcount]
    have hall : ∀ b ∈ name, decide (b ≠ 0) = true := fun b hb =>
      decide_eq_true (ne_of_mem_of_not_mem hb hname)
    rw [List.takeWhile_append_of_pos hall]
    cases count - name.length with
    | zero => simp
    | succ n => simp
  unfold stringAt
  rw [if_neg (by rw [hoffset]; omega), hoffset, value_bind]
  have hlength : (strnlen data offset (min (data.length - offset) maxLength)).value
      = name.length := congrArg List.length (hword _ (by omega))
  rw [hlength, if_neg (by omega), value_raw, ← hrest, List.append_assoc, List.take_left]

end Bytes

namespace PEFile

variable {pe : PEFile} {rva : UInt32}

/-- The bytes are at an RVA in a section's raw data, and the section is the one that has the RVA. -/
structure InSection (pe : PEFile) (s : PESection) (rva : UInt32) (bs : Bytes) : Prop where
  notHeaders : ¬(rva < pe.headers.sizeOfHeaders ∧ rva.toNat < pe.data.length)
  section_eq : pe.sections.find? (·.contains rva) = some s
  fits : (rva - s.virtualAddress).toNat + bs.length ≤ s.mappedSize.toNat
  holds : HoldsAt pe.data (s.raw.toNat + (rva - s.virtualAddress).toNat) bs

def Placed (pe : PEFile) (rva : UInt32) (bs : Bytes) : Prop := bs ≠ [] → ∃ s, InSection pe s rva bs

theorem placed_iff : Placed pe rva bs ↔ bs = [] ∨
    ∃ s ∈ pe.sections.find? (·.contains rva),
      ¬(rva < pe.headers.sizeOfHeaders ∧ rva.toNat < pe.data.length)
        ∧ (rva - s.virtualAddress).toNat + bs.length ≤ s.mappedSize.toNat
        ∧ HoldsAt pe.data (s.raw.toNat + (rva - s.virtualAddress).toNat) bs := by
  rw [or_iff_not_imp_left]
  refine imp_congr_right fun _ => exists_congr fun s =>
    ⟨fun h => ?_, fun ⟨hs, hheaders, hfits, h⟩ => ?_⟩
  · exact ⟨h.section_eq, h.notHeaders, h.fits, h.holds⟩
  · exact ⟨hheaders, hs, hfits, h⟩

instance (pe : PEFile) (rva : UInt32) (bs : Bytes) : Decidable (Placed pe rva bs) :=
  decidable_of_iff _ placed_iff.symm

/-- The bytes are where `RvaToOffset` finds them. -/
theorem Placed.exists_offset (h : Placed pe rva bs) (hne : bs ≠ [])
    (hsize : pe.data.length ≤ maxFileSize) :
    ∃ offset, pe.rvaToOffset rva = some offset ∧ HoldsAt pe.data offset.toNat bs := by
  obtain ⟨s, hs⟩ := h hne
  have hle := hs.holds.add_length_le hne
  have hpos := List.length_pos_iff.mpr hne
  have hlt : s.raw.toNat + (rva - s.virtualAddress).toNat < pe.data.length := by omega
  unfold maxFileSize at hsize
  refine ⟨(s.raw.toNat + (rva - s.virtualAddress).toNat).toUInt32, ?_, ?_⟩
  · simp only [rvaToOffset, if_neg hs.notHeaders, hs.section_eq, if_pos hlt]
  · rw [Nat.toUInt32_eq, UInt32.toNat_ofNat', Nat.mod_eq_of_lt (by omega)]
    exact hs.holds

/-- A name with its NUL is placed at an RVA, and `StringAt` takes all of it. -/
structure NameAt (pe : PEFile) (rva : UInt32) (name : Bytes) : Prop where
  noNul : 0 ∉ name
  length_le : name.length ≤ maxString
  placed : Placed pe rva (name ++ [0])

theorem nameAt_iff {name : Bytes} : NameAt pe rva name ↔
    0 ∉ name ∧ name.length ≤ maxString ∧ Placed pe rva (name ++ [0]) :=
  ⟨fun h => ⟨h.noNul, h.length_le, h.placed⟩, fun ⟨hnul, hle, h⟩ => ⟨hnul, hle, h⟩⟩

instance (pe : PEFile) (rva : UInt32) (name : Bytes) : Decidable (NameAt pe rva name) :=
  decidable_of_iff _ nameAt_iff.symm

theorem NameAt.value_stringAtRva {name : Bytes} (h : NameAt pe rva name)
    (hsize : pe.data.length ≤ maxFileSize) : (pe.stringAtRva rva maxString).value = name := by
  obtain ⟨offset, hoffset, hholds⟩ := h.placed.exists_offset (by simp) hsize
  rw [stringAtRva, hoffset]
  exact value_stringAt_of_holdsAt hsize h.noNul h.length_le hholds

end PEFile

/-! ## an image with one section -/

/-- A 32-bit image whose section has its body at 0x1000, and in the file at 0x200. -/
def imageOf (directories : List PEDataDirectory) (body : Bytes) : Bytes :=
  [0x4D, 0x5A] ++ List.replicate 58 0 ++ leBytes 4 64
    ++ (leBytes 4 imageNtSignature.toNat
      ++ (leBytes 2 0x14C ++ leBytes 2 1 ++ List.replicate 12 0 ++ leBytes 2 224 ++ leBytes 2 0x102)
      ++ (leBytes 2 imageNtOptionalHdr32Magic.toNat ++ List.replicate 58 0 ++ leBytes 4 0x200
        ++ List.replicate 28 0 ++ leBytes 4 16
        ++ directories.flatMap (fun d => leBytes 4 d.rva.toNat ++ leBytes 4 d.size.toNat)
        ++ List.replicate (128 - 8 * directories.length) 0)
      ++ (List.replicate 8 0 ++ leBytes 4 body.length ++ leBytes 4 0x1000 ++ leBytes 4 body.length
        ++ leBytes 4 0x200 ++ List.replicate 16 0)
      ++ List.replicate 160 0 ++ body)

end WinSys.PE
