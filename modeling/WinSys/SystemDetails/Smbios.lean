import WinSys.Infra.Blanks
import WinSys.Infra.Text
import WinSys.SystemDetails.Hardware

/-!
# Decoding SMBIOS tables

A structure is encoded as its formatted area and its strings, each with a terminator, and one more
terminator; without strings there are two. A table is structures one after the other, up to one of
type 127 that may be there, with anything behind it.

* `walk_table`: the walk visits the table's structures
* `ModuleOf`: what a memory device says
* `getHardware_decodes`: the details of a table
-/

namespace WinSys.SystemDetails

open Infra Reads

/-! ## tables -/

/-- A structure as the firmware writes it. -/
structure SmbiosStructure.WellFormed (s : SmbiosStructure) : Prop where
  four : 4 ≤ s.data.length
  length : (u8At s.data 1).toNat = s.data.length
  string_ne : ∀ text ∈ s.strings, text ≠ []
  string_nul : ∀ text ∈ s.strings, 0 ∉ text

def SmbiosStructure.encode (s : SmbiosStructure) : Bytes :=
  s.data ++ if s.strings = [] then [0, 0] else unlines 0 s.strings ++ [0]

/-- Structures, and one of type 127 with what is behind it. -/
structure Table where
  structures : List SmbiosStructure
  ending : Option (SmbiosStructure × Bytes)
  wellFormed : ∀ s ∈ structures, s.WellFormed ∧ s.type ≠ 127
  ends : ∀ s after, ending = some (s, after) → s.WellFormed ∧ s.type = 127

namespace Table

variable (t : Table)

def bytes : Bytes :=
  t.structures.flatMap SmbiosStructure.encode ++
    match t.ending with
    | none => []
    | some (s, after) => s.encode ++ after

/-- The structures up to the end. -/
def all : List SmbiosStructure := t.structures ++ (t.ending.map Prod.fst).toList

end Table

/-! ## the walk over a table -/

section Walk

variable {buffer rest : Bytes} {stop p : ℕ}

/-- What is read before the end. -/
theorem value_raw_window {n : ℕ} (h : n ≤ ((buffer.take stop).drop p).length) :
    (raw buffer p n).value = ((buffer.take stop).drop p).take n := by
  have hle : n ≤ stop - p := by
    rw [List.length_drop, List.length_take] at h
    omega
  rw [value_raw, List.drop_take, List.take_take, Nat.min_eq_left hle]

/-- The byte at a place before the end. -/
theorem raw_head {b : UInt8} (h : (buffer.take stop).drop p = b :: rest) :
    p < stop ∧ (raw buffer p 1).value = [b] := by
  have hlength := congrArg List.length h
  rw [List.length_drop, List.length_take, List.length_cons] at hlength
  refine ⟨by omega, ?_⟩
  rw [value_raw_window (by rw [h]; simp), h]
  rfl

/-- The scan takes the strings up to the last terminator. -/
theorem value_readStrings {strings : List Bytes} (hne : ∀ text ∈ strings, text ≠ [])
    (hnul : ∀ text ∈ strings, 0 ∉ text)
    (h : (buffer.take stop).drop p = unlines 0 strings ++ 0 :: rest) :
    (readStrings buffer stop p).value = (strings, p + (unlines 0 strings).length) := by
  induction strings generalizing p with
  | nil =>
    obtain ⟨hp, hhead⟩ := raw_head h
    rw [readStrings, dif_pos hp, value_bind, hhead, if_pos rfl]
    rfl
  | cons text strings ih =>
    have htextNe := hne text List.mem_cons_self
    have htextNul := hnul text List.mem_cons_self
    obtain ⟨c, cs, rfl⟩ := List.exists_cons_of_ne_nil htextNe
    rw [unlines_cons, List.append_assoc, List.cons_append] at h
    obtain ⟨hp, hhead⟩ := raw_head h
    have hc : ¬ [c] = [(0 : UInt8)] := fun hc => htextNul (by simp_all)
    have htake : ((buffer.take stop).drop p).takeWhile (· ≠ 0) = c :: cs := by
      rw [h, List.cons_append,  ← List.cons_append, List.takeWhile_append_of_pos]
      · simp
      · exact fun a ha => decide_eq_true (ne_of_mem_of_not_mem ha htextNul)
    have hnext : (buffer.take stop).drop (p + ((c :: cs).length + 1))
        = unlines 0 strings ++ 0 :: rest := by
      rw [← List.drop_drop, h, ← List.cons_append, ← List.drop_drop, List.drop_left]
      rfl
    have hrest := ih (fun x hx => hne x (List.mem_cons_of_mem _ hx))
      (fun x hx => hnul x (List.mem_cons_of_mem _ hx)) hnext
    rw [readStrings, dif_pos hp, value_bind, hhead, if_neg hc]
    simp only [value_bind, htake, hrest, value_pure, unlines_cons, Prod.mk.injEq, true_and]
    rw [List.length_append, List.length_cons (a := (0 : UInt8))]
    omega

theorem length_pos_unlines {strings : List Bytes} (h : strings ≠ []) :
    0 < (unlines 0 strings).length := by
  obtain ⟨text, strings, rfl⟩ := List.exists_cons_of_ne_nil h
  rw [unlines_cons, List.length_append, List.length_cons]
  omega

/-- **A structure is read with its strings**, and the next one is where it ends. -/
theorem value_readStructure {s : SmbiosStructure} (hs : s.WellFormed)
    (h : (buffer.take stop).drop p = s.encode ++ rest) :
    (readStructure buffer stop p).value = some (s, p + s.encode.length) := by
  obtain ⟨data, strings⟩ := s
  obtain ⟨hfour, hlengthByte, hne, hnul⟩ := hs
  rw [SmbiosStructure.encode, List.append_assoc] at h
  dsimp only at h hfour hlengthByte hne hnul
  have hwindow : data.length ≤ ((buffer.take stop).drop p).length := by
    rw [h, List.length_append]
    omega
  have hstop : p + data.length ≤ stop := by
    rw [List.length_drop, List.length_take] at hwindow
    omega
  have hlength : (u8At (raw buffer (p + 1) 1).value 0).toNat = data.length := by
    have hdrop : (buffer.take stop).drop (p + 1) = data.drop 1
        ++ ((if strings = [] then [0, 0] else unlines 0 strings ++ [0]) ++ rest) := by
      rw [← List.drop_drop, h, List.drop_append_of_le_length (by omega)]
    have hcons : data.drop 1 = u8At data 1 :: data.drop 2 := by
      rw [u8At, List.getD_eq_getElem?_getD, List.getElem?_eq_getElem (by omega), Option.getD_some]
      exact List.drop_eq_getElem_cons (by omega)
    rw [hcons, List.cons_append] at hdrop
    rw [(raw_head hdrop).2, ← hlengthByte]
    rfl
  have hdata : (raw buffer p data.length).value = data := by
    rw [value_raw_window hwindow, h, List.take_left]
  have hstrings : (buffer.take stop).drop (p + data.length)
      = (if strings = [] then [0, 0] else unlines 0 strings ++ [0]) ++ rest := by
    rw [← List.drop_drop, h, List.drop_left]
  rw [readStructure, if_pos (by omega), value_bind, hlength, readParts,
    if_neg (by omega), value_bind, hdata, value_bind]
  by_cases hnone : strings = []
  · subst hnone
    rw [if_pos rfl] at hstrings
    have hread := @value_readStrings buffer (0 :: rest) stop (p + data.length) [] nofun nofun hstrings
    have hplace := (raw_head hstrings).1
    rw [hread]
    simp [SmbiosStructure.encode, hplace, Nat.add_assoc]
  · rw [if_neg hnone, List.append_assoc] at hstrings
    rw [value_readStrings hne hnul hstrings]
    have hpos := length_pos_unlines hnone
    have hplace : ¬(p + data.length + (unlines 0 strings).length < stop
        ∧ p + data.length + (unlines 0 strings).length = p + data.length) := by omega
    dsimp only
    rw [if_neg hplace]
    simp only [value_pure, SmbiosStructure.encode, if_neg hnone, List.length_append,
      List.length_singleton, Nat.add_assoc]

theorem walk_structures {structures : List SmbiosStructure}
    (hs : ∀ s ∈ structures, s.WellFormed ∧ s.type ≠ 127)
    (h : (buffer.take stop).drop p = structures.flatMap SmbiosStructure.encode ++ rest) :
    (walk buffer stop p).value = structures
      ++ (walk buffer stop (p + (structures.flatMap SmbiosStructure.encode).length)).value := by
  induction structures generalizing p with
  | nil => rfl
  | cons s structures ih =>
    obtain ⟨hwellFormed, htype⟩ := hs s List.mem_cons_self
    rw [List.flatMap_cons, List.append_assoc] at h
    have hnext : (buffer.take stop).drop (p + s.encode.length)
        = structures.flatMap SmbiosStructure.encode ++ rest := by
      rw [← List.drop_drop, h, List.drop_left]
    have hrest := ih (fun x hx => hs x (List.mem_cons_of_mem s hx)) hnext
    rw [walk_some (value_readStructure hwellFormed h), value_bind, if_neg htype, value_bind,
      value_pure, hrest, List.flatMap_cons, List.length_append, Nat.add_assoc, List.cons_append]

/-- **Each structure of a table up to its end is visited once, with its own strings.** -/
theorem walk_table {t : Table} (hstop : stop ≤ buffer.length)
    (h : (buffer.take stop).drop p = t.bytes) :
    (walk buffer stop p).value = t.all := by
  obtain ⟨structures, ending, hs, hend⟩ := t
  rw [Table.bytes] at h
  rw [walk_structures hs h, Table.all]
  congr 1
  have hrest := congrArg (List.drop (structures.flatMap SmbiosStructure.encode).length) h
  rw [List.drop_drop, List.drop_left] at hrest
  cases ending with
  | none =>
    have hlength := congrArg List.length hrest
    rw [List.length_drop, List.length_take, List.length_nil] at hlength
    have hnone : (readStructure buffer stop
        (p + (structures.flatMap SmbiosStructure.encode).length)).value = none := by
      rw [readStructure, if_neg (by omega)]
      rfl
    rw [walk_none hnone]
    rfl
  | some ending =>
    obtain ⟨s, after⟩ := ending
    obtain ⟨hwellFormed, htype⟩ := hend s after rfl
    rw [walk_some (value_readStructure hwellFormed hrest), value_bind, if_pos htype]
    rfl

end Walk

/-! ## what a structure says -/

namespace SmbiosStructure

variable (s : SmbiosStructure)

/-- The number in the bytes at an offset; 0, if the area is too short. -/
def field (offset width : ℕ) : ℕ :=
  if offset + width ≤ s.data.length then leNat ((s.data.drop offset).take width) else 0

/-- The text without the spaces around it. -/
def trimSpaces (text : Bytes) : Bytes :=
  (text.rdropWhile fun b => b = 0x20).dropWhile fun b => b = 0x20

/-- The string whose number is at an offset; empty, if there is none or nobody filled it in. -/
def text (offset : ℕ) : WString :=
  if s.field offset 1 = 0 ∨ s.field offset 1 > s.strings.length then []
  else
    let text := (trimSpaces (s.strings.getD (s.field offset 1 - 1) [])).map UInt8.toUInt16
    if isPlaceholder text then [] else text

/-- A memory device's size in bytes: in units of 1 MB or 1 KB, or in units of 1 MB in 31 bits. -/
def memorySize : ℕ :=
  let size := s.field 0x0C 2
  if size = 0x7FFF then s.field 0x1C 4 % 2 ^ 31 * 2 ^ 20
  else if 2 ^ 15 ≤ size then (size - 2 ^ 15) * 2 ^ 10
  else size * 2 ^ 20

/-- A speed, in 32 bits elsewhere if it doesn't fit in 16. -/
def speed (offset extended : ℕ) : ℕ :=
  if s.field offset 2 = 0xFFFF then s.field extended 4 else s.field offset 2

/-- A memory device that is there. -/
def Populated : Prop := s.type = 17 ∧ s.field 0x0C 2 ≠ 0 ∧ s.field 0x0C 2 ≠ 0xFFFF

instance : DecidablePred Populated := fun _ => inferInstanceAs (Decidable (_ ∧ _))

/-- The device count of a system memory array. -/
def slots : ℕ := if s.type = 16 ∧ s.field 0x05 1 = 3 then s.field 0x0D 2 else 0

/-- The strings are ASCII. -/
def Ascii : Prop := ∀ text ∈ s.strings, ∀ b ∈ text, b < 0x80

end SmbiosStructure

/-- A memory device as the details have it. -/
structure ModuleOf (s : SmbiosStructure) (m : MemoryModule) : Prop where
  size : m.size.toNat = s.memorySize
  locator : m.locator = s.text 0x10
  bankLocator : m.bankLocator = s.text 0x11
  manufacturer : m.manufacturer = s.text 0x17
  partNumber : m.partNumber = s.text 0x1A
  type : m.type = memoryTypeName (s.field 0x12 1).toUInt8
  formFactor : m.formFactor = formFactorName (s.field 0x0E 1).toUInt8
  speed : m.speed.toNat = s.speed 0x15 0x54
  configuredSpeed : m.configuredSpeed.toNat = s.speed 0x20 0x58

section Fields

variable {s : SmbiosStructure}

theorem byte_toNat (offset : ℕ) : (s.byte offset).toNat = s.field offset 1 := by
  unfold SmbiosStructure.byte SmbiosStructure.field
  by_cases h : offset < s.data.length
  · have hone : (s.data.drop offset).take 1 = [u8At s.data offset] := by
      rw [List.drop_eq_getElem_cons h, u8At, List.getD_eq_getElem?_getD,
        List.getElem?_eq_getElem h]
      rfl
    rw [if_pos h, if_pos (by omega), hone]
    simp [leNat]
  · rw [if_neg h, if_neg (by omega)]
    rfl

theorem byte_eq (offset : ℕ) : s.byte offset = (s.field offset 1).toUInt8 := by
  rw [← byte_toNat, Nat.toUInt8_eq, UInt8.ofNat_toNat]

theorem leNat_take_lt (bs : Bytes) (n : ℕ) : leNat (bs.take n) < 256 ^ n :=
  (leNat_lt _).trans_le (Nat.pow_le_pow_right (by omega) (List.length_take_le n bs))

theorem word_toNat (offset : ℕ) : (s.word offset).toNat = s.field offset 2 := by
  unfold SmbiosStructure.word SmbiosStructure.field
  split
  · have hlt : leNat ((s.data.drop offset).take 2) < 2 ^ 16 := leNat_take_lt _ 2
    rw [u16At, u16, Nat.toUInt16_eq, UInt16.toNat_ofNat', Nat.mod_eq_of_lt hlt]
  · rfl

theorem dword_toNat (offset : ℕ) : (s.dword offset).toNat = s.field offset 4 := by
  unfold SmbiosStructure.dword SmbiosStructure.field
  split
  · have hlt : leNat ((s.data.drop offset).take 4) < 2 ^ 32 := leNat_take_lt _ 4
    rw [u32At, u32, Nat.toUInt32_eq, UInt32.toNat_ofNat', Nat.mod_eq_of_lt hlt]
  · rfl

theorem field_lt (offset width : ℕ) : s.field offset width < 256 ^ width := by
  unfold SmbiosStructure.field
  split
  · exact leNat_take_lt _ _
  · exact Nat.pow_pos (by omega)

theorem word_eq_iff (offset : ℕ) (n : UInt16) : s.word offset = n ↔ s.field offset 2 = n.toNat := by
  rw [← word_toNat, UInt16.toNat_inj]

/-- Only spaces are around a string. -/
theorem trimPadding_eq {text : Bytes} (h : 0 ∉ text) :
    trimPadding text = SmbiosStructure.trimSpaces text := by
  rw [trimPadding, SmbiosStructure.trimSpaces, List.rdropWhile, List.rdropWhile,
    @dropWhile_congr _ _ (fun b => b = 0x20) text.reverse]
  intro b hb
  have hne : b ≠ 0 := ne_of_mem_of_not_mem (List.mem_reverse.mp hb) h
  simp [hne]

theorem mem_of_mem_trimSpaces {text : Bytes} {b : UInt8}
    (h : b ∈ SmbiosStructure.trimSpaces text) : b ∈ text :=
  (List.rdropWhile_prefix _ text).subset ((List.dropWhile_sublist _).subset h)

/-- **A structure's texts are its strings**, without the spaces around them. -/
theorem string_eq (codePage : CodePage) (hs : s.WellFormed) (hascii : s.Ascii) (offset : ℕ) :
    s.string codePage offset = s.text offset := by
  unfold SmbiosStructure.string SmbiosStructure.text
  rw [byte_toNat]
  dsimp only
  split
  · rfl
  · next hindex =>
    have hmem : s.strings.getD (s.field offset 1 - 1) [] ∈ s.strings := by
      rw [List.getD_eq_getElem?_getD, List.getElem?_eq_getElem (by omega), Option.getD_some]
      exact List.getElem_mem _
    have htext : fromAnsi codePage (s.strings.getD (s.field offset 1 - 1) [])
        = (SmbiosStructure.trimSpaces (s.strings.getD (s.field offset 1 - 1) [])).map
            UInt8.toUInt16 := by
      unfold fromAnsi
      rw [trimPadding_eq (hs.string_nul _ hmem)]
      dsimp only
      split
      · next hempty => rw [hempty]; rfl
      · exact codePage.ascii _ fun b hb => hascii _ hmem b (mem_of_mem_trimSpaces hb)
    rw [htext]

/-- The size's two forms are told apart by its top bit. -/
theorem memorySize_toNat :
    (if s.word 0x0C = 0x7FFF then (s.dword 0x1C &&& 0x7FFFFFFF).toUInt64 <<< 20
      else if s.word 0x0C &&& 0x8000 ≠ 0 then (s.word 0x0C &&& 0x7FFF).toUInt64 <<< 10
      else (s.word 0x0C).toUInt64 <<< 20).toNat = s.memorySize := by
  have hlt : s.field 0x0C 2 < 2 * 2 ^ 15 := field_lt _ _
  have htop : s.word 0x0C &&& 0x8000 ≠ 0 ↔ 2 ^ 15 ≤ s.field 0x0C 2 := by
    rw [← and_two_pow_ne_zero_iff hlt, ← word_toNat, ne_eq, ← UInt16.toNat_inj,
      UInt16.toNat_and]
    rfl
  have hmegabytes : (s.dword 0x1C &&& 0x7FFFFFFF).toNat = s.field 0x1C 4 % 2 ^ 31 := by
    rw [UInt32.toNat_and, dword_toNat]
    exact Nat.and_two_pow_sub_one_eq_mod _ 31
  have hkilobytes : (s.word 0x0C &&& 0x7FFF).toNat = s.field 0x0C 2 % 2 ^ 15 := by
    rw [UInt16.toNat_and, word_toNat]
    exact Nat.and_two_pow_sub_one_eq_mod _ 15
  have hext : s.word 0x0C = 0x7FFF ↔ s.field 0x0C 2 = 0x7FFF := word_eq_iff _ _
  have h20 : (2 : ℕ) ^ ((20 : UInt64).toNat % 64) = 2 ^ 20 := rfl
  have h10 : (2 : ℕ) ^ ((10 : UInt64).toNat % 64) = 2 ^ 10 := rfl
  rw [SmbiosStructure.memorySize]
  simp only [htop, hext]
  split
  · rw [UInt64.toNat_shiftLeft, UInt32.toNat_toUInt64, hmegabytes, Nat.shiftLeft_eq, h20]
    exact Nat.mod_eq_of_lt (by omega)
  · split
    · rw [UInt64.toNat_shiftLeft, UInt16.toNat_toUInt64, hkilobytes, Nat.shiftLeft_eq, h10]
      exact (Nat.mod_eq_of_lt (by omega)).trans (by omega)
    · rw [UInt64.toNat_shiftLeft, UInt16.toNat_toUInt64, word_toNat, Nat.shiftLeft_eq, h20]
      exact Nat.mod_eq_of_lt (by omega)

theorem speed_toNat (offset extended : ℕ) :
    (if s.word offset = 0xFFFF then s.dword extended else (s.word offset).toUInt32).toNat
      = s.speed offset extended := by
  have hext : s.word offset = 0xFFFF ↔ s.field offset 2 = 0xFFFF := word_eq_iff _ _
  rw [SmbiosStructure.speed]
  simp only [hext]
  split
  · exact dword_toNat extended
  · rw [UInt16.toNat_toUInt32, word_toNat]

/-- **A memory device is in the details if it is there**, with what it says. -/
theorem memoryModule_of (codePage : CodePage) (hs : s.WellFormed) (hascii : s.Ascii)
    (htype : s.type = 17) :
    (¬s.Populated ∧ memoryModule codePage s = none) ∨
      ∃ m, s.Populated ∧ memoryModule codePage s = some m ∧ ModuleOf s m := by
  have hempty : (s.word 0x0C = 0 ∨ s.word 0x0C = 0xFFFF) ↔ ¬s.Populated := by
    have hzero : s.word 0x0C = 0 ↔ s.field 0x0C 2 = 0 := word_eq_iff _ _
    have hunknown : s.word 0x0C = 0xFFFF ↔ s.field 0x0C 2 = 0xFFFF := word_eq_iff _ _
    rw [hzero, hunknown, SmbiosStructure.Populated]
    tauto
  unfold memoryModule
  by_cases hthere : s.Populated
  · refine .inr ⟨_, hthere, if_neg fun h => hempty.mp h hthere, ?_⟩
    exact {
      size := memorySize_toNat
      locator := string_eq codePage hs hascii _
      bankLocator := string_eq codePage hs hascii _
      manufacturer := string_eq codePage hs hascii _
      partNumber := string_eq codePage hs hascii _
      type := congrArg memoryTypeName (byte_eq _)
      formFactor := congrArg formFactorName (byte_eq _)
      speed := speed_toNat _ _
      configuredSpeed := speed_toNat _ _ }
  · exact .inl ⟨hthere, if_pos (hempty.mpr hthere)⟩

end Fields

/-! ## the details of the structures -/

section Details

variable {codePage : CodePage}

theorem addStructure_modules (hw : HardwareDetails) (s : SmbiosStructure) :
    (addStructure codePage hw s).modules
      = hw.modules ++ if s.type = 17 then (memoryModule codePage s).toList else [] := by
  unfold addStructure
  split
  case h_5 h => rw [if_pos h]
  case h_6 h => rw [if_neg h, List.append_nil]
  all_goals
    next h =>
    have hne : s.type ≠ 17 := by rw [h]; decide
    rw [if_neg hne, List.append_nil]
    try split
    all_goals rfl

theorem addStructure_memorySlots (hw : HardwareDetails) (s : SmbiosStructure) :
    (addStructure codePage hw s).memorySlots.toNat
      = (hw.memorySlots.toNat + s.slots) % 2 ^ 32 := by
  have hlt := hw.memorySlots.toNat_lt
  unfold addStructure SmbiosStructure.slots
  have hsystem : s.byte 0x05 = 0x03 ↔ s.field 0x05 1 = 3 := by
    rw [← byte_toNat, ← UInt8.toNat_inj]
    rfl
  split
  case h_4 h =>
    simp only [hsystem, h, true_and]
    split
    · rw [UInt32.toNat_add, UInt16.toNat_toUInt32, word_toNat]
    · exact (Nat.mod_eq_of_lt hlt).symm
  case h_6 h1 h2 h3 h4 h5 =>
    rw [if_neg fun h => h4 h.1]
    exact (Nat.mod_eq_of_lt hlt).symm
  all_goals
    next h =>
    have hne : ¬(s.type = 16 ∧ s.field 0x05 1 = 3) := fun h' => absurd (h.symm.trans h'.1) (by decide)
    rw [if_neg hne]
    try split
    all_goals exact (Nat.mod_eq_of_lt hlt).symm

theorem foldl_addStructure_modules {structures : List SmbiosStructure}
    (hs : ∀ s ∈ structures, s.WellFormed ∧ s.Ascii) (hw : HardwareDetails) :
    ∃ modules, (structures.foldl (addStructure codePage) hw).modules = hw.modules ++ modules ∧
      List.Forall₂ ModuleOf (structures.filter (decide ·.Populated)) modules := by
  induction structures generalizing hw with
  | nil => exact ⟨[], (List.append_nil _).symm, .nil⟩
  | cons s structures ih =>
    obtain ⟨hwellFormed, hascii⟩ := hs s List.mem_cons_self
    obtain ⟨modules, hfold, hmodules⟩ :=
      ih (fun x hx => hs x (List.mem_cons_of_mem s hx)) (addStructure codePage hw s)
    rw [List.foldl_cons, hfold, addStructure_modules, List.append_assoc]
    by_cases htype : s.type = 17
    · rw [if_pos htype]
      obtain ⟨habsent, hnone⟩ | ⟨m, hthere, hsome, hm⟩ :=
        memoryModule_of codePage hwellFormed hascii htype
      · rw [hnone, List.filter_cons_of_neg (by simpa using habsent)]
        exact ⟨modules, rfl, hmodules⟩
      · rw [hsome, List.filter_cons_of_pos (by simpa using hthere)]
        exact ⟨m :: modules, rfl, .cons hm hmodules⟩
    · have habsent : ¬s.Populated := fun h => htype h.1
      rw [if_neg htype, List.filter_cons_of_neg (by simpa using habsent)]
      exact ⟨modules, rfl, hmodules⟩

theorem foldl_addStructure_memorySlots (structures : List SmbiosStructure)
    (hw : HardwareDetails) :
    (structures.foldl (addStructure codePage) hw).memorySlots.toNat
      = (hw.memorySlots.toNat + (structures.map SmbiosStructure.slots).sum) % 2 ^ 32 := by
  induction structures generalizing hw with
  | nil => exact (Nat.mod_eq_of_lt hw.memorySlots.toNat_lt).symm
  | cons s structures ih =>
    rw [List.foldl_cons, ih, addStructure_memorySlots, List.map_cons, List.sum_cons,
      Nat.mod_add_mod, Nat.add_assoc]

/-- A table with the data in front of it. -/
def rawSmbiosData (header : Bytes) (t : Table) (extra : Bytes) : Bytes :=
  header ++ leBytes 4 t.bytes.length ++ t.bytes ++ extra

variable {header extra : Bytes} {t : Table}

theorem readTables_all (hheader : header.length = 4) (hlength : t.bytes.length < 2 ^ 32) :
    (readTables (rawSmbiosData header t extra)).value = t.all := by
  have hraw : ((rawSmbiosData header t extra).drop 4).take 4 = leBytes 4 t.bytes.length := by
    rw [rawSmbiosData, List.append_assoc, List.append_assoc, ← hheader, List.drop_left]
    exact List.take_left' (length_leBytes _ _)
  have hread : (u32At (leBytes 4 t.bytes.length) 0).toNat = t.bytes.length := by
    rw [u32At, List.drop_zero, u32, List.take_of_length_le (by rw [length_leBytes]),
      leNat_leBytes hlength, Nat.toUInt32_eq, UInt32.toNat_ofNat', Nat.mod_eq_of_lt hlength]
  have hsize : (rawSmbiosData header t extra).length = 8 + t.bytes.length + extra.length := by
    simp only [rawSmbiosData, List.length_append, length_leBytes]
    omega
  rw [readTables, value_bind, value_raw, hraw, hread]
  apply walk_table
  · split <;> omega
  · have hstop : 8 + (if t.bytes.length < (rawSmbiosData header t extra).length - 8
        then t.bytes.length else (rawSmbiosData header t extra).length - 8)
          = 8 + t.bytes.length := by
      split <;> omega
    have hlead : (header ++ leBytes 4 t.bytes.length).length = 8 := by
      rw [List.length_append, length_leBytes, hheader]
    rw [hstop, List.drop_take, Nat.add_sub_cancel_left, rawSmbiosData, List.append_assoc,
      ← hlead, List.drop_left, List.take_left]

theorem getHardware_tables (hheader : header.length = 4) (hlength : t.bytes.length < 2 ^ 32)
    {answers : Answers} (hanswer : answers.table = some (rawSmbiosData header t extra)) :
    ∃ hw : HardwareDetails, hw.modules = [] ∧ hw.memorySlots = 0 ∧
      (getHardware codePage answers).value = t.all.foldl (addStructure codePage) hw := by
  have hsize : ¬(rawSmbiosData header t extra).length < 8 := by
    simp only [rawSmbiosData, List.length_append, length_leBytes]
    omega
  unfold getHardware
  simp only [hanswer, if_neg hsize, value_bind, value_pure, readTables_all hheader hlength]
  exact ⟨_, rfl, rfl, rfl⟩

theorem Table.all_wellFormed : ∀ s ∈ t.all, s.WellFormed := by
  obtain ⟨structures, ending, hs, hend⟩ := t
  intro s hmem
  obtain hmem | hmem := List.mem_append.mp hmem
  · exact (hs s hmem).1
  · obtain ⟨⟨s', after⟩, hending, rfl⟩ := Option.map_eq_some_iff.mp (Option.mem_toList.mp hmem)
    exact (hend s' after hending).1

end Details

/-- **A table is decoded structure by structure**, and no buffer takes an access outside it: the
structures up to the end are visited with their own strings, and the details have the memory devices
that are there and the slots of the system memory arrays, as far as these fit in 32 bits. -/
theorem getHardware_decodes (codePage : CodePage) (header extra : Bytes) (t : Table)
    (hheader : header.length = 4) (hlength : t.bytes.length < 2 ^ 32)
    (hascii : ∀ s ∈ t.all, s.Ascii) (answers : Answers)
    (hanswer : answers.table = some (rawSmbiosData header t extra)) :
    (readTables (rawSmbiosData header t extra)).value = t.all ∧
      (∀ s ∈ t.all, ∀ offset, s.string codePage offset = s.text offset) ∧
      List.Forall₂ ModuleOf (t.all.filter (decide ·.Populated))
        (getHardware codePage answers).value.modules ∧
      (getHardware codePage answers).value.memorySlots.toNat
        = (t.all.map SmbiosStructure.slots).sum % 2 ^ 32 ∧
      ∀ any, (getHardware codePage any).Safe := by
  have hall : ∀ s ∈ t.all, s.WellFormed ∧ s.Ascii := fun s hs =>
    ⟨t.all_wellFormed s hs, hascii s hs⟩
  obtain ⟨hw, hnone, hzero, hvalue⟩ :=
    @getHardware_tables codePage _ extra _ hheader hlength answers hanswer
  refine ⟨readTables_all hheader hlength, fun s hs => string_eq codePage (hall s hs).1 (hall s hs).2,
    ?_, ?_, safe_getHardware codePage⟩
  · obtain ⟨modules, hfold, hmodules⟩ := @foldl_addStructure_modules codePage _ hall hw
    rw [hvalue, hfold, hnone]
    exact hmodules
  · rw [hvalue, foldl_addStructure_memorySlots, hzero, UInt32.toNat_zero, Nat.zero_add]

/-! ### a table with a memory device -/

def asciiPage : CodePage := ⟨fun text => text.map UInt8.toUInt16, fun _ _ => rfl⟩

/-- Two slots. -/
def twoSlots : SmbiosStructure :=
  ⟨[16, 15, 0, 0x10, 3, 3, 3, 0, 0, 0, 2, 0xFE, 0xFF, 2, 0], []⟩

/-- 16 GB in DIMM A; the area ends before the speed. -/
def dimm : SmbiosStructure :=
  ⟨[17, 21, 0, 0x11, 0, 0x10, 0xFE, 0xFF, 64, 0, 64, 0, 0, 0x40, 9, 0, 1, 0, 0x1A, 0x80, 0],
    [[0x44, 0x49, 0x4D, 0x4D, 0x20, 0x41]]⟩

def endOfTable : SmbiosStructure := ⟨[127, 4, 0xFF, 0xFE], []⟩

theorem twoSlots_wellFormed : twoSlots.WellFormed := ⟨by decide, rfl, nofun, nofun⟩

theorem dimm_wellFormed : dimm.WellFormed := ⟨by decide, rfl, by decide, by decide⟩

theorem endOfTable_wellFormed : endOfTable.WellFormed := ⟨by decide, rfl, nofun, nofun⟩

theorem oneModule_structures :
    ∀ s ∈ [twoSlots, dimm], s.WellFormed ∧ s.type ≠ 127 :=
  List.forall_mem_cons.mpr ⟨⟨twoSlots_wellFormed, by decide⟩,
    List.forall_mem_singleton.mpr ⟨dimm_wellFormed, by decide⟩⟩

theorem oneModule_ends : ∀ s (after : Bytes), some (endOfTable, [1, 2, 3]) = some (s, after) →
    s.WellFormed ∧ s.type = 127 := by
  rintro s after ⟨⟩
  exact ⟨endOfTable_wellFormed, rfl⟩

def oneModule : Table :=
  ⟨[twoSlots, dimm], some (endOfTable, [1, 2, 3]), oneModule_structures, oneModule_ends⟩

theorem oneModule_ascii : ∀ s ∈ oneModule.all, s.Ascii :=
  List.forall_mem_cons.mpr ⟨nofun, List.forall_mem_cons.mpr
    ⟨by simp [SmbiosStructure.Ascii, dimm], List.forall_mem_singleton.mpr nofun⟩⟩

theorem getHardware_oneModule :
    List.Forall₂ ModuleOf [dimm]
        (getHardware asciiPage
          { table := some (rawSmbiosData [0, 3, 2, 0] oneModule [9]) }).value.modules
      ∧ dimm.memorySize = 2 ^ 34 :=
  ⟨(getHardware_decodes asciiPage [0, 3, 2, 0] [9] oneModule rfl (by decide) oneModule_ascii
    { table := some (rawSmbiosData [0, 3, 2, 0] oneModule [9]) } rfl).2.2.1, by decide⟩

/-! ### more slots than fit -/

/-- A system memory array of 65535 slots. -/
def manySlots : SmbiosStructure :=
  ⟨[16, 15, 0, 0x10, 3, 3, 3, 0, 0, 0, 2, 0xFE, 0xFF, 0xFF, 0xFF], []⟩

theorem manyArrays_structures :
    ∀ s ∈ List.replicate 65538 manySlots, s.WellFormed ∧ s.type ≠ 127 := by
  intro s hs
  rw [List.eq_of_mem_replicate hs]
  exact ⟨⟨by decide, rfl, nofun, nofun⟩, by decide⟩

def manyArrays : Table := ⟨List.replicate 65538 manySlots, none, manyArrays_structures, nofun⟩

theorem manyArrays_all : manyArrays.all = List.replicate 65538 manySlots := List.append_nil _

theorem length_manyArrays : manyArrays.bytes.length < 2 ^ 32 := by
  have hbytes : manyArrays.bytes
      = (List.replicate 65538 manySlots).flatMap SmbiosStructure.encode := List.append_nil _
  have hone : manySlots.encode.length = 17 := by decide
  rw [hbytes, List.length_flatMap, List.map_replicate, List.sum_replicate, hone]
  decide

/-- The slots of many arrays wrap around, and spaces around a text are not read. -/
theorem getHardware_manyArrays :
    (getHardware asciiPage
        { table := some (rawSmbiosData [0, 3, 2, 0] manyArrays []) }).value.memorySlots.toNat
          ≠ (manyArrays.all.map SmbiosStructure.slots).sum ∧
      SmbiosStructure.string ⟨[1, 5, 0, 0, 1], [[0x20, 0x41]]⟩ asciiPage 4 ≠ [0x20, 0x41] := by
  refine ⟨?_, by decide⟩
  obtain ⟨hw, -, hzero, hvalue⟩ := @getHardware_tables asciiPage [0, 3, 2, 0] [] manyArrays rfl
    length_manyArrays { table := some (rawSmbiosData [0, 3, 2, 0] manyArrays []) } rfl
  have hslots : manySlots.slots = 65535 := by decide
  rw [hvalue, foldl_addStructure_memorySlots, hzero, manyArrays_all, List.map_replicate,
    List.sum_replicate, hslots]
  decide

end WinSys.SystemDetails
