import WinSys.Infra.EndAround
import WinSys.PE.Safety
import Mathlib.Algebra.BigOperators.Group.List.Basic

/-!
# The checksum of a PE image

The standard checksum adds the file's words with an end-around carry, the stored checksum as zeros,
and then the file's length. `ComputeChecksum` leaves out whole words instead: those at the even
offsets from the checksum field on. They are the field if the field is at an even offset, and the
bytes one behind it otherwise.

* `standardChecksum`: the checksum as it should be
* `computeChecksum_eq`: what `ComputeChecksum` gives
* `computeChecksum_iff`: when it is the standard one
-/

namespace WinSys.PE

open Infra Reads

/-! ## the standard checksum -/

/-- The little-endian words of a file; a last odd byte is a word. -/
def words : Bytes → List ℕ
  | a :: b :: bs => (u16 [a, b]).toNat :: words bs
  | [a] => [a.toNat]
  | [] => []

/-- Four bytes are replaced by zeros. -/
def blank (data : Bytes) (offset : ℕ) : Bytes :=
  data.take offset ++ (List.replicate 4 0 ++ data.drop (offset + 4))

def standardChecksum (data : Bytes) (field : ℕ) : UInt32 :=
  (sumCarry 0xFFFF (words (blank data field)) + data.length).toUInt32

/-! ## bytes and words -/

section Words

variable {bs data : Bytes} {i c : ℕ}

theorem toNat_u16 (a b : UInt8) : (u16 [a, b]).toNat = a.toNat + 256 * b.toNat := by
  have ha := a.toNat_lt
  have hb := b.toNat_lt
  simp only [u16, List.take_succ_cons, List.take_nil, leNat, Nat.toUInt16_eq,
    UInt16.toNat_ofNat']
  omega

theorem u16At_eq (h : i + 2 ≤ bs.length) : u16At bs i = u16 [u8At bs i, u8At bs (i + 1)] := by
  have hget : ∀ j (hj : j < bs.length), bs.getD j 0 = bs[j] := by
    intro j hj
    rw [List.getD_eq_getElem?_getD, List.getElem?_eq_getElem hj, Option.getD_some]
  rw [u16At, u8At, u8At, hget i (by omega), hget (i + 1) (by omega),
    List.drop_eq_getElem_cons (by omega), List.drop_eq_getElem_cons (by omega)]
  rfl

theorem words_le : ∀ w ∈ words bs, w ≤ 0xFFFF := by
  induction bs using words.induct with
  | case1 a b bs ih =>
    intro w hw
    obtain rfl | hw := List.mem_cons.mp hw
    · exact Nat.le_of_lt_succ (u16 [a, b]).toNat_lt
    · exact ih w hw
  | case2 a =>
    intro w hw
    rw [List.mem_singleton.mp hw]
    exact (Nat.le_of_lt_succ a.toNat_lt).trans (by decide)
  | case3 => exact nofun

/-- The words by their offsets. -/
theorem sum_words : (words bs).sum
    = ((List.range (bs.length / 2)).map fun k => (u16At bs (2 * k)).toNat).sum
      + (if bs.length % 2 = 1 then (u8At bs (bs.length - 1)).toNat else 0) := by
  induction bs using words.induct with
  | case1 a b bs ih =>
    have hhalf : (a :: b :: bs).length / 2 = bs.length / 2 + 1 := by
      simp only [List.length_cons]
      omega
    have hodd : (a :: b :: bs).length % 2 = bs.length % 2 := by
      simp only [List.length_cons]
      omega
    rw [hhalf, hodd, List.range_succ_eq_map, List.map_cons, List.sum_cons, List.map_map, words,
      List.sum_cons, ih, Nat.add_assoc]
    congr 2
    split
    · next h =>
      have hlast : (a :: b :: bs).length - 1 = bs.length - 1 + 2 := by
        simp only [List.length_cons]
        omega
      rw [hlast]
      rfl
    · rfl
  | case2 a => simp [words, u8At]
  | case3 => rfl

/-- The bytes of the odd offsets count 256 times. -/
def total : ℕ → Bytes → ℕ
  | _, [] => 0
  | i, b :: bs => (if i % 2 = 0 then 1 else 256) * b.toNat + total (i + 1) bs

theorem total_append (i : ℕ) (xs ys : Bytes) :
    total i (xs ++ ys) = total i xs + total (i + xs.length) ys := by
  induction xs generalizing i with
  | nil => simp [total]
  | cons x xs ih =>
    have hnext : i + 1 + xs.length = i + (x :: xs).length := by
      rw [List.length_cons]
      omega
    rw [List.cons_append, total, total, ih, hnext, Nat.add_assoc]

theorem sum_words_eq_total (hi : i % 2 = 0) : (words bs).sum = total i bs := by
  induction bs using words.induct generalizing i with
  | case1 a b bs ih =>
    have hnext : (i + 1) % 2 ≠ 0 := by omega
    rw [words, List.sum_cons, toNat_u16, ih (i := i + 1 + 1) (by omega), total, total, if_pos hi,
      if_neg hnext]
    omega
  | case2 a => simp [words, total, hi]
  | case3 => rfl

theorem u8At_blank (j : ℕ) (hc : c + 4 ≤ data.length) :
    u8At (blank data c) j = if c ≤ j ∧ j < c + 4 then 0 else u8At data j := by
  have htake : (data.take c).length = c := List.length_take_of_le (by omega)
  simp only [u8At, List.getD_eq_getElem?_getD, blank]
  split
  · next h =>
    rw [List.getElem?_append_right (by omega), List.getElem?_append_left (by simp; omega),
      List.getElem?_replicate]
    split <;> rfl
  · next h =>
    by_cases hj : j < c
    · rw [List.getElem?_append_left (by omega), List.getElem?_take_of_lt hj]
    · rw [List.getElem?_append_right (by omega), List.getElem?_append_right (by simp; omega),
        List.getElem?_drop]
      congr 2
      simp only [htake, List.length_replicate]
      omega

theorem length_blank (hc : c + 4 ≤ data.length) : (blank data c).length = data.length := by
  simp only [blank, List.length_append, List.length_take, List.length_drop, List.length_replicate]
  omega

end Words

/-! ## what is computed -/

theorem represents_addWord {pe : PEFile} {n sum i : ℕ} (h : Represents 0xFFFF n sum) :
    Represents 0xFFFF
      (n + if i ≥ pe.checksumOffset ∧ i < pe.checksumOffset + 4 then 0
        else (u16At pe.data i).toNat) (pe.addWord sum i).value := by
  unfold PEFile.addWord
  split
  · exact h
  · have hword : u16 ((pe.data.drop i).take 2) = u16At pe.data i := by
      rw [u16At, u16, u16, List.take_take, Nat.min_self]
    have hle := Nat.le_of_lt_succ (u16At pe.data i).toNat_lt
    simp only [value_bind, value_raw, value_pure, hword]
    have hfold : PEFile.fold (sum + (u16At pe.data i).toNat)
        = addCarry 0xFFFF sum (u16At pe.data i).toNat := h.foldCarry_add hle
    rw [hfold]
    exact h.add hle

theorem represents_addWords (pe : PEFile) (is : List ℕ) {n sum : ℕ}
    (h : Represents 0xFFFF n sum) :
    Represents 0xFFFF
      (n + (is.map fun i => if i ≥ pe.checksumOffset ∧ i < pe.checksumOffset + 4 then 0
        else (u16At pe.data i).toNat).sum) (is.foldlM pe.addWord sum).value := by
  induction is generalizing n sum with
  | nil => exact h
  | cons i is ih =>
    rw [List.foldlM_cons, value_bind, List.map_cons, List.sum_cons, ← Nat.add_assoc]
    exact ih (represents_addWord h)

section Field

variable {pe : PEFile}

/-- The field that is left out: at the checksum's offset, or one behind it if that is odd. -/
def skipped (pe : PEFile) : ℕ := pe.checksumOffset + pe.checksumOffset % 2

/-- The words that are added are those with the skipped bytes as zeros. -/
theorem sum_words_skipped (h : skipped pe + 4 ≤ pe.data.length) :
    (words (blank pe.data (skipped pe))).sum
      = (((List.range (pe.data.length / 2)).map (2 * ·)).map fun i =>
          if i ≥ pe.checksumOffset ∧ i < pe.checksumOffset + 4 then 0
          else (u16At pe.data i).toNat).sum
        + pe.lastByte.value := by
  have heven : skipped pe % 2 = 0 := by
    unfold skipped
    omega
  have hskip : skipped pe = pe.checksumOffset + pe.checksumOffset % 2 := rfl
  rw [sum_words, length_blank h, List.map_map]
  congr 1
  · congr 1
    refine List.map_congr_left fun k hk => ?_
    have hlt := List.mem_range.mp hk
    rw [u16At_eq (by rw [length_blank h]; omega), u8At_blank _ h, u8At_blank _ h]
    simp only [Function.comp_apply]
    split
    · next hin =>
      rw [if_pos (by omega), if_pos (by omega)]
      rfl
    · next hout => rw [if_neg (by omega), if_neg (by omega), ← u16At_eq (by omega)]
  · unfold PEFile.lastByte
    split
    · rw [u8At_blank _ h, if_neg (by omega)]
      simp [u8At]
    · rfl

/-- **What is computed** is the standard checksum with the skipped bytes as the field. -/
theorem computeChecksum_eq (h : skipped pe + 4 ≤ pe.data.length) :
    pe.computeChecksum.value = standardChecksum pe.data (skipped pe) := by
  have hlast : pe.lastByte.value ≤ 0xFFFF := by
    unfold PEFile.lastByte
    split
    · exact (Nat.le_of_lt_succ (UInt8.toNat_lt _)).trans (by decide)
    · exact Nat.zero_le _
  have hwords := represents_addWords pe ((List.range (pe.data.length / 2)).map (2 * ·))
    Represents.zero
  rw [Nat.zero_add] at hwords
  have hsum := hwords.add hlast
  rw [← sum_words_skipped h, ← hwords.foldCarry_add hlast, ← hsum.foldCarry_self] at hsum
  have hstandard := hsum.unique (represents_sumCarry words_le)
  rw [standardChecksum, ← hstandard]
  rfl

end Field

/-! ## an odd offset -/

section Odd

variable {data : Bytes} {c : ℕ}

theorem total_zeros (i : ℕ) : total i (List.replicate 4 0) = 0 := by
  simp [List.replicate, total]

theorem drop_eq_cons (h : c < data.length) : data.drop c = u8At data c :: data.drop (c + 1) := by
  rw [List.drop_eq_getElem_cons h, u8At, List.getD_eq_getElem?_getD, List.getElem?_eq_getElem h,
    Option.getD_some]

/-- What does not depend on the field, nor on the byte behind it. -/
def around (data : Bytes) (c : ℕ) : ℕ := total 0 (data.take c) + total (c + 5) (data.drop (c + 5))

/-- With the field blanked, the byte behind it counts. -/
theorem sum_words_blank (hodd : c % 2 = 1) (h : c + 5 ≤ data.length) :
    (words (blank data c)).sum = around data c + 256 * (u8At data (c + 4)).toNat := by
  have htake : (data.take c).length = c := List.length_take_of_le (by omega)
  have hplace : (c + 4) % 2 ≠ 0 := by omega
  rw [sum_words_eq_total (i := 0) rfl, blank, total_append, total_append, total_zeros, htake,
    drop_eq_cons (c := c + 4) (by omega), total]
  simp only [List.length_replicate, Nat.zero_add]
  rw [if_neg hplace, around, Nat.add_assoc c]
  omega

variable (data) in
/-- With the bytes one behind blanked, the field's first byte counts. -/
theorem sum_words_blank_succ (hodd : c % 2 = 1) (h : c + 5 ≤ data.length) :
    (words (blank data (c + 1))).sum = around data c + 256 * (u8At data c).toNat := by
  have htake : (data.take c).length = c := List.length_take_of_le (by omega)
  have hplace : (0 + c) % 2 ≠ 0 := by omega
  have hfirst : data.take (c + 1) = data.take c ++ [u8At data c] := by
    rw [List.take_add, drop_eq_cons (by omega)]
    rfl
  rw [sum_words_eq_total (i := 0) rfl, blank, total_append, total_append, total_zeros, hfirst,
    total_append, htake, total, if_neg hplace, around]
  simp only [List.length_append, List.length_replicate, List.length_singleton, htake, total]
  have hoffset : 0 + (c + 1) + 4 = c + 5 := by omega
  have hdrop : c + 1 + 4 = c + 5 := rfl
  rw [hoffset, hdrop]
  omega

/-- The sums of a file that starts with its signature are not zero. -/
theorem around_pos (hsignature : u16At data 0 = imageDosSignature) (hc : 0 < c) :
    0 < around data c := by
  cases data with
  | nil => exact absurd hsignature (by decide)
  | cons a bs =>
    have ha : 0 < a.toNat := by
      refine Nat.pos_of_ne_zero fun hzero => ?_
      obtain rfl : a = 0 := UInt8.toNat_inj.mp hzero
      cases bs with
      | nil => exact absurd hsignature (by decide)
      | cons b bs =>
        have hfirst : u16 [0, b] = imageDosSignature := hsignature
        have hvalue := congrArg UInt16.toNat hfirst
        rw [toNat_u16] at hvalue
        have hlow := congrArg (· % 256) hvalue
        simp [imageDosSignature] at hlow
    obtain ⟨c, rfl⟩ := Nat.exists_eq_succ_of_ne_zero hc.ne'
    rw [around, List.take_succ_cons, total]
    simp only [Nat.zero_mod, if_true, Nat.one_mul]
    omega

/-- Two bytes that count 256 times give the same word only if they are the same. -/
theorem byte_modEq_iff {n : ℕ} {a b : UInt8} :
    n + 256 * a.toNat ≡ n + 256 * b.toNat [MOD 0xFFFF] ↔ a = b := by
  have ha := a.toNat_lt
  have hb := b.toNat_lt
  constructor
  · intro h
    have hcancel := Nat.ModEq.add_left_cancel' n h
    rw [Nat.ModEq, Nat.mod_eq_of_lt (by omega), Nat.mod_eq_of_lt (by omega)] at hcancel
    exact UInt8.toNat_inj.mp (by omega)
  · rintro rfl
    rfl

theorem checksum_inj {x y length : ℕ} (hx : x ≤ 0xFFFF) (hy : y ≤ 0xFFFF) :
    (x + length).toUInt32 = (y + length).toUInt32 ↔ x = y := by
  constructor
  · intro h
    have hnat := congrArg UInt32.toNat h
    simp only [Nat.toUInt32_eq, UInt32.toNat_ofNat'] at hnat
    omega
  · rintro rfl
    rfl

/-- Two checksums of files of one length whose words add up to the same around a byte. -/
theorem sumCarry_eq_iff {ws ws' : List ℕ} {n length : ℕ} {a b : UInt8} (hn : 0 < n)
    (hws : ∀ w ∈ ws, w ≤ 0xFFFF) (hws' : ∀ w ∈ ws', w ≤ 0xFFFF)
    (h : ws.sum = n + 256 * a.toNat) (h' : ws'.sum = n + 256 * b.toNat) :
    (sumCarry 0xFFFF ws + length).toUInt32 = (sumCarry 0xFFFF ws' + length).toUInt32 ↔ a = b := by
  have hsum := represents_sumCarry hws
  have hsum' := represents_sumCarry hws'
  rw [checksum_inj hsum.le hsum'.le, hsum.eq_iff hsum' (by omega) (by omega), h, h',
    byte_modEq_iff]

end Odd

/-! ## when the checksum is the standard one -/

/-- The files differ at most in the four bytes of the field. -/
def SameBut (field : ℕ) (data data' : Bytes) : Prop :=
  data.length = data'.length ∧ ∀ i, ¬(field ≤ i ∧ i < field + 4) → data[i]? = data'[i]?

theorem SameBut.blank_eq {field : ℕ} {data data' : Bytes} (h : SameBut field data data') :
    blank data field = blank data' field := by
  have htake : data.take field = data'.take field := by
    refine List.ext_getElem? fun i => ?_
    rw [List.getElem?_take, List.getElem?_take]
    split
    · exact h.2 i (by omega)
    · rfl
  have hdrop : data.drop (field + 4) = data'.drop (field + 4) := by
    refine List.ext_getElem? fun i => ?_
    rw [List.getElem?_drop, List.getElem?_drop]
    exact h.2 _ (by omega)
  rw [blank, blank, htake, hdrop]

theorem SameBut.around_eq {field : ℕ} {data data' : Bytes} (h : SameBut field data data') :
    around data field = around data' field := by
  have htake : data.take field = data'.take field := by
    refine List.ext_getElem? fun i => ?_
    rw [List.getElem?_take, List.getElem?_take]
    split
    · exact h.2 i (by omega)
    · rfl
  have hdrop : data.drop (field + 5) = data'.drop (field + 5) := by
    refine List.ext_getElem? fun i => ?_
    rw [List.getElem?_drop, List.getElem?_drop]
    exact h.2 _ (by omega)
  rw [around, around, htake, hdrop]

/-- `e_lfanew`, and so the field's place, is before the field. -/
theorem SameBut.checksumOffset_eq {data data' : Bytes} {pe pe' : PEFile}
    (h : SameBut pe.checksumOffset data data') (hpe : Parsed data pe) (hpe' : Parsed data' pe') :
    pe'.checksumOffset = pe.checksumOffset := by
  have hfield := hpe.checksumOffset_eq
  have hlfanew : u32At data' 0x3C = u32At data 0x3C := by
    rw [u32At, u32At, u32, u32]
    congr 2
    refine List.ext_getElem? fun i => ?_
    rw [List.getElem?_take, List.getElem?_take, List.getElem?_drop, List.getElem?_drop]
    split
    · exact (h.2 _ (by omega)).symm
    · rfl
  rw [hpe'.checksumOffset_eq, hlfanew, hfield]

/-- **The checksum of a file that is parsed is the standard one** if the checksum field is at an
even offset, or if its first byte is the byte behind it; two files that differ only in the field
have the same checksum if it is at an even offset, or if they have the same first byte in it. -/
theorem computeChecksum_iff (data : Bytes) (pe : PEFile) (h : (parse data).value = some pe) :
    (pe.computeChecksum.value = standardChecksum data pe.checksumOffset
      ↔ pe.checksumOffset % 2 = 0
        ∨ u8At data pe.checksumOffset = u8At data (pe.checksumOffset + 4))
    ∧ ∀ data' pe', (parse data').value = some pe' → SameBut pe.checksumOffset data data' →
      (pe.computeChecksum.value = pe'.computeChecksum.value
        ↔ pe.checksumOffset % 2 = 0
          ∨ u8At data pe.checksumOffset = u8At data' pe.checksumOffset) := by
  have hpe := parsed h
  have hinside := hpe.inside
  have hskip : ∀ pe : PEFile, skipped pe = pe.checksumOffset + pe.checksumOffset % 2 := fun _ => rfl
  have hvalue : pe.computeChecksum.value = standardChecksum data (skipped pe) := by
    rw [computeChecksum_eq (by rw [hpe.data_eq, hskip]; omega), hpe.data_eq]
  rw [hvalue]
  constructor
  · obtain heven | hodd := Nat.mod_two_eq_zero_or_one pe.checksumOffset
    · rw [hskip, heven, Nat.add_zero]
      exact iff_of_true rfl (Or.inl rfl)
    · have hpos : 0 < around data pe.checksumOffset := around_pos hpe.signature
        (by rw [hpe.checksumOffset_eq]; omega)
      rw [hskip, hodd, standardChecksum, standardChecksum, sumCarry_eq_iff hpos words_le words_le
        (sum_words_blank_succ _ hodd (by omega)) (sum_words_blank hodd (by omega))]
      simp
  · intro data' pe' h' hsame
    have hpe' := parsed h'
    have hoffset := hsame.checksumOffset_eq hpe hpe'
    have hlength := hsame.1
    have hvalue' : pe'.computeChecksum.value = standardChecksum data' (skipped pe) := by
      rw [computeChecksum_eq (by rw [hpe'.data_eq, hskip, hoffset]; omega), hpe'.data_eq, hskip,
        hskip, hoffset]
    rw [hvalue']
    obtain heven | hodd := Nat.mod_two_eq_zero_or_one pe.checksumOffset
    · rw [hskip, heven, Nat.add_zero, standardChecksum, standardChecksum, hsame.blank_eq, hlength]
      exact iff_of_true rfl (Or.inl rfl)
    · have hpos : 0 < around data pe.checksumOffset := around_pos hpe.signature
        (by rw [hpe.checksumOffset_eq]; omega)
      have hsum' := sum_words_blank_succ data' hodd (by omega)
      rw [← hsame.around_eq] at hsum'
      rw [hskip, hodd, standardChecksum, standardChecksum, ← hlength, sumCarry_eq_iff hpos words_le
        words_le (sum_words_blank_succ _ hodd (by omega)) hsum']
      simp

theorem isSome_parse_bareImage' : (parse (bareImage 64 [5, 6, 7, 8])).value.isSome = true := by
  decide +kernel

theorem computeChecksum_iff_bareImage :
    let data := bareImage 64 [1, 2, 3, 4]
    let data' := bareImage 64 [5, 6, 7, 8]
    let pe := (parse data).value.get isSome_parse_bareImage
    let pe' := (parse data').value.get isSome_parse_bareImage'
    pe.computeChecksum.value = standardChecksum data pe.checksumOffset
      ∧ pe.computeChecksum.value = pe'.computeChecksum.value := by
  intro data data' pe pe'
  have hsame : SameBut pe.checksumOffset data data' := by
    have hlength : data.length = 312 ∧ data'.length = 312 := by decide +kernel
    refine ⟨hlength.1.trans hlength.2.symm, fun i hi => ?_⟩
    by_cases hlt : i < 312
    · have hall : ∀ i < 312, ¬(pe.checksumOffset ≤ i ∧ i < pe.checksumOffset + 4) →
          data[i]? = data'[i]? := by decide +kernel
      exact hall i hlt hi
    · rw [List.getElem?_eq_none (by omega), List.getElem?_eq_none (by omega)]
  have hiff := computeChecksum_iff data pe (Option.some_get _).symm
  exact ⟨hiff.1.mpr (Or.inl (by decide +kernel)),
    (hiff.2 data' pe' (Option.some_get _).symm hsame).mpr (Or.inl (by decide +kernel))⟩

/-- Behind a header at an odd offset, the stored checksum's first byte counts. -/
theorem odd_header_counts :
    let pe := (parse (bareImage 65 [1, 0, 0, 0])).value.get (by decide +kernel)
    let pe' := (parse (bareImage 65 [2, 0, 0, 0])).value.get (by decide +kernel)
    pe.computeChecksum.value ≠ standardChecksum (bareImage 65 [1, 0, 0, 0]) pe.checksumOffset
      ∧ blank (bareImage 65 [1, 0, 0, 0]) pe.checksumOffset
        = blank (bareImage 65 [2, 0, 0, 0]) pe.checksumOffset
      ∧ pe.computeChecksum.value ≠ pe'.computeChecksum.value := by
  decide +kernel

end WinSys.PE
