import WinSys.EventLog.Markup
import Mathlib.Data.List.TakeWhile

/-!
# References decoded

What the text of characters is read as, whichever way each is written.
-/

namespace WinSys.EventLog

open Infra CLibrary

/-! ## code units -/

theorem toNat_lt (c : Char) : c.toNat < 0x110000 := by
  have h := c.valid
  simp only [UInt32.isValidChar, Nat.isValidChar] at h
  unfold Char.toNat
  omega

theorem mem_utf16 {c : Char} {u : WChar} (h : u ∈ utf16 c) :
    u.toNat = c.toNat ∨ 0xD800 ≤ u.toNat := by
  have hc := toNat_lt c
  unfold utf16 at h
  split at h
  · next hlt =>
    obtain rfl := List.mem_singleton.mp h
    left
    rw [Nat.toUInt16, UInt16.toNat_ofNat']
    omega
  · right
    simp only [List.mem_cons, List.not_mem_nil, or_false] at h
    cases h with
    | inl h =>
      rw [h, Nat.toUInt16, UInt16.toNat_ofNat']
      omega
    | inr h =>
      rw [h, Nat.toUInt16, UInt16.toNat_ofNat']
      omega

/-- A code unit below the surrogates is its character. -/
theorem eq_of_mem_utf16 {c d : Char} {u : WChar} (h : u ∈ utf16 c) (hu : u.toNat = d.toNat)
    (hd : d.toNat < 0xD800) : c = d := by
  cases mem_utf16 h with
  | inl hc => exact Char.toNat_inj.mp (by omega)
  | inr hc => omega

/-! ## digits -/

theorem isDigit_ne {base : ℕ} {c d : WChar} (h : isDigit asciiDigit base c = true)
    (hd : asciiDigit d = none) : c ≠ d := by
  rintro rfl
  rw [isDigit, hd] at h
  cases h

theorem isDigit_ascii {base : ℕ} {c : WChar} (h : isDigit asciiDigit base c = true) :
    0x30 ≤ c.toNat ∧ c.toNat < 0x80 := by
  by_contra hc
  have hvalue : asciiDigit c = none := by
    unfold asciiDigit
    simp only [UInt16.le_iff_toNat_le, UInt16.reduceToNat]
    rw [if_neg (by omega), if_neg (by omega), if_neg (by omega)]
  exact isDigit_ne h hvalue rfl

variable [CLibrary]

theorem digitValue_of_isDigit {base : ℕ} {c : WChar} (h : isDigit asciiDigit base c = true) :
    digitValue c = asciiDigit c :=
  digitValue_ascii c (UInt16.lt_iff_toNat_lt.mpr (isDigit_ascii h).2)

theorem isDigit_not_space {base : ℕ} {c : WChar} (h : isDigit asciiDigit base c = true) :
    iswspace c = false := by
  obtain ⟨hlow, hhigh⟩ := isDigit_ascii h
  rw [iswspace_ascii c (UInt16.lt_iff_toNat_lt.mpr hhigh)]
  by_contra hspace
  simp only [asciiSpace, Bool.not_eq_false, Bool.or_eq_true, Bool.and_eq_true, decide_eq_true_eq,
    UInt16.le_iff_toNat_le, ← UInt16.toNat_inj, UInt16.reduceToNat] at hspace
  omega

/-- The C library reads the digits as they are meant. -/
theorem numeral_digits {base : ℕ} {digits : WString}
    (h : ∀ d ∈ digits, isDigit asciiDigit base d = true) :
    digits.takeWhile (isDigit digitValue base) = digits ∧
      numeral digitValue base digits = numeral asciiDigit base digits := by
  have hvalue : ∀ d ∈ digits, digitValue d = asciiDigit d := fun d hd =>
    digitValue_of_isDigit (h d hd)
  refine ⟨List.takeWhile_eq_self_iff.mpr fun d hd => ?_, ?_⟩
  · rw [isDigit, hvalue d hd]
    exact h d hd
  · refine List.foldl_ext _ _ 0 fun n d hd => ?_
    rw [hvalue d hd]

/-- Digits are the number they are written for. -/
theorem wcstoul_digits {base : ℕ} {digits : WString} (h : ∀ d ∈ digits, isDigit asciiDigit base d = true)
    (hbase : base = 10 ∨ base = 16) (hlt : numeral asciiDigit base digits < 2 ^ 32) :
    wcstoul digits base = numeral asciiDigit base digits := by
  cases digits with
  | nil => rfl
  | cons c digits =>
    have hc := h c List.mem_cons_self
    have hspace : (c :: digits).dropWhile iswspace = c :: digits := by
      rw [List.dropWhile_cons, isDigit_not_space hc]
      rfl
    have hprefix : ¬ (base = 16 ∧ (wide "0x" <+: c :: digits ∨ wide "0X" <+: c :: digits)) := by
      rintro ⟨rfl, hp⟩
      have hx : ∀ x : WChar, isDigit asciiDigit 16 x = false → ¬ [0x30, x] <+: c :: digits := by
        intro x hx hp
        have := h x (hp.subset (by simp))
        rw [hx] at this
        cases this
      cases hp with
      | inl hp => exact hx 0x78 (by decide) hp
      | inr hp => exact hx 0x58 (by decide) hp
    obtain ⟨hall, hnumeral⟩ := numeral_digits h
    unfold wcstoul
    simp only [hspace]
    rw [if_neg (isDigit_ne hc (by decide)), if_neg (isDigit_ne hc (by decide)), if_neg hprefix,
      hall, hnumeral]
    omega

/-! ## references -/

omit [CLibrary] in
theorem Reference.mem_ne {c : Char} {reference : WString} (h : Reference c reference) {d : WChar}
    (hd : asciiDigit d = none) (hn : d ≠ numberSign) : d ∉ reference := by
  have hdigits : ∀ {base : ℕ} {digits : WString}, (∀ d ∈ digits, isDigit asciiDigit base d = true) →
      d ∉ digits := fun h hm => isDigit_ne (h d hm) hd rfl
  cases h with
  | named h =>
    have hall : ∀ e ∈ entities, ∀ u ∈ e.1, asciiDigit u ≠ none := by decide
    exact fun hm => hall _ h d hm hd
  | decimal h =>
    rw [List.mem_cons, not_or]
    exact ⟨hn, hdigits h⟩
  | hexadecimal h =>
    rw [List.mem_cons, List.mem_cons, not_or, not_or]
    refine ⟨hn, ?_, hdigits h⟩
    rintro rfl
    cases hd

omit [CLibrary] in
theorem toNat_pos_of_isXmlChar {c : Char} (h : isXmlChar c = true) : 0 < c.toNat := by
  simp only [isXmlChar, Bool.or_eq_true, Bool.and_eq_true, decide_eq_true_eq] at h
  omega

/-- A reference is no name when it starts with a number sign. -/
theorem decodeEntity_number {c' : WChar} {rest : WString} {c : Char} (hlegal : isXmlChar c = true)
    (hvalue : (if c' = 0x78 ∨ c' = 0x58 then wcstoul rest 16 else wcstoul (c' :: rest) 10)
      = c.toNat) :
    decodeEntity (numberSign :: c' :: rest) = utf16 c := by
  have hname : ∀ name : WString, name.head? ≠ some numberSign →
      numberSign :: c' :: rest ≠ name := by
    rintro name hhead rfl
    exact hhead rfl
  unfold decodeEntity
  rw [if_neg (hname _ (by decide)), if_neg (hname _ (by decide)), if_neg (hname _ (by decide)),
    if_neg (hname _ (by decide)), if_neg (hname _ (by decide))]
  simp only [if_true, hvalue]
  have hpos := toNat_pos_of_isXmlChar hlegal
  have hlt := toNat_lt c
  unfold utf16
  by_cases hc : c.toNat < 0x10000
  · rw [if_pos (by omega), if_pos hc]
  · rw [if_neg (by omega), if_pos (by omega), if_neg hc]

theorem decodeEntity_reference {c : Char} {reference : WString} (h : Reference c reference)
    (hlegal : isXmlChar c = true) : decodeEntity reference = utf16 c := by
  have hlt := toNat_lt c
  cases h with
  | named h =>
    have hall : ∀ e ∈ entities, decodeEntity e.1 = utf16 e.2 := by
      simp only [entities, List.forall_mem_cons]
      exact ⟨rfl, rfl, rfl, rfl, rfl, fun _ he => absurd he List.not_mem_nil⟩
    exact hall _ h
  | @decimal digits hdigits hvalue =>
    cases digits with
    | nil =>
      have hpos := toNat_pos_of_isXmlChar hlegal
      have hzero : numeral asciiDigit 10 [] = 0 := rfl
      omega
    | cons c' digits =>
      apply decodeEntity_number hlegal
      have hc' := hdigits c' List.mem_cons_self
      have hx : ∀ x : WChar, isDigit asciiDigit 10 x = false → c' ≠ x := by
        rintro x hx rfl
        rw [hx] at hc'
        cases hc'
      rw [if_neg (not_or.mpr ⟨hx _ (by decide), hx _ (by decide)⟩),
        wcstoul_digits hdigits (.inl rfl) (by omega), hvalue]
  | hexadecimal hdigits hvalue =>
    apply decodeEntity_number hlegal
    rw [if_pos (.inl rfl), wcstoul_digits hdigits (.inr rfl) (by omega), hvalue]

/-! ## text -/

theorem decodeText_cons {u : WChar} (hless : u ≠ less) (hamp : u ≠ ampersand) (rest : WString) :
    decodeText (u :: rest) = u :: decodeText rest := by
  rw [decodeText, if_neg hless, if_pos hamp]

theorem decodeText_append {text : WString} (h : ∀ u ∈ text, u ≠ less ∧ u ≠ ampersand)
    (rest : WString) : decodeText (text ++ rest) = text ++ decodeText rest := by
  induction text with
  | nil => rfl
  | cons u text ih =>
    obtain ⟨hless, hamp⟩ := h u List.mem_cons_self
    rw [List.cons_append, decodeText_cons hless hamp,
      ih fun u hu => h u (List.mem_cons_of_mem _ hu), List.cons_append]

/-- The nearest `;` ends a reference. -/
theorem decodeText_reference {reference : WString} (hsemi : semicolon ∉ reference)
    (hlen : reference.length ≤ 9) (rest : WString) :
    decodeText (ampersand :: (reference ++ semicolon :: rest))
      = decodeEntity reference ++ decodeText rest := by
  have hfind : find [semicolon] (ampersand :: (reference ++ semicolon :: rest))
      = some (reference.length + 1) := by
    have hnot : semicolon ∉ ampersand :: reference := by
      rw [List.mem_cons, not_or]
      exact ⟨by decide, hsemi⟩
    exact find_append_self hnot rest
  have hdrop : (reference ++ semicolon :: rest).drop (reference.length + 1) = rest := by
    rw [List.append_cons, List.drop_left' (by simp)]
  rw [decodeText, if_neg (by decide), if_neg (by simp), hfind]
  simp only [Nat.add_sub_cancel]
  rw [if_neg (by omega), List.take_left' rfl, hdrop]

section Pieces

variable {escaped : Char → Bool}

theorem decodeText_piece (p : Piece escaped) (hless : escaped '<' = true)
    (hamp : escaped '&' = true) (rest : WString) :
    decodeText (p.text ++ rest) = utf16 p.char ++ decodeText rest := by
  obtain ⟨hesc, htext⟩ | ⟨reference, href, hlen, htext⟩ := p.written
  · rw [htext]
    refine decodeText_append (fun u hu => ⟨?_, ?_⟩) rest
    · rintro rfl
      rw [eq_of_mem_utf16 (d := '<') hu rfl (by decide), hless] at hesc
      cases hesc
    · rintro rfl
      rw [eq_of_mem_utf16 (d := '&') hu rfl (by decide), hamp] at hesc
      cases hesc
  · have hsemi := href.mem_ne (d := semicolon) (by decide) (by decide)
    rw [htext, List.cons_append, List.append_assoc, List.singleton_append,
      decodeText_reference hsemi hlen, decodeEntity_reference href p.legal]

/-- Text is read as what it was written for. -/
theorem decodeText_written (pieces : List (Piece escaped)) (hless : escaped '<' = true)
    (hamp : escaped '&' = true) : decodeText (written pieces) = decoded pieces := by
  induction pieces with
  | nil => simp [written, decoded, encode, decodeText]
  | cons p pieces ih =>
    have hwritten : written (p :: pieces) = p.text ++ written pieces := rfl
    rw [hwritten, decodeText_piece p hless hamp, ih]
    rfl

omit [CLibrary] in
/-- An escaped character is nowhere in what is written. -/
theorem notMem_written (pieces : List (Piece escaped)) {d : Char} {u : WChar}
    (hd : escaped d = true) (hu : u.toNat = d.toNat) (hlt : d.toNat < 0xD800)
    (hvalue : asciiDigit u = none) (hsign : u ≠ numberSign) (hamp : u ≠ ampersand)
    (hsemi : u ≠ semicolon) : u ∉ written pieces := by
  intro hm
  obtain ⟨p, -, hp⟩ := List.mem_flatMap.mp hm
  obtain ⟨hesc, htext⟩ | ⟨reference, href, -, htext⟩ := p.written
  · rw [htext] at hp
    rw [eq_of_mem_utf16 hp hu hlt, hd] at hesc
    cases hesc
  · rw [htext, List.mem_cons, List.mem_append, List.mem_singleton] at hp
    obtain hp | hp | hp := hp
    · exact hamp hp
    · exact href.mem_ne hvalue hsign hp
    · exact hsemi hp

end Pieces

omit [CLibrary] in
theorem less_notMem_written (pieces : List (Piece escapedInContent)) : less ∉ written pieces :=
  notMem_written pieces (d := '<') rfl rfl (by decide) (by decide) (by decide) (by decide)
    (by decide)

omit [CLibrary] in
theorem notMem_written_attribute {q : Quote} (pieces : List (Piece (escapedInAttribute q))) :
    less ∉ written pieces ∧ greater ∉ written pieces ∧ q.unit ∉ written pieces := by
  refine ⟨?_, ?_, ?_⟩
  · exact notMem_written pieces (d := '<') (by cases q <;> rfl) rfl (by decide) (by decide)
      (by decide) (by decide) (by decide)
  · exact notMem_written pieces (d := '>') (by cases q <;> rfl) rfl (by decide) (by decide)
      (by decide) (by decide) (by decide)
  · refine notMem_written pieces (d := q.char) (by cases q <;> rfl) ?_ ?_ ?_ ?_ ?_ ?_
    all_goals cases q <;> decide

end WinSys.EventLog
