import WinSys.Infra.Json

/-!
# Searching JSON texts

A name in quotation marks is found where a string's text ends with it: the string that is the name
without escapes, or one that ends with an escaped quotation mark and the name. Other text is passed
over.

* `Name.ShownBy`, `Token.Shows`
* `find_text`, `find_text_shown`
-/

namespace Infra.Json

namespace Name

variable (name : Name)

/-- The name in quotation marks. -/
def quoted : List UInt8 := quote :: (name.bytes ++ [quote])

/-- A string with the name in quotation marks in its text. -/
def ShownBy (s : Str) : Prop :=
  s = name.spelled ∨ (Item.escape .quote :: name.spelled) <:+ s

instance : DecidablePred name.ShownBy := fun _ => inferInstanceAs (Decidable (_ ∨ _))

/-- No other token begins as the name does. -/
def Apart : Prop :=
  (name.head?.all fun b => 0x61 ≤ b.1 ∧ b.1 ≤ 0x7A) ∧ 3 ≤ name.length ∧
    [Word.false, .null, .true].all fun w => name.bytes.take 3 ≠ w.text.take 3

instance : Decidable name.Apart := inferInstanceAs (Decidable (_ ∧ _ ∧ _))

end Name

def Token.string? : Token → Option Str
  | .name s => some s
  | .string s => some s
  | _ => none

def Token.Shows (name : Name) (t : Token) : Prop := ∃ s ∈ t.string?, name.ShownBy s

instance (name : Name) : DecidablePred (Token.Shows name) := fun t =>
  match h : t.string? with
  | none => isFalse fun ⟨_, hs, _⟩ => by cases h.symm.trans hs
  | some s =>
    decidable_of_iff (name.ShownBy s)
      ⟨fun hs => ⟨s, h, hs⟩, fun ⟨_, hs, hshown⟩ => by cases h.symm.trans hs; exact hshown⟩

theorem Token.not_shows_of_none {t : Token} {name : Name} (h : t.string? = none) :
    ¬t.Shows name := by
  rintro ⟨s, hs, -⟩
  rw [h] at hs
  cases hs

/-! ## one token -/

section Token

variable {name : Name} {s : Str} {rest : List UInt8}

theorem find_cons_of_not {α : Type*} [DecidableEq α] {pat : List α} {a : α} {as : List α}
    (h : ¬ pat <+: a :: as) : find pat (a :: as) = (find pat as).map (· + 1) := by
  rw [find, if_neg h]

theorem Item.text_head (i : Item) :
    ∃ b bs, i.text = b :: bs ∧ b ≠ quote ∧ ∀ c : PlainByte, b = c.1 → i = .plain c := by
  cases i with
  | plain b => exact ⟨b.1, [], rfl, b.2.2.1, fun c hc => by rw [Subtype.ext hc]⟩
  | escape e => exact ⟨escapeByte, _, rfl, by decide, fun c hc => absurd hc.symm c.2.2.2⟩
  | unicode a b c d => exact ⟨escapeByte, _, rfl, by decide, fun c hc => absurd hc.symm c.2.2.2⟩

/-- A text that goes on as a name and a quotation mark is that of the name. -/
theorem spelled_of_starts (h : name.bytes ++ [quote] <+: Str.text s ++ quote :: rest) :
    s = name.spelled := by
  induction name generalizing s with
  | nil =>
    cases s with
    | nil => rfl
    | cons i s =>
      obtain ⟨b, bs, htext, hquote, -⟩ := i.text_head
      rw [Str.text_cons, htext] at h
      exact absurd (List.cons_prefix_cons.mp h).1.symm hquote
  | cons c name ih =>
    cases s with
    | nil => exact absurd (List.cons_prefix_cons.mp h).1 c.2.2.1
    | cons i s =>
      obtain ⟨b, bs, htext, -, hplain⟩ := i.text_head
      rw [Str.text_cons, htext] at h
      obtain ⟨hb, hrest⟩ := List.cons_prefix_cons.mp h
      obtain rfl := hplain c hb.symm
      cases htext
      rw [ih hrest]
      rfl

theorem Item.quote_notMem {i : Item} (h : i ≠ .escape .quote) : quote ∉ i.text := by
  cases i with
  | plain b => simpa [Item.text, eq_comm] using b.2.2.1
  | escape e =>
    cases e with
    | quote => exact absurd rfl h
    | _ => decide
  | unicode a b c d =>
    simp only [Item.text, List.mem_cons, List.not_mem_nil, or_false, not_or]
    exact ⟨by decide, by decide, a.byte_ne.1.symm, b.byte_ne.1.symm, c.byte_ne.1.symm,
      d.byte_ne.1.symm⟩

/-- Up to its end a string is passed over that does not end with the name in it. -/
theorem find_string (h : ¬ (Item.escape .quote :: name.spelled) <:+ s) (rest : List UInt8) :
    find name.quoted (Str.text s ++ quote :: rest)
      = (find name.quoted (quote :: rest)).map (· + (Str.text s).length) := by
  induction s with
  | nil => simp [Str.text]
  | cons i s ih =>
    have ih := ih fun hsuffix => h (hsuffix.trans (List.suffix_cons _ _))
    rw [Str.text_cons, List.append_assoc]
    by_cases hi : i = .escape .quote
    · subst hi
      have hhere : ¬ name.quoted <+: quote :: (Str.text s ++ quote :: rest) := by
        intro hprefix
        rw [spelled_of_starts (List.cons_prefix_cons.mp hprefix).2] at h
        exact h List.suffix_rfl
      have hescape : ¬ name.quoted <+: escapeByte :: quote :: (Str.text s ++ quote :: rest) := by
        intro hprefix
        exact absurd (List.cons_prefix_cons.mp hprefix).1 (by decide)
      change find name.quoted (escapeByte :: quote :: (Str.text s ++ quote :: rest)) = _
      rw [find_cons_of_not hescape, find_cons_of_not hhere, ih, Option.map_map, Option.map_map,
        List.length_append]
      congr 1
      funext k
      change k + _ + 1 + 1 = k + (2 + _)
      omega
    · rw [Name.quoted, find_append_of_notMem (Item.quote_notMem hi), ← Name.quoted, ih,
        Option.map_map, List.length_append]
      congr 1
      funext k
      change k + _ + _ = k + (_ + _)
      omega

theorem find_string_token (hshown : ¬name.ShownBy s) (hrest : ¬ name.bytes <+: rest) :
    find name.quoted (quote :: (Str.text s ++ [quote]) ++ rest)
      = (find name.quoted rest).map (· + (quote :: (Str.text s ++ [quote])).length) := by
  have hopening : ¬ name.quoted <+: quote :: (Str.text s ++ quote :: rest) := by
    intro hprefix
    exact hshown (.inl (spelled_of_starts (List.cons_prefix_cons.mp hprefix).2))
  have hclosing : ¬ name.quoted <+: quote :: rest := by
    intro hprefix
    exact hrest ((List.prefix_append _ _).trans (List.cons_prefix_cons.mp hprefix).2)
  rw [List.cons_append, List.append_assoc, List.singleton_append, find_cons_of_not hopening,
    find_string (fun hsuffix => hshown (.inr hsuffix)), find_cons_of_not hclosing, Option.map_map,
    Option.map_map]
  congr 1
  funext k
  simp
  omega

/-- A string that ends with the name in it is passed up to its end. -/
theorem find_suffix (h : (Item.escape .quote :: name.spelled) <:+ s) (rest : List UInt8) :
    ∃ k, find name.quoted (Str.text s ++ quote :: rest) = some k ∧
      k + name.quoted.length = (Str.text s).length + 1 := by
  induction s with
  | nil => exact absurd (List.suffix_nil.mp h) (List.cons_ne_nil _ _)
  | cons i s ih =>
    obtain heq | hs := List.suffix_cons_iff.mp h
    · obtain ⟨rfl, rfl⟩ := List.cons.inj heq
      have hescape : ¬ name.quoted <+: escapeByte :: (name.quoted ++ rest) := by
        intro hstarts
        exact absurd (List.cons_prefix_cons.mp hstarts).1 (by decide)
      have htext : Str.text (.escape .quote :: name.spelled) ++ quote :: rest =
          escapeByte :: (name.quoted ++ rest) := by
        rw [Str.text_cons, Name.text_spelled]
        simp [Item.text, Escape.byte, Name.quoted, quote]
      refine ⟨1, ?_, ?_⟩
      · rw [htext, find_cons_of_not hescape, find_of_prefix (List.prefix_append _ _)]
        rfl
      · rw [Str.text_cons, Name.text_spelled, Name.quoted]
        simp [Item.text]
        omega
    · obtain ⟨k, hfind, hlength⟩ := ih hs
      refine ⟨k + i.text.length, ?_, ?_⟩
      · rw [Str.text_cons, List.append_assoc]
        by_cases hi : i = .escape .quote
        · subst hi
          have hhere : ¬ name.quoted <+: quote :: (Str.text s ++ quote :: rest) := by
            intro hstarts
            rw [spelled_of_starts (List.cons_prefix_cons.mp hstarts).2] at hs
            have hle := hs.length_le
            rw [List.length_cons] at hle
            omega
          have hescape :
              ¬ name.quoted <+: escapeByte :: quote :: (Str.text s ++ quote :: rest) := by
            intro hstarts
            exact absurd (List.cons_prefix_cons.mp hstarts).1 (by decide)
          change find name.quoted (escapeByte :: quote :: (Str.text s ++ quote :: rest)) = _
          rw [find_cons_of_not hescape, find_cons_of_not hhere, hfind]
          rfl
        · rw [Name.quoted, find_append_of_notMem (Item.quote_notMem hi), ← Name.quoted, hfind]
          rfl
      · rw [Str.text_cons, List.length_append]
        omega

/-- A string that shows the name is passed up to its end. -/
theorem find_string_shown (h : name.ShownBy s) (rest : List UInt8) :
    ∃ k, find name.quoted (quote :: (Str.text s ++ quote :: rest)) = some k ∧
      k + name.quoted.length = (quote :: (Str.text s ++ [quote])).length := by
  obtain rfl | hsuffix := h
  · refine ⟨0, find_of_prefix ?_, ?_⟩
    · rw [Name.text_spelled]
      exact ⟨rest, by simp [Name.quoted]⟩
    · rw [Name.text_spelled, Nat.zero_add]
      rfl
  · have hopening : ¬ name.quoted <+: quote :: (Str.text s ++ quote :: rest) := by
      intro hstarts
      rw [spelled_of_starts (List.cons_prefix_cons.mp hstarts).2] at hsuffix
      have hle := hsuffix.length_le
      rw [List.length_cons] at hle
      omega
    obtain ⟨k, hfind, hlength⟩ := find_suffix hsuffix rest
    refine ⟨k + 1, ?_, ?_⟩
    · rw [find_cons_of_not hopening, hfind]
      rfl
    · rw [List.length_cons, List.length_append, List.length_singleton]
      omega

end Token

/-! ## texts -/

section Text

variable {name : Name}

theorem Token.text_of_string? {t : Token} {s : Str} (h : t.string? = some s) :
    t.text = quote :: (Str.text s ++ [quote]) := by
  cases t <;> cases h <;> rfl

theorem Token.quote_notMem {t : Token} (h : t.string? = none) : quote ∉ t.text := by
  have hquote : quote ∈ marks := by decide
  cases t with
  | name s => cases h
  | string s => cases h
  | number n => exact fun hmem => n.notMem_marks hmem hquote
  | word w => exact fun hmem => w.notMem_marks hmem hquote
  | _ => decide

theorem digitByte_lt (d : Fin 10) : digitByte d < 0x61 := by
  revert d
  decide

/-- The first byte of a token is a small letter in words only. -/
theorem Token.text_head (t : Token) :
    (∃ w, t = .word w) ∨ ∃ b bs, t.text = b :: bs ∧ ¬(0x61 ≤ b ∧ b ≤ 0x7A) := by
  cases t with
  | word w => exact .inl ⟨w, rfl⟩
  | number n =>
    right
    rw [Token.text, Number.text]
    cases n.negative with
    | true => exact ⟨0x2D, _, rfl, by decide⟩
    | false =>
      obtain ⟨d, ds, hwhole⟩ := List.exists_cons_of_ne_nil n.whole_ne
      rw [hwhole]
      refine ⟨digitByte d, _, rfl, fun hletter => ?_⟩
      exact absurd hletter.1 (UInt8.not_le.mpr (digitByte_lt d))
  | _ => exact .inr ⟨_, _, rfl, by decide⟩

theorem Space.byte_lt (w : Space) : w.byte < 0x61 := by
  cases w <;> decide

/-- No text begins as a name does that is apart. -/
theorem not_prefix_text (hapart : name.Apart) (ps : List Piece) (tail : List Space) :
    ¬ name.bytes <+: text ps tail := by
  obtain ⟨hletter, hlength, hwords⟩ := hapart
  intro hprefix
  have hne : name ≠ [] := fun hnil => by simp [hnil] at hlength
  obtain ⟨c, name', rfl⟩ := List.exists_cons_of_ne_nil hne
  have hletter : 0x61 ≤ c.1 ∧ c.1 ≤ 0x7A := of_decide_eq_true hletter
  have hspace : ∀ (w : Space) (bs : List UInt8), ¬ Name.bytes (c :: name') <+: w.byte :: bs := by
    intro w bs hprefix
    have heq : c.1 = w.byte := (List.cons_prefix_cons.mp hprefix).1
    exact absurd hletter.1 (UInt8.not_le.mpr (heq ▸ w.byte_lt))
  cases ps with
  | nil =>
    cases tail with
    | nil => exact absurd (List.prefix_nil.mp hprefix) (List.cons_ne_nil _ _)
    | cons w tail => exact hspace w _ hprefix
  | cons p ps =>
    obtain ⟨ws, t⟩ := p
    rw [text_cons] at hprefix
    cases ws with
    | cons w ws => exact hspace w _ hprefix
    | nil =>
      obtain ⟨w, rfl⟩ | ⟨b, bs, htext, hb⟩ := t.text_head
      · have htake := hprefix.take 3
        have hw : 3 ≤ w.text.length := by cases w <;> decide
        change _ <+: List.take 3 (w.text ++ text ps tail) at htake
        rw [List.take_append_of_le_length hw] at htake
        have hsame := htake.eq_of_length (by
          rw [List.length_take, List.length_take, Name.bytes, List.length_map]
          omega)
        have hword := List.all_eq_true.mp hwords w (by cases w <;> decide)
        exact of_decide_eq_true hword hsame
      · change _ <+: t.text ++ text ps tail at hprefix
        rw [htext] at hprefix
        obtain ⟨heq, -⟩ := List.cons_prefix_cons.mp hprefix
        exact hb (heq ▸ hletter)

/-- **Tokens are passed over that do not show the name.** -/
theorem find_text (hapart : name.Apart) {before : List Piece} (h : ∀ p ∈ before, ¬p.2.Shows name)
    (after : List Piece) (tail : List Space) :
    find name.quoted (text (before ++ after) tail)
      = (find name.quoted (text after tail)).map (· + (before.flatMap Piece.text).length) := by
  induction before with
  | nil => simp
  | cons p before ih =>
    have hp := h p List.mem_cons_self
    have ih := ih fun q hq => h q (List.mem_cons_of_mem _ hq)
    have hspaces : quote ∉ spaces p.1 := fun hmem => spaces_notMem_marks hmem (by decide)
    rw [List.cons_append, text_cons, Name.quoted, find_append_of_notMem hspaces, ← Name.quoted]
    have htoken : find name.quoted (p.2.text ++ text (before ++ after) tail)
        = (find name.quoted (text (before ++ after) tail)).map (· + p.2.text.length) := by
      cases hstring : p.2.string? with
      | none =>
        rw [Name.quoted, find_append_of_notMem (Token.quote_notMem hstring)]
      | some s =>
        rw [Token.text_of_string? hstring]
        exact find_string_token (fun hshown => hp ⟨s, hstring, hshown⟩)
          (not_prefix_text hapart _ _)
    rw [htoken, ih, Option.map_map, Option.map_map, List.flatMap_cons, Piece.text,
      List.length_append, List.length_append]
    congr 1
    funext k
    change k + _ + _ + _ = k + (_ + _ + _)
    omega

/-- A token that shows the name has it at its end, and it is found there. -/
theorem find_text_shown {t : Token} (h : t.Shows name) (ws : List Space) (after : List Piece)
    (tail : List Space) :
    ∃ lead, spaces ws ++ t.text = lead ++ name.quoted ∧
      find name.quoted (text ((ws, t) :: after) tail) = some lead.length := by
  obtain ⟨s, hs, hshown⟩ := h
  have hspaces : quote ∉ spaces ws := fun hmem => spaces_notMem_marks hmem (by decide)
  have htext := Token.text_of_string? hs
  obtain ⟨k, hfind, hlength⟩ := find_string_shown hshown (text after tail)
  have hsplit : t.text ++ text after tail = quote :: (Str.text s ++ quote :: text after tail) := by
    rw [htext]
    simp
  rw [← hsplit] at hfind
  rw [← htext] at hlength
  have hstarts := (find_eq_some.mp hfind).2.1
  rw [List.drop_append_of_le_length (by omega)] at hstarts
  have hend : name.quoted = t.text.drop k := by
    refine (List.prefix_of_prefix_length_le hstarts (List.prefix_append _ _) ?_).eq_of_length ?_
    · rw [List.length_drop]
      omega
    · rw [List.length_drop]
      omega
  refine ⟨spaces ws ++ t.text.take k, ?_, ?_⟩
  · rw [List.append_assoc, hend, List.take_append_drop]
  · rw [text_cons, Name.quoted, find_append_of_notMem hspaces, ← Name.quoted]
    change (find name.quoted (t.text ++ text after tail)).map _ = _
    rw [hfind, List.length_append, List.length_take_of_le (by omega), Option.map_some,
      Nat.add_comm]

end Text

end Infra.Json
