import WinSys.Infra.JsonSearch

/-!
# Looking up a hash

What `VirusTotal::LookupHash` makes of a response. The body is searched as text: `FindObject` for
the object behind a quoted name, `FindNumber` for the number behind one.

* `findNumber`, `findObject`, `lookupHash`
* `findNumber_shown`, `findNumber_eq_none`, `findObject_shown`: what they find in the text of a
  JSON value
-/

namespace WinSys.VirusTotal

open Infra Infra.Json

/-! ## reports -/

structure Response where
  status : UInt32
  error : UInt32 := 0
  body : List UInt8 := []
deriving DecidableEq, Repr

inductive VirusTotalStatus where
  | found
  | notFound
  | uploaded
  | badKey
  | quotaExceeded
  | tooLarge
  | error
deriving DecidableEq, Repr

structure VirusTotalReport where
  status : VirusTotalStatus := .error
  malicious : UInt32 := 0
  suspicious : UInt32 := 0
  undetected : UInt32 := 0
  harmless : UInt32 := 0
  engines : UInt32 := 0
  lastAnalysis : ℤ := 0
  httpStatus : UInt32 := 0
  error : UInt32 := 0
deriving DecidableEq, Repr

def fromResponse (response : Response) : VirusTotalReport where
  httpStatus := response.status
  error := response.error
  status :=
    if response.status = 200 then .found
    else if response.status = 404 then .notFound
    else if response.status = 401 ∨ response.status = 403 then .badKey
    else if response.status = 429 then .quotaExceeded
    else .error

/-! ## searching the body -/

def IsDigit (b : UInt8) : Prop := 0x30 ≤ b ∧ b ≤ 0x39

instance : DecidablePred IsDigit := fun _ => inferInstanceAs (Decidable (_ ∧ _))

/-- What `isspace` takes for white space. -/
def IsSpace (b : UInt8) : Prop := b = 0x20 ∨ 0x09 ≤ b ∧ b ≤ 0x0D

instance : DecidablePred IsSpace := fun _ => inferInstanceAs (Decidable (_ ∨ _))

/-- The nearest 64-bit number. -/
def clamp (n : ℤ) : ℤ := max (-2 ^ 63) (min n (2 ^ 63 - 1))

def digitsValue (digits : List UInt8) : ℕ := digits.foldl (fun n b => 10 * n + (b.toNat - 0x30)) 0

/-- `_strtoi64`, base 10 -/
def strtoi64 (text : List UInt8) : ℤ :=
  let text := text.dropWhile fun b => decide (IsSpace b)
  let (negative, text) :=
    match text with
    | 0x2D :: text => (true, text)
    | 0x2B :: text => (false, text)
    | text => (false, text)
  let value : ℤ := digitsValue (text.takeWhile fun b => decide (IsDigit b))
  clamp (if negative then -value else value)

/-- The number after a colon, if there's one. -/
def numberAt (text : List UInt8) : Option ℤ :=
  match text.dropWhile fun b => b = 0x20 ∨ b = 0x09 ∨ b = 0x0D ∨ b = 0x0A with
  | [] => none
  | b :: text => if IsDigit b ∨ b = 0x2D then some (strtoi64 (b :: text)) else none

def findNumber (json : List UInt8) (first last : ℕ) (key : Name) : Option ℤ :=
  match findFrom key.quoted json first with
  | none => none
  | some pos =>
    if pos ≥ last then none
    else
      match findFrom [0x3A] json (pos + key.quoted.length) with
      | none => none
      | some colon => numberAt (json.drop (colon + 1))

/-- The loop of `FindObject`: the place of the brace that closes the first one. -/
def closing : ℤ → Bool → List UInt8 → Option ℕ
  | _, _, [] => none
  | depth, true, b :: text =>
    if b = escapeByte then
      match text with
      | [] => none
      | _ :: text => (closing depth true text).map (· + 2)
    else (closing depth (b ≠ quote) text).map (· + 1)
  | depth, false, b :: text =>
    if b = quote then (closing depth true text).map (· + 1)
    else if b = 0x7B then (closing (depth + 1) false text).map (· + 1)
    else if b = 0x7D then
      if depth - 1 = 0 then some 0 else (closing (depth - 1) false text).map (· + 1)
    else (closing depth false text).map (· + 1)

def findObject (json : List UInt8) (key : Name) : Option (ℕ × ℕ) :=
  match find key.quoted json with
  | none => none
  | some pos =>
    match findFrom [0x7B] json pos with
    | none => none
    | some opening => (closing 0 false (json.drop opening)).map fun i => (opening, opening + i)

def toUInt32 (n : ℤ) : UInt32 := (n % 2 ^ 32).toNat.toUInt32

def statsName : Name := .of "last_analysis_stats"

def dateName : Name := .of "last_analysis_date"

def lookupHash (response : Response) : VirusTotalReport :=
  let report := fromResponse response
  if report.status ≠ .found then report
  else
    let report :=
      match findObject response.body statsName with
      | none => report
      | some (first, last) =>
        let get (key : String) :=
          toUInt32 ((findNumber response.body first last (.of key)).getD 0)
        { report with
          malicious := get "malicious"
          suspicious := get "suspicious"
          undetected := get "undetected"
          harmless := get "harmless"
          engines := get "malicious" + get "suspicious" + get "undetected" + get "harmless"
            + get "timeout" + get "failure" }
    { report with
      lastAnalysis := (findNumber response.body 0 response.body.length dateName).getD 0 }

/-! ## numbers -/

section Number

theorem digitByte_isDigit (d : Fin 10) : IsDigit (digitByte d) := by
  revert d
  decide

theorem digitByte_toNat (d : Fin 10) : (digitByte d).toNat - 0x30 = d := by
  revert d
  decide

theorem digitsValue_map (ds : List (Fin 10)) : digitsValue (ds.map digitByte) = natural ds := by
  rw [digitsValue, natural, List.foldl_map]
  simp only [digitByte_toNat]

/-- The digits of a number end where its fraction or exponent begins, or what comes after it. -/
theorem takeWhile_digits (ds : List (Fin 10)) {rest : List UInt8}
    (hrest : ∀ b ∈ rest.head?, ¬IsDigit b) :
    (ds.map digitByte ++ rest).takeWhile (fun b => decide (IsDigit b)) = ds.map digitByte := by
  rw [List.takeWhile_append_of_pos]
  · cases rest with
    | nil => simp
    | cons b rest =>
      rw [List.takeWhile_cons_of_neg (by simpa using hrest b rfl), List.append_nil]
  · intro b hb
    obtain ⟨d, -, rfl⟩ := List.mem_map.mp hb
    exact decide_eq_true (digitByte_isDigit d)

/-- A number as its sign, its digits and what does not begin with a digit. -/
theorem number_text (n : Number) : ∃ more : List UInt8,
    n.text = (if n.negative then [0x2D] else []) ++ (n.whole.map digitByte ++ more) ∧
      ∀ b ∈ more.head?, ¬IsDigit b := by
  refine ⟨_, by rw [Number.text, List.append_assoc, List.append_assoc], ?_⟩
  intro b hb
  by_cases hfraction : n.fraction = []
  · rw [if_pos hfraction, List.nil_append] at hb
    cases hexponent : n.exponent with
    | none => simp [hexponent] at hb
    | some e =>
      rw [hexponent, Option.elim_some, Exponent.text] at hb
      cases hb
      split <;> decide
  · rw [if_neg hfraction] at hb
    cases hb
    decide

theorem not_isSpace {b : UInt8} (h : IsDigit b ∨ b = 0x2D) : ¬IsSpace b := by
  rintro (rfl | ⟨hlow, hhigh⟩)
  · rcases h with h | h
    · exact absurd h.1 (by decide)
    · cases h
  · rcases h with h | rfl
    · exact absurd (UInt8.le_trans h.1 hhigh) (by decide)
    · exact absurd hhigh (by decide)

/-- Where a digit is first there is no sign. -/
theorem strtoi64_digit {b : UInt8} (h : IsDigit b) (text : List UInt8) :
    strtoi64 (b :: text) =
      clamp (digitsValue ((b :: text).takeWhile fun b => decide (IsDigit b))) := by
  have hspace : ¬IsSpace b := not_isSpace (.inl h)
  rw [strtoi64, List.dropWhile_cons_of_neg (by simpa using hspace)]
  split
  next negative text' heq =>
    split at heq
    · next htext =>
      cases htext
      exact absurd h (by decide)
    · next htext =>
      cases htext
      exact absurd h (by decide)
    · cases heq
      rfl

theorem strtoi64_text (n : Number) {rest : List UInt8} (hrest : ∀ b ∈ rest.head?, ¬IsDigit b) :
    strtoi64 (n.text ++ rest) = clamp n.integer := by
  obtain ⟨more, htext, hmore⟩ := number_text n
  have hmore : ∀ b ∈ (more ++ rest).head?, ¬IsDigit b := by
    cases more with
    | nil => exact hrest
    | cons c more => exact hmore
  have htake := takeWhile_digits n.whole hmore
  obtain ⟨d, ds, hwhole⟩ := List.exists_cons_of_ne_nil n.whole_ne
  rw [htext, Number.integer]
  cases n.negative with
  -- the minus is taken off before the digits are read
  | true =>
    have hminus : strtoi64 (0x2D :: (n.whole.map digitByte ++ (more ++ rest))) =
        clamp (-digitsValue ((n.whole.map digitByte ++ (more ++ rest)).takeWhile
          fun b => decide (IsDigit b))) := rfl
    rw [htake, digitsValue_map] at hminus
    simpa using hminus
  | false =>
    have hplain : strtoi64 (n.whole.map digitByte ++ (more ++ rest)) =
        clamp (digitsValue ((n.whole.map digitByte ++ (more ++ rest)).takeWhile
          fun b => decide (IsDigit b))) := by
      rw [hwhole]
      exact strtoi64_digit (digitByte_isDigit d) _
    rw [htake, digitsValue_map] at hplain
    simpa using hplain

theorem number_head (n : Number) : ∃ b bs, n.text = b :: bs ∧ (IsDigit b ∨ b = 0x2D) := by
  obtain ⟨more, htext, -⟩ := number_text n
  rw [htext]
  cases n.negative with
  | true => exact ⟨0x2D, _, rfl, .inr rfl⟩
  | false =>
    obtain ⟨d, ds, hwhole⟩ := List.exists_cons_of_ne_nil n.whole_ne
    rw [hwhole]
    exact ⟨digitByte d, _, rfl, .inl (digitByte_isDigit d)⟩

/-- A number behind white space is read. -/
theorem numberAt_text (ws : List Space) (n : Number) {rest : List UInt8}
    (hrest : ∀ b ∈ rest.head?, ¬IsDigit b) :
    numberAt (spaces ws ++ (n.text ++ rest)) = some (clamp n.integer) := by
  obtain ⟨b, bs, htext, hb⟩ := number_head n
  have hblank : ¬(b = 0x20 ∨ b = 0x09 ∨ b = 0x0D ∨ b = 0x0A) := by
    rintro (rfl | rfl | rfl | rfl) <;> revert hb <;> decide
  have hspaces : ∀ c ∈ spaces ws,
      decide (c = 0x20 ∨ c = 0x09 ∨ c = 0x0D ∨ c = 0x0A) = true := by
    intro c hc
    obtain ⟨w, -, rfl⟩ := List.mem_map.mp hc
    cases w <;> decide
  have hnumber := strtoi64_text n hrest
  rw [numberAt, List.dropWhile_append_of_pos hspaces]
  rw [htext, List.cons_append] at hnumber ⊢
  rw [List.dropWhile_cons_of_neg (by simpa using hblank)]
  simp only [if_pos hb, hnumber]

end Number

/-! ## what the searches find -/

section Search

variable {key : Name} {before mid inner after : List Piece} {ws wc wn : List Space}
  {tail : List Space}

/-- A byte that is in no token of a run is not in its text. -/
theorem notMem_flatMap {b : UInt8} (hmarks : b ∈ marks) {mid : List Piece}
    (hmid : ∀ p ∈ mid, b ∉ p.2.text) : b ∉ mid.flatMap Piece.text := by
  intro hmem
  obtain ⟨p, hp, hb⟩ := List.mem_flatMap.mp hmem
  rcases List.mem_append.mp hb with hb | hb
  · exact spaces_notMem_marks hb hmarks
  · exact hmid p hp hb

/-- The number behind a name is found when no string before it shows the name, and no colon is
between. -/
theorem findNumber_shown (hapart : key.Apart) (hbefore : ∀ p ∈ before, ¬p.2.Shows key) {t : Token}
    (ht : t.Shows key) (hmid : ∀ p ∈ mid, (0x3A : UInt8) ∉ p.2.text) {n : Number}
    (hafter : ∀ b ∈ (text after tail).head?, ¬IsDigit b) (front : List UInt8) {last : ℕ}
    (hlast : front.length + (before.flatMap Piece.text).length +
      (Piece.text (ws, t)).length ≤ last) :
    findNumber
        (front ++ text (before ++ (ws, t) :: (mid ++ (wc, .colon) :: (wn, .number n) :: after))
          tail)
        front.length last key = some (clamp n.integer) := by
  obtain ⟨lead, hlead, hfind⟩ :=
    find_text_shown ht ws (mid ++ (wc, .colon) :: (wn, .number n) :: after) tail
  -- the text up to the name's closing quotation mark, and from there on
  have hsplit : front ++ text (before ++ (ws, t) :: (mid ++ (wc, .colon) ::
      (wn, .number n) :: after)) tail =
      (front ++ (before.flatMap Piece.text ++ (lead ++ key.quoted))) ++
        ((mid.flatMap Piece.text ++ spaces wc) ++
          ([0x3A] ++ (spaces wn ++ (n.text ++ text after tail)))) := by
    rw [← hlead]
    simp [text_append, text_cons, Token.text]
  have hlength : (front ++ (before.flatMap Piece.text ++ (lead ++ key.quoted))).length =
      lead.length + (before.flatMap Piece.text).length + front.length + key.quoted.length := by
    simp
    omega
  have hcolon : (0x3A : UInt8) ∉ mid.flatMap Piece.text ++ spaces wc := by
    rw [List.mem_append, not_or]
    exact ⟨notMem_flatMap (by decide) hmid, fun hmem => spaces_notMem_marks hmem (by decide)⟩
  have hquoted : 0 < key.quoted.length := Nat.succ_pos _
  rw [Piece.text, hlead, List.length_append] at hlast
  rw [findNumber, findFrom_append, find_text hapart hbefore, hfind, Option.map_some,
    Option.map_some]
  simp only [← hlength]
  rw [if_neg (by omega), hsplit, findFrom_append, find_append_self hcolon, Option.map_some]
  have hdrop : ∀ front mid back : List UInt8,
      (front ++ (mid ++ ([0x3A] ++ back))).drop (mid.length + front.length + 1) = back := by
    intro front mid back
    have hcut : front ++ (mid ++ ([0x3A] ++ back)) = (front ++ (mid ++ [0x3A])) ++ back := by simp
    rw [hcut, List.drop_left' (by simp; omega)]
  simp only [hdrop]
  exact numberAt_text wn n hafter

/-- No number is found when no string up to the end shows the name. -/
theorem findNumber_eq_none (hapart : key.Apart) (hbefore : ∀ p ∈ before, ¬p.2.Shows key)
    (front : List UInt8) (after : List Piece) (tail : List Space) {last : ℕ}
    (hlast : last ≤ front.length + (before.flatMap Piece.text).length) :
    findNumber (front ++ text (before ++ after) tail) front.length last key = none := by
  rw [findNumber, findFrom_append, find_text hapart hbefore, Option.map_map]
  cases find key.quoted (text after tail) with
  | none => rfl
  | some k =>
    rw [Option.map_some]
    refine if_pos ?_
    change last ≤ k + _ + _
    omega

/-- The number is found when it is in an object and no string before it in there shows the name. -/
theorem findNumber_inside (hapart : key.Apart) (hbefore : ∀ p ∈ before, ¬p.2.Shows key)
    {t : Token} (ht : t.Shows key) {n : Number} {we : List Space}
    (hafter : ∀ b ∈ (text (inner ++ (we, .closeObject) :: after) tail).head?, ¬IsDigit b)
    (front : List UInt8) :
    findNumber
        (front ++ text (([], .openObject) :: (before ++ (ws, t) :: (wc, .colon) ::
          (wn, .number n) :: inner ++ (we, .closeObject) :: after)) tail)
        front.length
        (front.length + (((before ++ (ws, t) :: (wc, .colon) :: (wn, .number n) ::
          inner).flatMap Piece.text).length + (spaces we).length + 1)) key =
      some (clamp n.integer) := by
  have hopen : ∀ p ∈ ([], .openObject) :: before, ¬Token.Shows key p.2 := by
    intro p hp
    rcases List.mem_cons.mp hp with rfl | hp
    · exact Token.not_shows_of_none rfl
    · exact hbefore p hp
  have hbetween : ∀ p ∈ ([] : List Piece), (0x3A : UInt8) ∉ p.2.text := fun _ hp =>
    absurd hp List.not_mem_nil
  have hsplit : ([], Token.openObject) :: (before ++ (ws, t) :: (wc, .colon) ::
      (wn, .number n) :: inner ++ (we, .closeObject) :: after) =
      (([], .openObject) :: before) ++ (ws, t) :: ([] ++ (wc, .colon) ::
        (wn, .number n) :: (inner ++ (we, .closeObject) :: after)) := by simp
  rw [hsplit, findNumber_shown hapart hopen ht hbetween hafter front]
  have hbrace : (Piece.text ([], .openObject)).length = 1 := rfl
  simp only [List.flatMap_append, List.flatMap_cons, List.length_append, hbrace]
  omega

/-- No number is found in an object in which no string shows the name. -/
theorem findNumber_outside (hapart : key.Apart) (hinner : ∀ p ∈ inner, ¬p.2.Shows key)
    (front : List UInt8) (we : List Space) (after : List Piece) (tail : List Space) :
    findNumber (front ++ text (([], .openObject) :: (inner ++ (we, .closeObject) :: after)) tail)
      front.length
      (front.length + ((inner.flatMap Piece.text).length + (spaces we).length + 1)) key = none := by
  have hbefore : ∀ p ∈ ([], .openObject) :: (inner ++ [(we, .closeObject)]),
      ¬Token.Shows key p.2 := by
    intro p hp
    rw [List.mem_cons, List.mem_append, List.mem_singleton] at hp
    rcases hp with rfl | hp | rfl
    · exact Token.not_shows_of_none rfl
    · exact hinner p hp
    · exact Token.not_shows_of_none rfl
  have hsplit : ([], Token.openObject) :: (inner ++ (we, .closeObject) :: after) =
      (([], .openObject) :: (inner ++ [(we, .closeObject)])) ++ after := by simp
  rw [hsplit]
  refine findNumber_eq_none hapart hbefore front after tail (Nat.add_le_add_left ?_ _)
  have hbrace : ∀ ws, (Piece.text (ws, .openObject)).length = (spaces ws).length + 1 ∧
      (Piece.text (ws, .closeObject)).length = (spaces ws).length + 1 := fun ws =>
    ⟨List.length_append, List.length_append⟩
  rw [List.flatMap_cons, List.flatMap_append, List.flatMap_singleton, List.length_append,
    List.length_append, (hbrace we).2]
  omega

/-! ### the end of an object -/

/-- The loop goes over the bytes, from one depth to another. -/
def Passes (depth depth' : ℤ) (bs : List UInt8) : Prop :=
  ∀ rest, closing depth false (bs ++ rest) = (closing depth' false rest).map (· + bs.length)

theorem Passes.append {depth depth' depth'' : ℤ} {bs bs' : List UInt8} (h : Passes depth depth' bs)
    (h' : Passes depth' depth'' bs') : Passes depth depth'' (bs ++ bs') := by
  intro rest
  rw [List.append_assoc, h, h', Option.map_map, List.length_append]
  congr 1
  funext k
  change k + _ + _ = k + (_ + _)
  omega

theorem passes_plain {bs : List UInt8} (h : ∀ b ∈ bs, b ≠ quote ∧ b ≠ 0x7B ∧ b ≠ 0x7D)
    (depth : ℤ) : Passes depth depth bs := by
  intro rest
  induction bs with
  | nil => simp
  | cons b bs ih =>
    obtain ⟨hquote, hopen, hclose⟩ := h b List.mem_cons_self
    rw [List.cons_append, closing, if_neg hquote, if_neg hopen, if_neg hclose,
      ih fun c hc => h c (List.mem_cons_of_mem b hc), Option.map_map]
    rfl

theorem closing_true_cons {b : UInt8} (h : b ≠ escapeByte) (depth : ℤ) (text : List UInt8) :
    closing depth true (b :: text) = (closing depth (b ≠ quote) text).map (· + 1) := by
  cases text <;> simp [closing, h]

theorem closing_plain {bs : List UInt8} (h : ∀ b ∈ bs, b ≠ quote ∧ b ≠ escapeByte) (depth : ℤ)
    (rest : List UInt8) :
    closing depth true (bs ++ rest) = (closing depth true rest).map (· + bs.length) := by
  induction bs with
  | nil => simp
  | cons b bs ih =>
    obtain ⟨hquote, hescape⟩ := h b List.mem_cons_self
    rw [List.cons_append, closing_true_cons hescape, decide_eq_true hquote,
      ih fun c hc => h c (List.mem_cons_of_mem b hc), Option.map_map]
    rfl

theorem closing_item (i : Item) (depth : ℤ) (rest : List UInt8) :
    closing depth true (i.text ++ rest) = (closing depth true rest).map (· + i.text.length) := by
  cases i with
  | plain b =>
    refine closing_plain (fun c hc => ?_) depth rest
    exact List.mem_singleton.mp hc ▸ b.2.2
  | escape e => rfl
  -- the `u` is skipped as escaped, the digits are plain
  | unicode a b c d =>
    have hdigits : ∀ x ∈ [a.byte, b.byte, c.byte, d.byte], x ≠ quote ∧ x ≠ escapeByte := by
      simp [HexDigit.byte_ne]
    have hskip := closing_plain hdigits depth rest
    change (closing depth true ([a.byte, b.byte, c.byte, d.byte] ++ rest)).map (· + 2) = _
    rw [hskip, Option.map_map]
    rfl

/-- A string is left where it ends. -/
theorem closing_string (s : Str) (depth : ℤ) (rest : List UInt8) :
    closing depth true (Str.text s ++ quote :: rest) =
      (closing depth false rest).map (· + ((Str.text s).length + 1)) := by
  induction s with
  | nil => exact closing_true_cons (by decide) depth rest
  | cons i s ih =>
    rw [Str.text_cons, List.append_assoc, closing_item, ih, Option.map_map, List.length_append]
    congr 1
    funext k
    change k + _ + _ = k + (_ + _ + 1)
    omega

theorem passes_token {t : Token} (hopen : t ≠ .openObject) (hclose : t ≠ .closeObject)
    (depth : ℤ) : Passes depth depth t.text := by
  cases hstring : t.string? with
  | some s =>
    intro rest
    rw [Token.text_of_string? hstring, List.cons_append, List.append_assoc]
    change (closing depth true (Str.text s ++ quote :: rest)).map (· + 1) = _
    rw [closing_string, Option.map_map]
    congr 1
    funext k
    change k + _ + 1 = k + (quote :: (Str.text s ++ [quote])).length
    rw [List.length_cons, List.length_append, List.length_singleton]
    omega
  | none =>
    refine passes_plain (fun b hb => ?_) depth
    refine ⟨fun heq => Token.quote_notMem hstring (heq ▸ hb), ?_⟩
    cases t with
    | openObject => exact absurd rfl hopen
    | closeObject => exact absurd rfl hclose
    | name s => cases hstring
    | string s => cases hstring
    | number n =>
      have hmarks := n.notMem_marks hb
      exact ⟨fun heq => hmarks (heq ▸ by decide), fun heq => hmarks (heq ▸ by decide)⟩
    | word w =>
      have hmarks := w.notMem_marks hb
      exact ⟨fun heq => hmarks (heq ▸ by decide), fun heq => hmarks (heq ▸ by decide)⟩
    | _ =>
      obtain rfl := List.mem_singleton.mp hb
      decide

theorem spaces_plain (ws : List Space) : ∀ b ∈ spaces ws, b ≠ quote ∧ b ≠ 0x7B ∧ b ≠ 0x7D := by
  intro b hb
  have hmarks := spaces_notMem_marks hb
  exact ⟨fun heq => hmarks (heq ▸ by decide), fun heq => hmarks (heq ▸ by decide),
    fun heq => hmarks (heq ▸ by decide)⟩

theorem passes_open (ws : List Space) (depth : ℤ) :
    Passes depth (depth + 1) (Piece.text (ws, .openObject)) :=
  (passes_plain (spaces_plain ws) depth).append fun _ => rfl

theorem passes_close (ws : List Space) {depth : ℤ} (h : depth - 1 ≠ 0) :
    Passes depth (depth - 1) (Piece.text (ws, .closeObject)) := by
  refine (passes_plain (spaces_plain ws) depth).append fun rest => ?_
  change (if depth - 1 = 0 then some 0 else _) = _
  rw [if_neg h]
  rfl

/-- Inside an object the loop comes back to its depth behind objects. -/
theorem passes_nested {ts : List Token} (h : Nested ts) {ps : List Piece}
    (hpieces : ps.map Prod.snd = ts) {depth : ℤ} (hdepth : 0 < depth) :
    Passes depth depth (ps.flatMap Piece.text) := by
  induction h generalizing ps depth with
  | nil =>
    rw [List.map_eq_nil_iff.mp hpieces]
    exact passes_plain (fun b hb => absurd hb List.not_mem_nil) depth
  | cons hopen hclose _ ih =>
    obtain ⟨⟨ws, t⟩, rest, rfl, rfl, hrest⟩ := List.map_eq_cons_iff.mp hpieces
    rw [List.flatMap_cons, Piece.text]
    exact ((passes_plain (spaces_plain ws) depth).append (passes_token hopen hclose depth)).append
      (ih hrest hdepth)
  | object _ _ ihinner ih =>
    obtain ⟨⟨ws, t⟩, rest, rfl, rfl, hrest⟩ := List.map_eq_cons_iff.mp hpieces
    obtain ⟨inner, rest, rfl, hinner, hrest⟩ := List.map_eq_append_iff.mp hrest
    obtain ⟨⟨we, t⟩, after, rfl, rfl, hafter⟩ := List.map_eq_cons_iff.mp hrest
    have hclose := @passes_close we (depth + 1) (by omega)
    rw [Int.add_sub_cancel] at hclose
    rw [List.flatMap_cons, List.flatMap_append, List.flatMap_cons]
    exact (passes_open ws depth).append ((ihinner hinner (by omega)).append
      (hclose.append (ih hafter hdepth)))

/-- The brace that closes an object. -/
theorem closing_object (hinner : Nested (inner.map Prod.snd)) (ws : List Space)
    (after : List Piece) (tail : List Space) :
    closing 0 false (text (([], .openObject) :: (inner ++ (ws, .closeObject) :: after)) tail) =
      some ((inner.flatMap Piece.text).length + (spaces ws).length + 1) := by
  have hend : closing 1 false (0x7D :: text after tail) = some 0 := rfl
  have hbody := passes_nested hinner rfl one_pos (text ((ws, .closeObject) :: after) tail)
  rw [text_cons, passes_plain (spaces_plain ws)] at hbody
  change (closing 1 false (text (inner ++ (ws, .closeObject) :: after) tail)).map (· + 1) = _
  rw [text_append, text_cons, hbody]
  change (((closing 1 false (0x7D :: text after tail)).map _).map _).map _ = _
  rw [hend]
  simp only [Option.map_some, Option.some.injEq]
  omega

/-- The object behind a name is found when no string before it shows the name, and no opening
brace is between. -/
theorem findObject_shown (hapart : key.Apart) (hkey : (0x7B : UInt8) ∉ key.quoted)
    (hbefore : ∀ p ∈ before, ¬p.2.Shows key) {t : Token} (ht : t.Shows key)
    (hmid : ∀ p ∈ mid, (0x7B : UInt8) ∉ p.2.text) (hinner : Nested (inner.map Prod.snd))
    (ws wn we : List Space) (after : List Piece) (tail : List Space) :
    ∃ front, text (before ++ (ws, t) :: (mid ++ (wn, .openObject) ::
          (inner ++ (we, .closeObject) :: after))) tail =
        front ++ text (([], .openObject) :: (inner ++ (we, .closeObject) :: after)) tail ∧
      findObject (text (before ++ (ws, t) :: (mid ++ (wn, .openObject) ::
          (inner ++ (we, .closeObject) :: after))) tail) key =
        some (front.length,
          front.length + ((inner.flatMap Piece.text).length + (spaces we).length + 1)) := by
  obtain ⟨lead, hlead, hfind⟩ :=
    find_text_shown ht ws (mid ++ (wn, .openObject) :: (inner ++ (we, .closeObject) :: after)) tail
  have hsplit : text (before ++ (ws, t) :: (mid ++ (wn, .openObject) ::
      (inner ++ (we, .closeObject) :: after))) tail =
      (before.flatMap Piece.text ++ lead) ++
        ((key.quoted ++ (mid.flatMap Piece.text ++ spaces wn)) ++
          ([0x7B] ++ text (inner ++ (we, .closeObject) :: after) tail)) := by
    have hname : text (before ++ (ws, t) :: (mid ++ (wn, .openObject) ::
        (inner ++ (we, .closeObject) :: after))) tail =
        before.flatMap Piece.text ++ ((spaces ws ++ t.text) ++ (mid.flatMap Piece.text ++
          (spaces wn ++ ([0x7B] ++ text (inner ++ (we, .closeObject) :: after) tail)))) := by
      simp [text_append, text_cons, Token.text]
    rw [hname, hlead]
    simp
  have hbrace : (0x7B : UInt8) ∉ key.quoted ++ (mid.flatMap Piece.text ++ spaces wn) := by
    rw [List.mem_append, List.mem_append, not_or, not_or]
    exact ⟨hkey, notMem_flatMap (by decide) hmid, fun hmem => (spaces_plain wn _ hmem).2.1 rfl⟩
  have hpos : find key.quoted (text (before ++ (ws, t) :: (mid ++ (wn, .openObject) ::
      (inner ++ (we, .closeObject) :: after))) tail) =
      some (before.flatMap Piece.text ++ lead).length := by
    rw [find_text hapart hbefore, hfind, Option.map_some, List.length_append, Nat.add_comm]
  have hclosing := closing_object hinner we after tail
  generalize before.flatMap Piece.text ++ lead = front at hsplit hpos
  generalize key.quoted ++ (mid.flatMap Piece.text ++ spaces wn) = name at hsplit hbrace
  have hopening : findFrom [0x7B] (front ++ (name ++
      ([0x7B] ++ text (inner ++ (we, .closeObject) :: after) tail))) front.length =
      some (front ++ name).length := by
    rw [findFrom_append, find_append_self hbrace, Option.map_some, Nat.add_comm,
      List.length_append]
  refine ⟨front ++ name, ?_, ?_⟩
  · rw [hsplit, List.append_assoc]
    rfl
  · rw [findObject, hpos, hsplit]
    simp only [hopening]
    rw [← List.append_assoc front name, List.drop_left]
    exact congrArg (Option.map _) hclosing

end Search

end WinSys.VirusTotal
