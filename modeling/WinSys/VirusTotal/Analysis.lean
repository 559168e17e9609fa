import WinSys.VirusTotal.Lookup

/-!
# Which analysis is reported

* `HasAnalysis`: a body with the members that are looked for
* `Reaches`, `ReachesStats`, `Readable`: where searches in its text lead, and how it spells its
  numbers
* `lookupHash_eq`: what is reported for such a body
-/

namespace WinSys.VirusTotal

open Infra Infra.Json

/-! ## bodies -/

/-- A member of the statistics. -/
structure Count where
  name : Str
  number : Number
  value : ℕ
  value_lt : value < 2 ^ 32
  number_value : number.value = value
deriving DecidableEq

def Count.member (c : Count) : Str × Value := (c.name, .number c.number)

/-- An object has a member of a name, however it is spelled. -/
def HasMember (v : Value) (name : Name) (w : Value) : Prop :=
  ∃ ms s, v = .object ms ∧ (s, w) ∈ ms ∧ name.Names s

/-- `data.attributes` has the statistics and the date, and nothing else has their names. -/
structure HasAnalysis (v : Value) (counts : List Count) (date : Number) (day : ℤ) : Prop where
  members : ∃ data attributes, HasMember v (.of "data") data ∧
    HasMember data (.of "attributes") attributes ∧
    HasMember attributes statsName (.object (counts.map Count.member)) ∧
    HasMember attributes dateName (.number date)
  counts_nodup : (counts.map fun c => Str.value c.name).Nodup
  stats_once : v.names.countP (fun s => statsName.Names s) = 1
  date_once : v.names.countP (fun s => dateName.Names s) = 1
  date_value : date.value = day

/-- The value of a member of the statistics; zero without one. -/
def countOf (counts : List Count) (key : Name) : ℕ :=
  ((counts.find? fun c => key.Names c.name).map Count.value).getD 0

/-- The report of an analysis. -/
def reportOf (error : UInt32) (counts : List Count) (day : ℤ) : VirusTotalReport where
  status := .found
  malicious := (countOf counts (.of "malicious")).toUInt32
  suspicious := (countOf counts (.of "suspicious")).toUInt32
  undetected := (countOf counts (.of "undetected")).toUInt32
  harmless := (countOf counts (.of "harmless")).toUInt32
  engines := (countOf counts (.of "malicious") + countOf counts (.of "suspicious") +
    countOf counts (.of "undetected") + countOf counts (.of "harmless") +
    countOf counts (.of "timeout") + countOf counts (.of "failure")).toUInt32
  lastAnalysis := day
  httpStatus := 200
  error := error

/-! ## readable texts -/

/-- The members of the statistics that are looked for. -/
def keys : List Name :=
  [.of "malicious", .of "suspicious", .of "undetected", .of "harmless", .of "timeout",
    .of "failure"]

/-- Searches for a name and then for a byte reach the member of the name: from the first string that
shows the name up to the member's colon no other token has the byte. -/
def Reaches (v : Value) (name : Name) (stop : UInt8) : Prop :=
  ∃ before first mid s after, v.tokens = before ++ first :: (mid ++ .colon :: after) ∧
    (∀ t ∈ before, ¬Token.Shows name t) ∧ Token.Shows name first ∧
    (first :: mid).getLast? = some (.name s) ∧ name.Names s ∧
    ∀ t ∈ mid, stop ∉ t.text

/-- The tokens of the statistics, up to the closing brace. -/
def countTokens (counts : List Count) : List Token :=
  [Token.comma].intercalate (memberTokens (counts.map Count.member))

/-- The first brace behind the first string that shows the name opens an object with the members of
the statistics in it, and a brace behind these: their own object, or one around it. What else it has
shows no key before them, nor behind them one that they lack. -/
def ReachesStats (v : Value) (counts : List Count) : Prop :=
  ∃ before first mid members left right after,
    v.tokens = before ++ first :: (mid ++ ((Value.object members).tokens ++ after)) ∧
    (∀ t ∈ before, ¬Token.Shows statsName t) ∧ Token.Shows statsName first ∧
    (∀ t ∈ mid, 0x7B ∉ t.text) ∧
    [Token.comma].intercalate (memberTokens members) = left ++ (countTokens counts ++ right) ∧
    (∀ t ∈ right.head?, t = .closeObject) ∧
    ∀ key ∈ keys, (∀ t ∈ left, ¬Token.Shows key t) ∧
      ((∀ c ∈ counts, ¬key.Names c.name) → ∀ t ∈ right, ¬Token.Shows key t)

/-- The searches reach the members they are for, and numbers are their digits. -/
structure Readable (v : Value) (counts : List Count) (date : Number) (day : ℤ) : Prop where
  stats_reached : ReachesStats v counts
  date_reached : Reaches v dateName 0x3A
  date_integer : date.integer = day
  date_bound : -2 ^ 63 ≤ day ∧ day < 2 ^ 63
  shown : ∀ key ∈ keys,
    counts.find? (fun c => key.ShownBy c.name) = counts.find? (fun c => key.Names c.name)
  integers : ∀ key ∈ keys, ∀ c ∈ counts, key.Names c.name → c.number.integer = c.value

/-! ## where a member is -/

/-- What a list has once is in one place. -/
theorem append_cons_unique {α : Type*} {p : α → Bool} {a b c d : List α} {x y : α}
    (h : a ++ x :: b = c ++ y :: d) (hx : p x = true) (hy : p y = true)
    (honce : (a ++ x :: b).countP p = 1) : a = c ∧ x = y ∧ b = d := by
  have hnone : ∀ {a b : List α} {x : α}, p x = true → (a ++ x :: b).countP p = 1 →
      (a ++ x :: b).takeWhile (fun z => !p z) = a := by
    intro a b x hx honce
    rw [List.countP_append, List.countP_cons_of_pos hx] at honce
    have hzero : a.countP p = 0 := by omega
    rw [List.takeWhile_append_of_pos fun z hz => by simpa using List.countP_eq_zero.mp hzero z hz,
      List.takeWhile_cons_of_neg (by simp [hx]), List.append_nil]
  have ha := hnone hx honce
  rw [h] at honce
  have hc := hnone hy honce
  rw [h, hc] at ha
  subst ha
  simpa using h

/-- A member's tokens are in its object's. -/
theorem infix_of_hasMember {u w : Value} {name : Name} (h : HasMember u name w) :
    w.tokens <:+: u.tokens := by
  obtain ⟨ms, s, rfl, hmem, -⟩ := h
  obtain ⟨before, after, t, htokens, -⟩ := tokens_object_of_mem hmem
  refine ⟨before ++ [.name s, .colon], t :: after, ?_⟩
  rw [htokens]
  simp

theorem countP_name {v : Value} (name : Name) :
    v.tokens.countP (fun t => (t.name?.map fun s => decide (name.Names s)).getD false) =
      v.names.countP fun s => name.Names s := by
  rw [← Value.filterMap_name?_tokens, List.countP_filterMap]

/-- What is reached is the one member of the name. -/
theorem tokens_of_reaches {v u w : Value} {name : Name} {stop : UInt8}
    (hmember : HasMember u name w) (hwithin : u.tokens <:+: v.tokens)
    (hreaches : Reaches v name stop) (honce : v.names.countP (fun s => name.Names s) = 1) :
    ∃ before first mid t after, v.tokens =
        before ++ first :: (mid ++ .colon :: (w.tokens ++ t :: after)) ∧
      (∀ x ∈ before, ¬Token.Shows name x) ∧ Token.Shows name first ∧
      (∀ x ∈ mid, stop ∉ x.text) ∧ (t = .comma ∨ t = .closeObject) := by
  obtain ⟨ms, s, rfl, hmem, hname⟩ := hmember
  obtain ⟨before, after, t, htokens, ht⟩ := tokens_object_of_mem hmem
  obtain ⟨left, right, hv⟩ := hwithin
  obtain ⟨front, first, mid, s', rest, hsplit, hnone, hshows, hlast, hname', hmid⟩ := hreaches
  obtain ⟨init, hinit⟩ := List.getLast?_eq_some_iff.mp hlast
  have hmine : v.tokens = (left ++ before) ++
      .name s :: (.colon :: (w.tokens ++ t :: (after ++ right))) := by
    rw [← hv, htokens]
    simp
  have htheirs : v.tokens = (front ++ init) ++ .name s' :: (.colon :: rest) := by
    rw [hsplit, ← List.cons_append, hinit]
    simp
  rw [← countP_name, hmine] at honce
  -- only one member is named so
  obtain ⟨-, -, hrest⟩ := append_cons_unique (hmine.symm.trans htheirs)
    (by simpa [Token.name?] using hname) (by simpa [Token.name?] using hname') honce
  refine ⟨front, first, mid, t, after ++ right, ?_, hnone, hshows, hmid, ht⟩
  rw [hsplit, ← List.tail_eq_of_cons_eq hrest]

/-! ## the pieces of a text -/

section Pieces

variable {name key : Name} {ps : List Piece} {tail : List Space}

theorem pieces_cons {t : Token} {ts : List Token} (h : ps.map Prod.snd = t :: ts) :
    ∃ ws rest, ps = (ws, t) :: rest ∧ rest.map Prod.snd = ts := by
  obtain ⟨⟨ws, t'⟩, rest, rfl, rfl, hrest⟩ := List.map_eq_cons_iff.mp h
  exact ⟨ws, rest, rfl, hrest⟩

theorem head_not_digit {t : Token} (ht : t = .comma ∨ t = .closeObject) {after : List Token}
    (h : ps.map Prod.snd = t :: after) : ∀ b ∈ (text ps tail).head?, ¬IsDigit b := by
  obtain ⟨ws, rest, rfl, -⟩ := pieces_cons h
  intro b hb
  rw [text_cons] at hb
  cases ws with
  | nil =>
    obtain rfl | rfl := ht <;>
    · cases hb
      decide
  | cons w ws =>
    cases hb
    cases w <;> decide

theorem not_shows {before : List Token} {pieces : List Piece}
    (h : ∀ x ∈ before, ¬Token.Shows name x) (hpieces : pieces.map Prod.snd = before) :
    ∀ p ∈ pieces, ¬p.2.Shows name := by
  intro p hp
  exact h p.2 (hpieces ▸ List.mem_map_of_mem hp)

end Pieces

/-! ## what is read -/

section Reading

variable {counts : List Count} {key : Name}

theorem memberTokens_count (counts : List Count) :
    memberTokens (counts.map Count.member) =
      counts.map fun c => [.name c.name, .colon, .number c.number] := by
  rw [memberTokens_eq, List.map_map]
  rfl

/-- The tokens of one member. -/
theorem mem_memberTokens {ts : List Token} {x : Token}
    (hts : ts ∈ memberTokens (counts.map Count.member)) (hx : x ∈ ts) :
    ∃ c ∈ counts, x = .name c.name ∨ x = .colon ∨ x = .number c.number := by
  rw [memberTokens_count] at hts
  obtain ⟨c, hc, rfl⟩ := List.mem_map.mp hts
  exact ⟨c, hc, by simpa using hx⟩

theorem mem_countTokens {x : Token} (h : x ∈ countTokens counts) :
    x = .comma ∨ ∃ c ∈ counts, x = .name c.name ∨ x = .colon ∨ x = .number c.number := by
  unfold countTokens at h
  have hsub := fun (ts : List Token) (hts : ts ∈ memberTokens (counts.map Count.member)) =>
    mem_memberTokens (x := x) hts
  generalize memberTokens (counts.map Count.member) = tss at h hsub
  cases tss with
  | nil => cases h
  | cons ts tss =>
    rw [intercalate_cons, List.mem_append, List.mem_flatMap] at h
    rcases h with hx | ⟨ts', hts', hx⟩
    · exact .inr (hsub ts List.mem_cons_self hx)
    · rcases List.mem_append.mp hx with hx | hx
      · exact .inl (List.mem_singleton.mp hx)
      · exact .inr (hsub ts' (List.mem_cons_of_mem _ hts') hx)

theorem not_shows_count {x : Token} (h : ∀ c ∈ counts, ¬key.ShownBy c.name)
    (hx : ∃ c ∈ counts, x = .name c.name ∨ x = .colon ∨ x = .number c.number) :
    ¬Token.Shows key x := by
  rintro ⟨s, hs, hshown⟩
  obtain ⟨c, hc, rfl | rfl | rfl⟩ := hx <;> cases hs
  exact h c hc hshown

theorem not_shows_counts (h : ∀ c ∈ counts, ¬key.ShownBy c.name) :
    ∀ x ∈ countTokens counts, ¬Token.Shows key x := by
  intro x hx
  obtain rfl | hc := mem_countTokens hx
  · exact Token.not_shows_of_none rfl
  · exact not_shows_count h hc

theorem not_shows_before (h : ∀ c ∈ counts, ¬key.ShownBy c.name) :
    ∀ x ∈ (memberTokens (counts.map Count.member)).flatMap (· ++ [.comma]),
      ¬Token.Shows key x := by
  intro x hx
  obtain ⟨ts, hts, hx⟩ := List.mem_flatMap.mp hx
  rcases List.mem_append.mp hx with hx | hx
  · exact not_shows_count h (mem_memberTokens hts hx)
  · exact List.mem_singleton.mp hx ▸ Token.not_shows_of_none rfl

theorem countTokens_append_cons (before : List Count) (c : Count) (after : List Count) :
    countTokens (before ++ c :: after) =
      ((memberTokens (before.map Count.member)).flatMap (· ++ [.comma])) ++
        .name c.name :: .colon :: .number c.number ::
          ((memberTokens (after.map Count.member)).flatMap ([.comma] ++ ·)) := by
  rw [countTokens, List.map_append, List.map_cons, memberTokens_eq, List.map_append,
    List.map_cons, intercalate_append_cons, ← memberTokens_eq, ← memberTokens_eq]
  simp [Count.member, Value.tokens]

theorem clamp_of_bounds {n : ℤ} (h : -2 ^ 63 ≤ n ∧ n < 2 ^ 63) : clamp n = n := by
  unfold clamp
  omega

/-- The number read for a key of the statistics. -/
theorem findNumber_count (hapart : key.Apart) {left inner right after : List Piece}
    {we tail : List Space} (hleft : ∀ p ∈ left, ¬p.2.Shows key)
    (hinner : inner.map Prod.snd = countTokens counts)
    (hright : (∀ c ∈ counts, ¬key.Names c.name) → ∀ p ∈ right, ¬p.2.Shows key)
    (hend : ∀ p ∈ right.head?, p.2 = .closeObject)
    (hshown : (counts.find? fun c => key.ShownBy c.name) =
      counts.find? fun c => key.Names c.name)
    (hintegers : ∀ c ∈ counts, key.Names c.name → c.number.integer = c.value)
    (front : List UInt8) :
    (findNumber
      (front ++ text (([], .openObject) :: (left ++ (inner ++ right) ++
        (we, .closeObject) :: after)) tail)
      front.length
      (front.length + (((left ++ (inner ++ right)).flatMap Piece.text).length +
        (spaces we).length + 1)) key).getD 0 =
      countOf counts key := by
  cases hfind : counts.find? fun c => key.ShownBy c.name with
  -- what is found, if anything, is behind the closing brace
  | none =>
    have hnone : ∀ c ∈ counts, ¬key.ShownBy c.name := by
      simpa using List.find?_eq_none.mp hfind
    have hunnamed : ∀ c ∈ counts, ¬key.Names c.name := by
      simpa using List.find?_eq_none.mp (hshown.symm.trans hfind)
    have hinside : ∀ p ∈ left ++ (inner ++ right), ¬Token.Shows key p.2 := by
      intro p hp
      rw [List.mem_append, List.mem_append] at hp
      rcases hp with hp | hp | hp
      · exact hleft p hp
      · exact not_shows (not_shows_counts hnone) hinner p hp
      · exact hright hunnamed p hp
    rw [findNumber_outside hapart hinside, countOf, ← hshown, hfind]
    rfl
  -- the first member shown is the one named
  | some c =>
    rw [hfind] at hshown
    obtain ⟨hshows, before, rest, hcounts, hnone⟩ := List.find?_eq_some_iff_append.mp hfind
    have hnames : key.Names c.name := by simpa using List.find?_some hshown.symm
    have hcount : countOf counts key = c.value := by
      rw [countOf, ← hshown]
      rfl
    have hinteger := hintegers c (hcounts ▸ List.mem_append_right _ List.mem_cons_self) hnames
    rw [hcounts, countTokens_append_cons] at hinner
    obtain ⟨first, others, rfl, hfirst, hothers⟩ := List.map_eq_append_iff.mp hinner
    obtain ⟨ws, others, rfl, hcolon⟩ := pieces_cons hothers
    obtain ⟨wc, others, rfl, hnumber⟩ := pieces_cons hcolon
    obtain ⟨wn, others, rfl, hrest⟩ := pieces_cons hnumber
    have hbefore : ∀ p ∈ left ++ first, ¬Token.Shows key p.2 := by
      intro p hp
      rcases List.mem_append.mp hp with hp | hp
      · exact hleft p hp
      · exact not_shows (not_shows_before (by simpa using hnone)) hfirst p hp
    have hname : Token.Shows key (.name c.name) := ⟨c.name, rfl, by simpa using hshows⟩
    have hafter : ∀ b ∈ (text (others ++ right ++ (we, .closeObject) :: after) tail).head?,
        ¬IsDigit b := by
      cases rest with
      | nil =>
        obtain rfl := List.map_eq_nil_iff.mp hrest
        cases right with
        | nil => exact head_not_digit (.inr rfl) rfl
        | cons p right => exact head_not_digit (.inr (hend p rfl)) rfl
      | cons c' rest =>
        rw [List.map_cons, memberTokens, List.flatMap_cons] at hrest
        obtain ⟨wt, others, rfl, -⟩ := pieces_cons hrest
        exact head_not_digit (.inl rfl) rfl
    have hsplit : left ++ (first ++ (ws, .name c.name) :: (wc, .colon) ::
        (wn, .number c.number) :: others ++ right) = (left ++ first) ++ (ws, .name c.name) ::
          (wc, .colon) :: (wn, .number c.number) :: (others ++ right) := by simp
    rw [hsplit, findNumber_inside hapart hbefore hname hafter front, hcount, hinteger]
    have hvalue := c.value_lt
    exact clamp_of_bounds ⟨by omega, by omega⟩

end Reading

/-! ## the report -/

theorem toUInt32_natCast {n : ℕ} (h : n < 2 ^ 32) : toUInt32 n = n.toUInt32 := by
  rw [toUInt32, Int.emod_eq_of_lt (by omega) (by omega)]
  rfl

theorem countOf_lt (counts : List Count) (key : Name) : countOf counts key < 2 ^ 32 := by
  unfold countOf
  cases counts.find? fun c => key.Names c.name with
  | none => decide
  | some c => exact c.value_lt

theorem statsName_apart : statsName.Apart := by decide

theorem statsName_plain : (0x7B : UInt8) ∉ statsName.quoted := by decide

theorem dateName_apart : dateName.Apart := by decide

theorem keys_apart : ∀ key ∈ keys, key.Apart := by decide

section Report

variable {v u : Value} {counts : List Count} {date : Number} {day : ℤ}

/-- The first place that shows the name is the member's. -/
theorem reachesStats_of_reaches (hmember : HasMember u statsName (.object (counts.map Count.member)))
    (hwithin : u.tokens <:+: v.tokens) (hreaches : Reaches v statsName 0x7B)
    (honce : v.names.countP (fun s => statsName.Names s) = 1) : ReachesStats v counts := by
  obtain ⟨before, first, mid, x, after, htokens, hbefore, hshows, hmid, -⟩ :=
    tokens_of_reaches hmember hwithin hreaches honce
  refine ⟨before, first, mid ++ [.colon], counts.map Count.member, [], [], x :: after, ?_, hbefore,
    hshows, ?_, (List.append_nil _).symm, fun _ ht => absurd ht (Option.not_mem_none _), ?_⟩
  · rw [htokens]
    simp
  · intro t ht
    rcases List.mem_append.mp ht with ht | ht
    · exact hmid t ht
    · rw [List.mem_singleton.mp ht]
      decide
  · intro key _
    exact ⟨fun _ ht => absurd ht List.not_mem_nil, fun _ _ ht => absurd ht List.not_mem_nil⟩

/-- The object that is found has the statistics in it. -/
theorem findObject_stats (t : TextOf v) (hreaches : ReachesStats v counts) :
    ∃ (front : List UInt8) (left inner right : List Piece) (we : List Space) (after : List Piece),
      t.bytes = front ++ text (([], .openObject) :: (left ++ (inner ++ right) ++
        (we, .closeObject) :: after)) t.tail ∧
      inner.map Prod.snd = countTokens counts ∧ (∀ p ∈ right.head?, p.2 = .closeObject) ∧
      (∀ key ∈ keys, (∀ p ∈ left, ¬p.2.Shows key) ∧
        ((∀ c ∈ counts, ¬key.Names c.name) → ∀ p ∈ right, ¬p.2.Shows key)) ∧
      findObject t.bytes statsName = some (front.length, front.length +
        (((left ++ (inner ++ right)).flatMap Piece.text).length + (spaces we).length + 1)) := by
  obtain ⟨before, first, mid, members, left, right, after, htokens, hbefore, hshows, hmid, hinside,
    hend, hkeys⟩ := hreaches
  obtain ⟨pieces, tail, hpieces⟩ := t
  have hsplit : v.tokens = before ++ first :: (mid ++ .openObject ::
      (left ++ (countTokens counts ++ right) ++ .closeObject :: after)) := by
    rw [htokens, Value.tokens, hinside]
    simp
  have hnested := nested_intercalate (memberTokens_nested members)
  rw [hinside] at hnested
  rw [hsplit] at hpieces
  obtain ⟨front, rest, rfl, hfront, hrest⟩ := List.map_eq_append_iff.mp hpieces
  obtain ⟨ws, rest, rfl, hbehind⟩ := pieces_cons hrest
  obtain ⟨between, rest, rfl, hbetween, hobject⟩ := List.map_eq_append_iff.mp hbehind
  obtain ⟨wn, rest, rfl, hvalue⟩ := pieces_cons hobject
  obtain ⟨inside, rest, rfl, hinside, hclose⟩ := List.map_eq_append_iff.mp hvalue
  obtain ⟨we, rest, rfl, -⟩ := pieces_cons hclose
  have hbrace : ∀ p ∈ between, (0x7B : UInt8) ∉ p.2.text := by
    intro p hp
    have hmem : p.2 ∈ between.map Prod.snd := List.mem_map_of_mem hp
    rw [hbetween] at hmem
    exact hmid _ hmem
  rw [← hinside] at hnested
  obtain ⟨opening, hbytes, hfind⟩ := findObject_shown statsName_apart statsName_plain
    (not_shows hbefore hfront) hshows hbrace hnested ws wn we rest tail
  -- what is inside, in pieces
  obtain ⟨left', inside, rfl, hleft, hinside⟩ := List.map_eq_append_iff.mp hinside
  obtain ⟨inner, right', rfl, hinner, hright⟩ := List.map_eq_append_iff.mp hinside
  refine ⟨opening, left', inner, right', we, rest, hbytes, hinner, ?_, ?_, hfind⟩
  · intro p hp
    refine hend p.2 ?_
    rw [← hright, List.head?_map]
    exact Option.mem_map_of_mem Prod.snd hp
  · intro key hkey
    obtain ⟨hbefore, hbehind⟩ := hkeys key hkey
    exact ⟨not_shows hbefore hleft, fun hnone => not_shows (hbehind hnone) hright⟩

/-- The date is found where it is. -/
theorem findNumber_date (t : TextOf v) (hmember : HasMember u dateName (.number date))
    (hwithin : u.tokens <:+: v.tokens) (hreaches : Reaches v dateName 0x3A)
    (honce : v.names.countP (fun s => dateName.Names s) = 1) :
    findNumber t.bytes 0 t.bytes.length dateName = some (clamp date.integer) := by
  obtain ⟨before, first, mid, x, after, htokens, hbefore, hshows, hmid, hx⟩ :=
    tokens_of_reaches hmember hwithin hreaches honce
  obtain ⟨pieces, tail, hpieces⟩ := t
  rw [htokens] at hpieces
  obtain ⟨left, right, rfl, hleft, hright⟩ := List.map_eq_append_iff.mp hpieces
  obtain ⟨ws, right, rfl, hbehind⟩ := pieces_cons hright
  obtain ⟨between, right, rfl, hbetween, hmember⟩ := List.map_eq_append_iff.mp hbehind
  obtain ⟨wc, right, rfl, hnumber⟩ := pieces_cons hmember
  obtain ⟨wn, right, rfl, hrest⟩ := pieces_cons hnumber
  have hcolon : ∀ p ∈ between, (0x3A : UInt8) ∉ p.2.text := by
    intro p hp
    have hmem : p.2 ∈ between.map Prod.snd := List.mem_map_of_mem hp
    rw [hbetween] at hmem
    exact hmid _ hmem
  refine findNumber_shown dateName_apart (not_shows hbefore hleft) hshows hcolon
    (head_not_digit hx hrest) [] ?_
  rw [TextOf.bytes, text_append, List.length_append, text, List.flatMap_cons, List.length_append,
    List.length_append, List.length_nil]
  omega

end Report

/-- **What is reported is the analysis, when the body's text can be read so.** -/
theorem lookupHash_eq {v : Value} {counts : List Count} {date : Number} {day : ℤ}
    (h : HasAnalysis v counts date day) (hreadable : Readable v counts date day) (t : TextOf v)
    (error : UInt32) :
    lookupHash { status := 200, error := error, body := t.bytes } = reportOf error counts day := by
  obtain ⟨data, attributes, hdata, hattributes, -, hdate⟩ := h.members
  have hwithin := (infix_of_hasMember hattributes).trans (infix_of_hasMember hdata)
  obtain ⟨front, left, inner, right, we, after, hbytes, hinner, hend, hapart, hobject⟩ :=
    findObject_stats t hreadable.stats_reached
  have hday : findNumber t.bytes 0 t.bytes.length dateName = some day := by
    rw [findNumber_date t hdate hwithin hreadable.date_reached h.date_once, hreadable.date_integer,
      clamp_of_bounds hreadable.date_bound]
  have hread : ∀ key ∈ keys, toUInt32 ((findNumber t.bytes front.length
      (front.length + (((left ++ (inner ++ right)).flatMap Piece.text).length +
        (spaces we).length + 1)) key).getD 0) =
      (countOf counts key).toUInt32 := by
    intro key hkey
    obtain ⟨hleft, hright⟩ := hapart key hkey
    rw [hbytes, findNumber_count (keys_apart key hkey) hleft hinner hright hend
      (hreadable.shown key hkey) (hreadable.integers key hkey),
      toUInt32_natCast (countOf_lt counts key)]
  have hmalicious := hread (.of "malicious") (by decide)
  have hsuspicious := hread (.of "suspicious") (by decide)
  have hundetected := hread (.of "undetected") (by decide)
  have hharmless := hread (.of "harmless") (by decide)
  have htimeout := hread (.of "timeout") (by decide)
  have hfailure := hread (.of "failure") (by decide)
  have hfound : (fromResponse { status := 200, error := error, body := t.bytes }).status =
      .found := rfl
  unfold lookupHash
  simp only [hfound, ne_eq, not_true_eq_false, if_false, hobject, hday, hmalicious, hsuspicious,
    hundetected, hharmless, htimeout, hfailure]
  simp [reportOf, fromResponse, UInt32.ofNat_add]

/-! ## two bodies -/

/-- A name is reached that is first shown as the member's, without escapes. -/
theorem reaches_of_first {v : Value} {name : Name} {stop : UInt8} (n : ℕ)
    (hv : v.tokens =
      v.tokens.take n ++ .name name.spelled :: .colon :: v.tokens.drop (n + 2))
    (hbefore : ∀ t ∈ v.tokens.take n, ¬Token.Shows name t) : Reaches v name stop :=
  ⟨_, .name name.spelled, [], name.spelled, _, hv, hbefore, ⟨name.spelled, rfl, .inl rfl⟩, rfl,
    rfl, fun _ ht => absurd ht List.not_mem_nil⟩

namespace Example

def malicious : Count where
  name := (Name.of "malicious").spelled
  number := .ofDigit 3
  value := 3
  value_lt := by decide
  number_value := (Number.value_of_whole rfl rfl).trans (by decide)

def timeout : Count where
  name := (Name.of "timeout").spelled
  number := .ofDigit 2
  value := 2
  value_lt := by decide
  number_value := (Number.value_of_whole rfl rfl).trans (by decide)

def date : Number := .ofDigit 5

def body (names : List String) : Value :=
  .object [((Name.of "data").spelled, .object [((Name.of "attributes").spelled, .object
    [((Name.of "names").spelled, .array (names.map fun s => .string (Name.of s).spelled)),
      (statsName.spelled, .object ([malicious, timeout].map Count.member)),
      (dateName.spelled, .number date)])])]

theorem hasAnalysis (names : List String) (hstats : (body names).names.countP
    (fun s => statsName.Names s) = 1) (hdate : (body names).names.countP
    (fun s => dateName.Names s) = 1) : HasAnalysis (body names) [malicious, timeout] date 5 where
  members := ⟨_, _, ⟨_, _, rfl, List.mem_singleton_self _, rfl⟩,
    ⟨_, _, rfl, List.mem_singleton_self _, rfl⟩, ⟨_, _, rfl, by simp, rfl⟩,
    ⟨_, _, rfl, by simp, rfl⟩⟩
  counts_nodup := by decide
  stats_once := hstats
  date_once := hdate
  date_value := (Number.value_of_whole rfl rfl).trans (by decide)

theorem readable : Readable (body ["a.exe"]) [malicious, timeout] date 5 where
  stats_reached := by
    obtain ⟨data, attributes, hdata, hattributes, hstats, -⟩ :=
      (hasAnalysis ["a.exe"] (by decide) (by decide)).members
    exact reachesStats_of_reaches hstats
      ((infix_of_hasMember hattributes).trans (infix_of_hasMember hdata))
      (reaches_of_first 13 (by decide) (by decide)) (by decide)
  date_reached := reaches_of_first 25 (by decide) (by decide)
  date_integer := by decide
  date_bound := by decide
  shown := by decide
  integers := by decide

end Example

theorem lookupHash_eq_example :
    lookupHash { status := 200, body := (Example.body ["a.exe"]).compact.bytes } =
      reportOf 0 [Example.malicious, Example.timeout] 5 :=
  lookupHash_eq (Example.hasAnalysis _ (by decide) (by decide)) Example.readable _ 0

/-- A file has been called as the statistics are. -/
def Example.renamed : Value := Example.body ["last_analysis_stats", "\x7b\x7d"]

theorem lookupHash_renamed :
    HasAnalysis Example.renamed [Example.malicious, Example.timeout] Example.date 5 ∧
      (lookupHash { status := 200, body := Example.renamed.compact.bytes }).malicious = 0 ∧
      (reportOf 0 [Example.malicious, Example.timeout] 5).malicious = 3 :=
  ⟨Example.hasAnalysis _ (by decide) (by decide), by decide +kernel, by decide⟩

end WinSys.VirusTotal
