import WinSys.Wsl.Script

/-!
# Numbers, fields and stat lines

What is printed is what is read: `toNumber` of a decimal number, `split` of fields, `parseStat` of
a stat line whose name has no line end.
-/

namespace WinSys.Wsl

open Infra

/-! ## numbers -/

theorem mem_decimalText {n : ℕ} {ch : UInt8} (h : ch ∈ decimalText n) :
    ∃ d < 10, ch = (digit d).toUInt8 := by
  obtain ⟨c, hc, rfl⟩ := List.mem_map.mp h
  obtain ⟨d, hd, rfl⟩ := mem_decimal hc
  exact ⟨d, hd, rfl⟩

theorem isDigit_of_mem_decimalText {n : ℕ} {ch : UInt8} (h : ch ∈ decimalText n) :
    isDigit ch = true := by
  have hall : ∀ d < 10, isDigit (digit d).toUInt8 = true := by decide
  obtain ⟨d, hd, rfl⟩ := mem_decimalText h
  exact hall d hd

theorem decimalText_ne_nil (n : ℕ) : decimalText n ≠ [] := by
  intro h
  have hdecimal : decimal n = [] := List.map_eq_nil_iff.mp h
  unfold decimal at hdecimal
  split at hdecimal
  · cases hdecimal
  · next hn =>
    rw [List.map_eq_nil_iff, List.reverse_eq_nil_iff, Nat.digits_eq_nil_iff_eq_zero] at hdecimal
    exact hn hdecimal

/-- Reading digits one by one, in numbers that wrap and in numbers that do not. -/
theorem foldl_digits (ds : List ℕ) (h : ∀ d ∈ ds, d < 10) (value : ℕ) :
    (ds.map fun d => (digit d).toUInt8).foldl
        (fun value ch => value * 10 + (ch - 48).toUInt64) value.toUInt64
      = (ds.foldl (fun value d => value * 10 + d) value).toUInt64 := by
  have hdigit : ∀ d < 10, ((digit d).toUInt8 - 48).toUInt64 = d.toUInt64 := by decide
  induction ds generalizing value with
  | nil => rfl
  | cons d ds ih =>
    have hstep : value.toUInt64 * 10 + d.toUInt64 = (value * 10 + d).toUInt64 := by
      simp [Nat.toUInt64_eq]
    rw [List.map_cons, List.foldl_cons, List.foldl_cons, hdigit d (h d List.mem_cons_self), hstep,
      ih fun e he => h e (List.mem_cons_of_mem d he)]

/-- A decimal number is read back, whatever but a digit follows it. -/
theorem toNumber_decimalText (n : UInt64) {rest : Bytes} (h : ∀ ch ∈ rest.head?, isDigit ch = false) :
    toNumber (decimalText n.toNat ++ rest) = n := by
  have htake : (decimalText n.toNat ++ rest).takeWhile isDigit = decimalText n.toNat := by
    rw [List.takeWhile_append_of_pos fun ch hch => isDigit_of_mem_decimalText hch]
    cases rest with
    | nil => simp
    | cons ch rest => simp [h ch rfl]
  have hnumber : ∀ n : ℕ, (decimalText n).foldl
      (fun value ch => value * 10 + (ch - 48).toUInt64) 0 = n.toUInt64 := by
    intro n
    unfold decimalText decimal
    split
    · next hn =>
      rw [hn]
      decide
    · rw [List.map_map]
      have hfold := foldl_digits (Nat.digits 10 n).reverse (fun d hd =>
        Nat.digits_lt_base (by omega) (List.mem_reverse.mp hd)) 0
      have hvalue : (Nat.digits 10 n).reverse.foldl (fun value d => value * 10 + d) 0 = n := by
        rw [List.foldl_reverse]
        have hofDigits := Nat.ofDigits_digits 10 n
        rw [Nat.ofDigits_eq_foldr] at hofDigits
        refine Eq.trans ?_ hofDigits
        congr 1
        funext d value
        simp only [Nat.cast_id]
        ring
      rw [hvalue] at hfold
      exact hfold
  rw [toNumber, htake, hnumber]
  exact UInt64.ofNat_toNat

theorem toNumber_decimalText32 (n : UInt32) {rest : Bytes}
    (h : ∀ ch ∈ rest.head?, isDigit ch = false) :
    (toNumber (decimalText n.toNat ++ rest)).toUInt32 = n := by
  have hwide : n.toNat = n.toUInt64.toNat := by simp
  rw [hwide, toNumber_decimalText n.toUInt64 h]
  simp

/-! ## fields -/

/-- A field has no blanks and is not empty. -/
def IsField (f : Bytes) : Prop := f ≠ [] ∧ ∀ ch ∈ f, isBlank ch = false

theorem split_blank {b : UInt8} (hb : isBlank b = true) (text : Bytes) :
    split (b :: text) = split text := by
  rw [split, split]
  have happend := List.splitOnP_append_cons (p := isBlank) [] text hb
  rw [List.nil_append] at happend
  rw [happend, List.splitOnP_nil]
  rfl

theorem split_field {f : Bytes} (h : IsField f) : split f = [f] := by
  rw [split, List.splitOnP_eq_singleton h.2, List.filter_cons_of_pos (by simpa using h.1)]
  rfl

theorem split_field_blank {f : Bytes} (h : IsField f) {b : UInt8} (hb : isBlank b = true)
    (text : Bytes) : split (f ++ b :: text) = f :: split text := by
  rw [split, split, List.splitOnP_append_cons f text hb, List.splitOnP_eq_singleton h.2,
    List.filter_append, List.filter_cons_of_pos (by simpa using h.1)]
  rfl

theorem split_blanks {blanks : Bytes} (h : ∀ b ∈ blanks, isBlank b = true) (text : Bytes) :
    split (blanks ++ text) = split text := by
  induction blanks with
  | nil => rfl
  | cons b blanks ih =>
    rw [List.cons_append, split_blank (h b List.mem_cons_self),
      ih fun c hc => h c (List.mem_cons_of_mem b hc)]

/-- Fields with a blank before each. -/
theorem split_fields {b : UInt8} (hb : isBlank b = true) {fs : List Bytes}
    (h : ∀ f ∈ fs, IsField f) : split (fs.flatMap (b :: ·)) = fs := by
  induction fs with
  | nil => rfl
  | cons f fs ih =>
    have hf := h f List.mem_cons_self
    have hfs := ih fun g hg => h g (List.mem_cons_of_mem f hg)
    rw [List.flatMap_cons, List.cons_append, split_blank hb]
    cases fs with
    | nil => simpa using split_field hf
    | cons g gs =>
      rw [List.flatMap_cons, List.cons_append, split_blank hb] at hfs
      rw [List.flatMap_cons, List.cons_append, split_field_blank hf hb, hfs]

/-! ## a stat line -/

theorem isNumeric_of_mem_decimalText {n : ℕ} {ch : UInt8} (h : ch ∈ decimalText n) :
    isNumeric ch = true := by
  rw [isNumeric, isDigit_of_mem_decimalText h]
  rfl

/-- A character of a stat file's fields. -/
def isStatChar (ch : UInt8) : Bool := isNumeric ch || isLetter ch

theorem isStatChar_ne {ch : UInt8} (h : isStatChar ch = true) :
    ch ≠ 41 ∧ ch ≠ newline ∧ ch ≠ carriageReturn ∧ isBlank ch = false := by
  have hall : ∀ n < 256, isStatChar (UInt8.ofNat n) = true →
      UInt8.ofNat n ≠ 41 ∧ UInt8.ofNat n ≠ newline ∧ UInt8.ofNat n ≠ carriageReturn
        ∧ isBlank (UInt8.ofNat n) = false := by decide +kernel
  have hch := hall ch.toNat ch.toNat_lt
  rw [UInt8.ofNat_toNat] at hch
  exact hch h

namespace Stat

variable (s : Stat)

theorem isStatChar_of_mem_fields {f : Bytes} (hf : f ∈ s.fields) :
    f ≠ [] ∧ ∀ ch ∈ f, isStatChar ch = true := by
  have hfield : ∀ f : Field, f.val ≠ [] ∧ ∀ ch ∈ f.val, isStatChar ch = true := fun f =>
    ⟨f.property.1, fun ch hch => by rw [isStatChar, f.property.2 ch hch]; rfl⟩
  have hnumber : ∀ n, decimalText n ≠ [] ∧ ∀ ch ∈ decimalText n, isStatChar ch = true := fun n =>
    ⟨decimalText_ne_nil n, fun ch hch => by rw [isStatChar, isNumeric_of_mem_decimalText hch]; rfl⟩
  have hstate : [s.state.val] ≠ [] ∧ ∀ ch ∈ [s.state.val], isStatChar ch = true := by
    refine ⟨by simp, fun ch hch => ?_⟩
    rw [List.mem_singleton.mp hch, isStatChar, s.state.property, Bool.or_true]
  simp only [fields, List.cons_append, List.append_assoc, List.mem_cons, List.mem_append,
    List.mem_map] at hf
  rcases hf with rfl | rfl | ⟨f, -, rfl⟩ | rfl | rfl | ⟨f, -, rfl⟩ | rfl | rfl | rfl | rfl | rfl
    | ⟨f, -, rfl⟩
  · exact hstate
  all_goals first | exact hnumber _ | exact hfield _

theorem isField_of_mem_fields {f : Bytes} (hf : f ∈ s.fields) : IsField f := by
  obtain ⟨hne, hchars⟩ := s.isStatChar_of_mem_fields hf
  exact ⟨hne, fun ch hch => (isStatChar_ne (hchars ch hch)).2.2.2⟩

/-- What a stat file says of its process or thread. -/
def read (conv : Conversions) (pageSize pid : UInt32) (comm : Bytes) : WslProcess where
  pid := pid
  parentPid := s.ppid
  name := conv.fromUtf8 comm
  state := charToWide s.state.val
  userTicks := s.utime
  systemTicks := s.stime
  threads := s.threads
  startTicks := s.starttime
  virtualBytes := s.vsize
  residentBytes := s.rss * pageSize.toUInt64

/-- The fields that are read, by their places. -/
theorem fields_getD : 22 ≤ s.fields.length
    ∧ s.fields.getD 0 [] = [s.state.val] ∧ s.fields.getD 1 [] = decimalText s.ppid.toNat
    ∧ s.fields.getD 11 [] = decimalText s.utime.toNat
    ∧ s.fields.getD 12 [] = decimalText s.stime.toNat
    ∧ s.fields.getD 17 [] = decimalText s.threads.toNat
    ∧ s.fields.getD 19 [] = decimalText s.starttime.toNat
    ∧ s.fields.getD 20 [] = decimalText s.vsize.toNat
    ∧ s.fields.getD 21 [] = decimalText s.rss.toNat := by
  obtain ⟨state, ppid, group, utime, stime, children, threads, timer, starttime, vsize, rss, rest⟩
    := s
  obtain ⟨group, hgroup⟩ := group
  obtain ⟨children, hchildren⟩ := children
  match group, hgroup with
  | [g₀, g₁, g₂, g₃, g₄, g₅, g₆, g₇, g₈], _ =>
    match children, hchildren with
    | [c₀, c₁, c₂, c₃], _ => simp [fields]

end Stat

theorem notMem_decimalText {n : ℕ} {ch : UInt8} (h : isDigit ch = false) : ch ∉ decimalText n := by
  intro hmem
  rw [isDigit_of_mem_decimalText hmem] at h
  cases h

/-- What a line of a process's ID, name and fields is read as, whatever is in the name. -/
theorem parseStat_line (conv : Conversions) (pageSize pid : UInt32) (hpid : pid ≠ 0) (comm : Bytes)
    {fields : List Bytes} (hfields : ∀ f ∈ fields, IsField f ∧ 41 ∉ f)
    (hcount : 22 ≤ fields.length) :
    parseStat conv (decimalText pid.toNat ++ (ascii " (" ++ (comm ++ 41 ::
      fields.flatMap (space :: ·)))) pageSize = some
        { pid := pid
          parentPid := (toNumber (fields.getD 1 [])).toUInt32
          name := conv.fromUtf8 comm
          state := charToWide ((fields.getD 0 []).getD 0 0)
          userTicks := toNumber (fields.getD 11 [])
          systemTicks := toNumber (fields.getD 12 [])
          threads := (toNumber (fields.getD 17 [])).toUInt32
          startTicks := toNumber (fields.getD 19 [])
          virtualBytes := toNumber (fields.getD 20 [])
          residentBytes := toNumber (fields.getD 21 []) * pageSize.toUInt64 } := by
  have hparens : ascii " (" = [space, 40] := rfl
  set tail := fields.flatMap (space :: ·) with htail
  set pidText := decimalText pid.toNat with hpidText
  set line := pidText ++ (ascii " (" ++ (comm ++ 41 :: tail)) with hline
  have hopen : find (ascii " (") line = some pidText.length :=
    find_append_self (notMem_decimalText (by decide)) _
  have hclosed : (41 : UInt8) ∉ tail := by
    intro hmem
    obtain ⟨f, hf, hch⟩ := List.mem_flatMap.mp hmem
    cases List.mem_cons.mp hch with
    | inl hspace => exact absurd hspace (by decide)
    | inr hchar => exact (hfields f hf).2 hchar
  have hclose : rfind 41 line = some (pidText.length + 2 + comm.length) := by
    have hassoc : line = (pidText ++ [space, 40] ++ comm) ++ 41 :: tail := by
      rw [hline, hparens]
      simp
    rw [hassoc, rfind_append_cons hclosed]
    simp
    omega
  have hpidField : (toNumber (line.take pidText.length)).toUInt32 = pid := by
    rw [hline, List.take_left]
    have hnumber := @toNumber_decimalText32 pid [] (by simp)
    rwa [List.append_nil] at hnumber
  have hname : (line.drop (pidText.length + 2)).take
      (pidText.length + 2 + comm.length - pidText.length - 2) = comm := by
    have hlength : pidText.length + 2 + comm.length - pidText.length - 2 = comm.length := by omega
    rw [hline, hparens, ← List.append_assoc, List.drop_left' (by simp), hlength, List.take_left]
  have hsplit : split (line.drop (pidText.length + 2 + comm.length + 1)) = fields := by
    have hdrop : line.drop (pidText.length + 2 + comm.length + 1) = tail := by
      have hassoc : line = (pidText ++ [space, 40] ++ comm ++ [41]) ++ tail := by
        rw [hline, hparens]
        simp
      rw [hassoc, List.drop_left']
      simp
      omega
    rw [hdrop, htail]
    exact split_fields (by decide) fun f hf => (hfields f hf).1
  unfold parseStat
  rw [hopen, hclose]
  dsimp only
  rw [if_neg (by omega), hpidField, if_neg hpid, hname, hsplit, if_neg (by omega)]

/-- **A stat line is read back**, whatever is in the name. -/
theorem parseStat_statText (conv : Conversions) (pageSize pid : UInt32) (hpid : pid ≠ 0)
    (comm : Bytes) (s : Stat) :
    parseStat conv (statText pid comm s) pageSize = some (s.read conv pageSize pid comm) := by
  obtain ⟨hcount, h0, h1, h11, h12, h17, h19, h20, h21⟩ := s.fields_getD
  have hfields : ∀ f ∈ s.fields, IsField f ∧ 41 ∉ f := fun f hf =>
    ⟨s.isField_of_mem_fields hf, fun hm =>
      (isStatChar_ne ((s.isStatChar_of_mem_fields hf).2 _ hm)).1 rfl⟩
  have hnumber : ∀ n : UInt64, toNumber (decimalText n.toNat) = n := fun n => by
    have h := @toNumber_decimalText n [] (by simp)
    rwa [List.append_nil] at h
  have hnumber32 : ∀ n : UInt32, (toNumber (decimalText n.toNat)).toUInt32 = n := fun n => by
    have h := @toNumber_decimalText32 n [] (by simp)
    rwa [List.append_nil] at h
  rw [statText, parseStat_line conv pageSize pid hpid comm hfields hcount, h0, h1, h11, h12, h17,
    h19, h20, h21, hnumber32, hnumber32, hnumber, hnumber, hnumber, hnumber, hnumber]
  rfl

end WinSys.Wsl
