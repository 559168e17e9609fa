import WinSys.Power.Requests

/-!
# Reads inside the buffer

An offset in the buffer is 64 bits wide and is added to a pointer before it is checked, so the sum
may wrap to an address before the buffer.

* `StringIn`, `ReasonIn`, `SourceIn`: the strings of an entry do not lead before the buffer
* `RequestsIn`, `TimersIn`: those of the entries that are read
* `parse_within_iff`: the buffer is not left exactly then
-/

namespace WinSys.PowerRequests

open Infra Loads

section Strings

variable (m : Memory) (base : ℕ)

/-- How many characters of a string are loaded, its NUL with them. -/
def charsRead (start stop : ℕ) : ℕ :=
  min ((wideAt m start (stringMax start stop)).length + 1) (stringMax start stop)

/-- A string's offset does not lead to characters before the buffer. Where the difference of the
pointers is negative, the NUL is in time. -/
def StringIn (start offset stop : ℕ) : Prop :=
  let a := wrap (start + offset)
  offset ≠ 0 → a < stop → stringMax a stop ≠ 0 →
    base ≤ a ∧ (2 ^ 63 ≤ stop - a → a + 2 * charsRead m a stop ≤ stop)

/-- The next string's offset is after the string that is at this one. -/
def SubstitutionsIn (start stop : ℕ) : ℕ → ℕ → Prop
  | 0, _ => True
  | turns + 1, offset => offset ≠ 0 → StringIn m base start offset stop ∧
    SubstitutionsIn start stop turns
      (wrap (offset + ((stringAt m start offset stop).value.length + 1) * 2))

/-- A reason's offset leads to a reason that is not before the buffer and does not wrap, and its
strings' offsets do not lead before the buffer. -/
def ReasonIn (diagBase offset stop : ℕ) : Prop :=
  offset ≠ 0 → wrap (diagBase + offset + sizeOfReason) ≤ stop →
    let start := wrap (diagBase + offset)
    let reason := bytesAt m start sizeOfReason
    (base ≤ start ∧ start + sizeOfReason < 2 ^ 64) ∧
    (u32At reason 0 &&& powerRequestContextSimpleString ≠ 0 ∨
      u32At reason 0 &&& powerRequestContextDetailedString ≠ 0 →
        StringIn m base start (u64At reason 8).toNat stop) ∧
    (u32At reason 0 &&& powerRequestContextSimpleString = 0 ∧
      u32At reason 0 &&& powerRequestContextDetailedString ≠ 0 →
        SubstitutionsIn m base start stop (min (u32At reason 20).toNat 16) (u64At reason 24).toNat)

/-- The offsets of a diagnostic buffer. -/
structure SourceIn (diagBase : ℕ) (diag : Bytes) (stop : ℕ) : Prop where
  name : StringIn m base diagBase (u64At diag 16).toNat stop
  devicePath : u32At diag 8 = 0 → StringIn m base diagBase (u64At diag 24).toNat stop
  reason : ReasonIn m base diagBase (u64At diag 32).toNat stop

variable {m base} {size start offset stop : ℕ} (hstop : stop ≤ base + size)

include hstop

theorem within_stringAt :
    (stringAt m start offset stop).Within base size ↔ StringIn m base start offset stop := by
  unfold stringAt StringIn
  split
  · next hout =>
    refine iff_of_true (within_pure _) fun hne hlt => ?_
    omega
  · next hin =>
    rw [not_or, not_le] at hin
    dsimp only
    rw [imp_iff_right hin.1, imp_iff_right hin.2]
    unfold wideString
    by_cases hmax : stringMax (wrap (start + offset)) stop = 0
    · simp only [hmax, if_true]
      exact iff_of_true nofun fun h => absurd rfl h
    · have hchars : charsRead m (wrap (start + offset)) stop
          ≤ stringMax (wrap (start + offset)) stop := Nat.min_le_right _ _
      have hhalf : stop - wrap (start + offset) < 2 ^ 63 →
          stringMax (wrap (start + offset)) stop = (stop - wrap (start + offset)) / 2 :=
        fun h => if_pos h
      rw [imp_iff_right hmax]
      unfold Within
      simp only [if_neg hmax, List.forall_mem_singleton]
      refine and_congr_right fun _ => ⟨fun h _ => h.1, fun h => ⟨?_, hstop⟩⟩
      by_cases hlarge : 2 ^ 63 ≤ stop - wrap (start + offset)
      · exact h hlarge
      · have hmul : 2 * charsRead m (wrap (start + offset)) stop ≤ stop - wrap (start + offset) := by
          omega
        unfold charsRead at hmul
        omega

theorem within_substitutions {turns : ℕ} :
    (substitutions m start stop turns offset).Within base size
      ↔ SubstitutionsIn m base start stop turns offset := by
  induction turns generalizing offset with
  | zero => exact iff_of_true (within_pure _) trivial
  | succ turns ih =>
    unfold substitutions SubstitutionsIn
    split
    · next hzero => exact iff_of_true (within_pure _) fun hne => absurd hzero hne
    · next hne =>
      rw [imp_iff_right hne, within_bind, within_stringAt hstop]
      simp only [within_bind, within_pure, and_true, ih]

theorem within_reasonText {answers : Answers} {diagBase : ℕ} (hbase : base + size < 2 ^ 64) :
    (reasonText m answers diagBase offset stop).Within base size
      ↔ ReasonIn m base diagBase offset stop := by
  unfold reasonText ReasonIn
  split
  · next hout =>
    refine iff_of_true (within_pure _) fun hne hle => ?_
    omega
  · next hin =>
    rw [not_or, not_lt] at hin
    rw [imp_iff_right hin.1, imp_iff_right hin.2]
    have hwrap : wrap (diagBase + offset + sizeOfReason)
        = wrap (wrap (diagBase + offset) + sizeOfReason) := by simp [wrap]
    have hheader : base ≤ wrap (diagBase + offset)
          ∧ wrap (diagBase + offset) + sizeOfReason ≤ stop ∧ stop ≤ base + size
        ↔ base ≤ wrap (diagBase + offset) ∧ wrap (diagBase + offset) + sizeOfReason < 2 ^ 64 := by
      have hle := hin.2
      constructor
      · rintro ⟨h1, h2, -⟩
        exact ⟨h1, by omega⟩
      · rintro ⟨h1, h2⟩
        rw [hwrap, wrap_of_lt h2] at hle
        exact ⟨h1, hle, hstop⟩
    rw [within_bind, within_record, hheader]
    refine and_congr_right fun _ => ?_
    rw [value_record]
    by_cases hsimple : u32At (bytesAt m (wrap (diagBase + offset)) sizeOfReason) 0
        &&& powerRequestContextSimpleString = 0
    · rw [if_neg (not_not.mpr hsimple)]
      by_cases hdetailed : u32At (bytesAt m (wrap (diagBase + offset)) sizeOfReason) 0
          &&& powerRequestContextDetailedString = 0
      · simp [hsimple, hdetailed]
      · rw [if_pos hdetailed]
        simp only [within_bind, within_pure, and_true, within_stringAt hstop,
          within_substitutions hstop, hsimple, hdetailed, ne_eq, not_true_eq_false,
          not_false_eq_true, or_true, true_imp_iff, and_self]
    · rw [if_pos hsimple, within_stringAt hstop]
      simp [hsimple]

theorem within_readSource {answers : Answers} {diagBase : ℕ} {diag : Bytes}
    (hbase : base + size < 2 ^ 64) :
    (readSource m answers diagBase diag stop).Within base size
      ↔ SourceIn m base diagBase diag stop := by
  have hsource : SourceIn m base diagBase diag stop
      ↔ (StringIn m base diagBase (u64At diag 16).toNat stop
        ∧ (u32At diag 8 = 0 → StringIn m base diagBase (u64At diag 24).toNat stop))
        ∧ ReasonIn m base diagBase (u64At diag 32).toNat stop :=
    ⟨fun h => ⟨⟨h.name, h.devicePath⟩, h.reason⟩, fun ⟨⟨h1, h2⟩, h3⟩ => ⟨h1, h2, h3⟩⟩
  rw [hsource, readSource]
  split
  · next hdriver =>
    simp only [driverSource, within_bind, within_pure, and_true, within_stringAt hstop, hdriver,
      true_imp_iff, within_reasonText hstop hbase]
  · next hdriver =>
    simp only [processSource, within_bind, within_pure, and_true, within_stringAt hstop,
      hdriver, false_imp_iff, within_reasonText hstop hbase]

end Strings

section Lists

variable (m : Memory) (base size : ℕ)

/-- An offset of the table, which is after the count. -/
def tableEntry (i : ℕ) : ℕ := (u64At (bytesAt m (base + 8 + 8 * i) 8) 0).toNat

/-- Where the strings of an entry have to end. -/
def stopOf (count i : ℕ) : ℕ :=
  if i + 1 < count ∧ tableEntry m base (i + 1) > tableEntry m base i
    ∧ tableEntry m base (i + 1) ≤ size then base + tableEntry m base (i + 1)
  else base + size

def countsOf (raw : Bytes) : List UInt32 := (List.range 6).map fun t => u32At raw (4 + 4 * t)

/-- The requests that are in the buffer and wanted have their strings where they may be. -/
def RequestsIn (activeOnly : Bool) : Prop :=
  let count := (u64At (bytesAt m base 8) 0).toNat
  8 ≤ size → count ≤ size / 8 - 1 → ∀ i < count, tableEntry m base i ≤ size →
    sizeOfRequestV4 ≤ size - tableEntry m base i →
    let raw := bytesAt m (base + tableEntry m base i) sizeOfRequestV4
    (activeOnly = true → PowerRequest.isActive (countsOf raw) = true) →
    SourceIn m base (base + tableEntry m base i + offsetOfDiag) (raw.drop offsetOfDiag)
      (stopOf m base size count i)

/-- The offset to the next timer. -/
def nextOf (offset : ℕ) : ℕ :=
  (u64At (bytesAt m (base + offset) sizeOfWakeTimerInfo) 0).toNat

/-- A timer has a next one in the buffer. -/
def HasNext (offset : ℕ) : Prop :=
  nextOf m base offset ≠ 0 ∧ nextOf m base offset ≤ size - offset

instance (offset : ℕ) : Decidable (HasNext m base size offset) :=
  inferInstanceAs (Decidable (_ ∧ _))

/-- The places of the timers that the one at a place leads to. -/
inductive Linked (start : ℕ) : ℕ → Prop where
  | here : Linked start start
  | next {offset : ℕ} : Linked start offset → sizeOfWakeTimerInfo ≤ size - offset →
    HasNext m base size offset → Linked start (offset + nextOf m base offset)

/-- The timer at a place, if there is one, has its strings where they may be. -/
def TimerIn (offset : ℕ) : Prop :=
  sizeOfWakeTimerInfo ≤ size - offset →
    let raw := bytesAt m (base + offset) sizeOfWakeTimerInfo
    u64At raw offsetOfTimerDiag ≠ 0 →
    SourceIn m base (base + offset + offsetOfTimerDiag) (raw.drop offsetOfTimerDiag)
      (if HasNext m base size offset then base + offset + nextOf m base offset else base + size)

def TimersIn : Prop := ∀ offset, Linked m base size 0 offset → TimerIn m base size offset

end Lists

section Requests

variable {answers : Answers} {m : Memory} {base size : ℕ}

theorem stopOf_le (count i : ℕ) : stopOf m base size count i ≤ base + size := by
  unfold stopOf
  split
  · omega
  · exact Nat.le_refl _

theorem linked_iff {start offset : ℕ} : Linked m base size start offset ↔ offset = start ∨
    (sizeOfWakeTimerInfo ≤ size - start ∧ HasNext m base size start)
      ∧ Linked m base size (start + nextOf m base start) offset := by
  constructor
  · intro h
    induction h with
    | here => exact .inl rfl
    | next _ hleft hnext ih =>
      obtain rfl | ⟨hstart, hlinked⟩ := ih
      · exact .inr ⟨⟨hleft, hnext⟩, .here⟩
      · exact .inr ⟨hstart, hlinked.next hleft hnext⟩
  · rintro (rfl | ⟨⟨hleft, hnext⟩, hlinked⟩)
    · exact .here
    · induction hlinked with
      | here => exact Linked.here.next hleft hnext
      | next _ hleft' hnext' ih => exact ih.next hleft' hnext'

/-- Each timer is at a place of its own. -/
theorem length_parseTimers {now : UInt64} {start : ℕ} :
    (parseTimers answers m base size now start).value.length ≤ size - start := by
  induction hn : size - start using Nat.strong_induction_on generalizing start with
  | _ n ih =>
  have hentry : sizeOfWakeTimerInfo = 64 := rfl
  rw [parseTimers]
  split
  · exact Nat.zero_le _
  · next hleft =>
    rw [value_bind, value_record]
    dsimp only
    rw [value_bind]
    generalize (parseTimer answers m now _ _ _).value = timer
    have hone : timer.toList.length ≤ 1 := by cases timer <;> simp
    split
    · next hnext =>
      have hrest := ih (size - (start + (u64At (bytesAt m (wrap (base + start)) sizeOfWakeTimerInfo)
        0).toNat)) (by omega) rfl
      rw [value_bind, value_pure, List.length_append]
      omega
    · rw [value_pure]
      omega

variable (hbase : base + size < 2 ^ 64)

include hbase

theorem offsetAt_eq {i : ℕ} (hi : 8 + 8 * i + 8 ≤ size) :
    (offsetAt m base size i).value = tableEntry m base i
      ∧ (offsetAt m base size i).Within base size := by
  unfold offsetAt tableEntry
  rw [wrap_of_lt (by omega), wrap_of_lt hbase]
  exact ⟨rfl, (within_bind _ _).mpr ⟨(within_record _ _ _ _).mpr (by omega), within_pure _⟩⟩

theorem entryEnd_eq {count i : ℕ} (hcount : 8 + 8 * count ≤ size) :
    (entryEnd m base size count i (tableEntry m base i)).value = stopOf m base size count i
      ∧ (entryEnd m base size count i (tableEntry m base i)).Within base size := by
  unfold entryEnd stopOf
  split
  · next hlt =>
    obtain ⟨hvalue, hwithin⟩ := @offsetAt_eq m base size hbase (i + 1) (by omega)
    refine ⟨?_, (within_bind _ _).mpr ⟨hwithin, within_pure _⟩⟩
    rw [value_bind, hvalue, value_pure]
    split
    · next h =>
      rw [wrap_of_lt (by omega), if_pos ⟨hlt, h⟩]
    · next h =>
      rw [wrap_of_lt hbase, if_neg fun hall => h hall.2]
  · next hge =>
    rw [if_neg fun hall => hge hall.1, wrap_of_lt hbase]
    exact ⟨rfl, within_pure _⟩

theorem within_parseRequest {count i : ℕ} {activeOnly : Bool}
    (hcount : 8 + 8 * count ≤ size) (hi : i < count) :
    (parseRequest answers m base size count activeOnly i).Within base size ↔
      (tableEntry m base i ≤ size → sizeOfRequestV4 ≤ size - tableEntry m base i →
        let raw := bytesAt m (base + tableEntry m base i) sizeOfRequestV4
        (activeOnly = true → PowerRequest.isActive (countsOf raw) = true) →
        SourceIn m base (base + tableEntry m base i + offsetOfDiag) (raw.drop offsetOfDiag)
          (stopOf m base size count i)) := by
  obtain ⟨hoffset, hwithin⟩ := @offsetAt_eq m base size hbase i (by omega)
  obtain ⟨hstop, hwithinStop⟩ := @entryEnd_eq m base size hbase count i hcount
  rw [parseRequest, within_bind, hoffset, and_iff_right hwithin]
  split
  · next hout =>
    refine iff_of_true (within_pure _) fun h1 h2 => ?_
    omega
  · next hin =>
    rw [not_or, not_lt, not_lt] at hin
    have hentry : sizeOfRequestV4 = 72 := rfl
    have hdiag : offsetOfDiag = 32 := rfl
    rw [imp_iff_right hin.1, imp_iff_right hin.2, within_bind, within_record, wrap_of_lt hbase,
      wrap_of_lt (by omega : base + tableEntry m base i < 2 ^ 64)]
    have hrecord : base ≤ base + tableEntry m base i
        ∧ base + tableEntry m base i + sizeOfRequestV4 ≤ base + size ∧ base + size ≤ base + size := by
      omega
    rw [and_iff_right hrecord, within_bind, and_iff_right hwithinStop, hstop, value_record]
    by_cases hwanted : activeOnly = true →
        PowerRequest.isActive (countsOf (bytesAt m (base + tableEntry m base i) sizeOfRequestV4)) = true
    · have hread : ¬(activeOnly = true ∧ (!PowerRequest.isActive
          (countsOf (bytesAt m (base + tableEntry m base i) sizeOfRequestV4))) = true) := by
        rintro ⟨honly, hinactive⟩
        rw [hwanted honly] at hinactive
        cases hinactive
      unfold countsOf at hread
      rw [imp_iff_right hwanted, if_neg hread, within_bind, wrap_of_lt (by omega),
        within_readSource (stopOf_le count i) hbase]
      exact and_iff_left (within_pure _)
    · have hskip : activeOnly = true ∧ (!PowerRequest.isActive
          (countsOf (bytesAt m (base + tableEntry m base i) sizeOfRequestV4))) = true := by
        obtain ⟨honly, hinactive⟩ := Classical.not_imp.mp hwanted
        exact ⟨honly, by simpa using hinactive⟩
      unfold countsOf at hskip
      rw [if_pos hskip]
      exact iff_of_true (within_pure _) fun h => absurd h hwanted

theorem within_parseRequestList (activeOnly : Bool) :
    (parseRequestList answers m base size activeOnly).Within base size
      ↔ RequestsIn m base size activeOnly := by
  unfold parseRequestList RequestsIn
  split
  · next hsmall => exact iff_of_true (within_pure _) fun hle => absurd hle (by omega)
  · next hle =>
    rw [not_lt] at hle
    rw [imp_iff_right hle, within_bind, within_record, wrap_of_lt hbase, value_record,
      and_iff_right (by omega)]
    dsimp only
    split
    · next hmany => exact iff_of_true (within_pure _) fun hfew => absurd hfew (by omega)
    · next hfew =>
      rw [not_lt] at hfew
      rw [imp_iff_right hfew, within_collect]
      simp only [Nat.zero_le, true_imp_iff, zero_add]
      refine forall_congr' fun i => imp_congr_right fun hi => ?_
      exact within_parseRequest hbase (by omega) hi

theorem within_parseTimer {now : UInt64} {offset stop : ℕ}
    (hleft : sizeOfWakeTimerInfo ≤ size - offset)
    (hnext : HasNext m base size offset → stop = base + offset + nextOf m base offset)
    (hlast : ¬HasNext m base size offset → stop = base + size) :
    (parseTimer answers m now (base + offset) (bytesAt m (base + offset) sizeOfWakeTimerInfo)
      stop).Within base size ↔ TimerIn m base size offset := by
  have hentry : sizeOfWakeTimerInfo = 64 := rfl
  have hdiag : offsetOfTimerDiag = 24 := rfl
  have hstop : stop = if HasNext m base size offset then base + offset + nextOf m base offset
      else base + size := by
    split
    · next h => exact hnext h
    · next h => exact hlast h
  have hle : stop ≤ base + size := by
    by_cases h : HasNext m base size offset
    · have hin := h.2
      rw [hnext h]
      omega
    · exact (hlast h).le
  unfold parseTimer TimerIn
  rw [imp_iff_right hleft, ← hstop, wrap_of_lt (by omega)]
  split
  · next hused =>
    rw [within_bind, within_readSource hle hbase]
    simp only [within_pure, and_true]
    exact (imp_iff_right hused).symm
  · next hempty => exact iff_of_true (within_pure _) fun h => absurd h hempty

theorem within_parseTimers {now : UInt64} {start : ℕ} :
    (parseTimers answers m base size now start).Within base size
      ↔ ∀ offset, Linked m base size start offset → TimerIn m base size offset := by
  induction hn : size - start using Nat.strong_induction_on generalizing start with
  | _ n ih =>
  have hentry : sizeOfWakeTimerInfo = 64 := rfl
  rw [parseTimers]
  split
  · next hshort =>
    refine iff_of_true (within_pure _) fun offset hlinked => ?_
    obtain rfl | ⟨⟨hleft, -⟩, -⟩ := linked_iff.mp hlinked
    · exact fun hleft => absurd hleft (by omega)
    · exact absurd hleft (by omega)
  · next hleft =>
    rw [not_lt] at hleft
    have hstart : wrap (base + start) = base + start := wrap_of_lt (by omega)
    have hnextOf : (u64At (bytesAt m (base + start) sizeOfWakeTimerInfo) 0).toNat
        = nextOf m base start := rfl
    rw [within_bind, within_record, hstart, wrap_of_lt hbase, and_iff_right (by omega), value_record]
    simp only [hnextOf]
    by_cases hnext : nextOf m base start ≠ 0 ∧ nextOf m base start ≤ size - start
    · rw [if_pos hnext, within_bind, within_parseTimer hbase hleft
        (fun _ => wrap_of_lt (by omega)) (fun hlast => absurd hnext hlast), dif_pos hnext]
      simp only [within_bind, within_pure, and_true]
      rw [ih (size - (start + nextOf m base start)) (by omega) rfl]
      constructor
      · rintro ⟨hfirst, hrest⟩ offset hlinked
        obtain rfl | ⟨-, hlinked⟩ := linked_iff.mp hlinked
        · exact hfirst
        · exact hrest offset hlinked
      · exact fun h => ⟨h start .here, fun offset hlinked =>
          h offset (linked_iff.mpr (.inr ⟨⟨hleft, hnext⟩, hlinked⟩))⟩
    · rw [if_neg hnext, within_bind, within_parseTimer hbase hleft
        (fun h => absurd h hnext) (fun _ => rfl), dif_neg hnext, and_iff_left (within_pure _)]
      refine ⟨fun hfirst offset hlinked => ?_, fun h => h start .here⟩
      obtain rfl | ⟨⟨-, h⟩, -⟩ := linked_iff.mp hlinked
      · exact hfirst
      · exact absurd h hnext

end Requests

/-! ## what points outside -/

section Outside

variable {answers : Answers} {m : Memory} {base size start offset stop : ℕ}

/-- An offset to no place in the entry gives an empty string. -/
theorem stringAt_outside (h : (stringAt m start offset stop).Within base size)
    (hout : ¬(base ≤ wrap (start + offset) ∧ wrap (start + offset) < stop)) :
    (stringAt m start offset stop).value = [] := by
  unfold stringAt at h ⊢
  split
  · rfl
  · next hin =>
    rw [if_neg hin] at h
    rw [not_or, not_le] at hin
    by_cases hmax : stringMax (wrap (start + offset)) stop = 0
    · simp only [hmax, wideString, wideAt]
    · refine absurd ⟨?_, hin.2⟩ hout
      unfold wideString Within at h
      simp only [if_neg hmax, List.forall_mem_singleton] at h
      exact h.1

/-- An offset to no place for a reason gives no text. -/
theorem reasonText_outside (h : (reasonText m answers start offset stop).Within base size)
    (hout : ¬(base ≤ wrap (start + offset) ∧ wrap (start + offset) + sizeOfReason ≤ stop)) :
    (reasonText m answers start offset stop).value = [] := by
  unfold reasonText at h ⊢
  split
  · rfl
  · next hin =>
    rw [if_neg hin, within_bind, within_record] at h
    exact absurd ⟨h.1.1, h.1.2.1⟩ hout

/-- An offset of the table to no place for a request skips it. -/
theorem parseRequest_outside {count i : ℕ} {activeOnly : Bool}
    (hout : (offsetAt m base size i).value > size
      ∨ size - (offsetAt m base size i).value < sizeOfRequestV4) :
    (parseRequest answers m base size count activeOnly i).value = none := by
  rw [parseRequest, value_bind, if_pos hout]
  rfl

end Outside

theorem length_parseRequestList (answers : Answers) (m : Memory) (base size : ℕ) (activeOnly : Bool) :
    (parseRequestList answers m base size activeOnly).value.length ≤ size / 8 := by
  unfold parseRequestList
  split
  · exact Nat.zero_le _
  · rw [value_bind]
    dsimp only
    split
    · exact Nat.zero_le _
    · exact (length_collect _ _).trans (by omega)

/-- The lists are read inside the buffer unless an offset wraps to a place before it. -/
theorem parse_within_iff (answers : Answers) (m : Memory) {base size : ℕ}
    (hbase : base + size < 2 ^ 64) :
    (∀ activeOnly, let r := parseRequestList answers m base size activeOnly
      (r.Within base size ↔ RequestsIn m base size activeOnly) ∧ r.value.length ≤ size / 8) ∧
    (∀ now, let r := parseWakeTimers answers m base size now
      (r.Within base size ↔ TimersIn m base size) ∧ r.value.length ≤ size) ∧
    (∀ start offset stop, (stringAt m start offset stop).Within base size →
      ¬(base ≤ wrap (start + offset) ∧ wrap (start + offset) < stop) →
      (stringAt m start offset stop).value = []) ∧
    (∀ start offset stop, (reasonText m answers start offset stop).Within base size →
      ¬(base ≤ wrap (start + offset) ∧ wrap (start + offset) + sizeOfReason ≤ stop) →
      (reasonText m answers start offset stop).value = []) ∧
    ∀ count activeOnly i, ((offsetAt m base size i).value > size
        ∨ size - (offsetAt m base size i).value < sizeOfRequestV4) →
      (parseRequest answers m base size count activeOnly i).value = none :=
  ⟨fun activeOnly => ⟨within_parseRequestList hbase activeOnly,
      length_parseRequestList answers m base size activeOnly⟩,
    fun _ => ⟨within_parseTimers hbase, length_parseTimers⟩,
    fun _ _ _ => stringAt_outside, fun _ _ _ => reasonText_outside,
    fun _ _ _ => parseRequest_outside⟩

/-- What is in a buffer, and zeros around it. -/
def bufferAt (base : ℕ) (bs : Bytes) : Memory := fun address =>
  if base ≤ address then bs.getD (address - base) 0 else 0

/-- One request of a process, whose image's name is at an offset from the diagnostic buffer. -/
def oneRequest (nameOffset : ℕ) : Bytes :=
  leBytes 8 1 ++ leBytes 8 16 ++ List.replicate 32 0
    ++ (leBytes 8 40 ++ leBytes 8 1 ++ leBytes 8 nameOffset ++ leBytes 8 0 ++ leBytes 8 0)
    ++ [0x41, 0, 0, 0]

def noAnswers : Answers where
  convert name := name
  serviceFromTag _ _ := []
  resourceString _ _ _ := []

/-- The offsets of a request with its name after it do not lead before the buffer. -/
theorem parse_within_iff_oneRequest :
    RequestsIn (bufferAt 0x10000 (oneRequest 40)) 0x10000 92 false :=
  ((parse_within_iff noAnswers (bufferAt 0x10000 (oneRequest 40)) (by decide)).1 false).1.mp
    (by decide +kernel)

/-- A name's offset of -0x8000 is read before the buffer. -/
theorem wrapping_offset_reads_outside :
    ¬(parseRequestList noAnswers (bufferAt 0x10000 (oneRequest (2 ^ 64 - 0x8000))) 0x10000 92
      false).Within 0x10000 92 := by
  decide +kernel

end WinSys.PowerRequests
