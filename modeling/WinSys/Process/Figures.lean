import Mathlib.Tactic.Positivity
import Mathlib.Tactic.Ring
import WinSys.Process.Manager

/-!
# What share of the machine was used

An update turns the ticks since the last one into units of 100 ns, and what a process or a thread
used in between into millionths of what the processors had. Both are products of 64-bit numbers
before they are divided, and a first tick reading of 0 counts as no reading.

* `usage_eq_share`: the figure where the products fit, and it does
* `usage_exact`: where no more was used than the processors had
* `divisions`: no division is by zero
-/

namespace WinSys.Process

/-! ## the figure -/

namespace Machine

variable (m : Machine)

/-- From one tick reading to another in 100 ns, rounded down. -/
def elapsedExact (since ticks : Int64) : ℤ :=
  (ticks.toInt - since.toInt) * 10000000 / m.qpcFrequency.toInt

/-- The share used of what the processors had, in millionths, rounded down. -/
def share (since ticks : Int64) (used : ℤ) : ℤ :=
  if m.elapsedExact since ticks = 0 then 0
  else used * 1000000 / m.elapsedExact since ticks / m.totalProcessors.toNat

/-- The readings are in order, and no more was used than the processors had. -/
structure Possible (since ticks : Int64) (used : ℤ) : Prop where
  nonneg : 0 ≤ since.toInt
  ordered : since.toInt ≤ ticks.toInt
  used_nonneg : 0 ≤ used
  atMost : used ≤ m.totalProcessors.toNat * m.elapsedExact since ticks

/-- The first reading counts, and the products fit. -/
structure Fits (since ticks : Int64) (used : ℤ) : Prop where
  sampled : since ≠ 0 ∨ m.elapsedExact since ticks = 0
  ticks_fit : (ticks.toInt - since.toInt) * 10000000 < 2 ^ 63
  used_fits : used * 1000000 < 2 ^ 63

/-- The readings are in order, no times went back, and the products and the figure fit. -/
structure Measured (since ticks : Int64) (used : ℤ) : Prop extends m.Fits since ticks used where
  ordered : since.toInt ≤ ticks.toInt
  used_nonneg : 0 ≤ used
  share_fits : m.share since ticks used < 2 ^ 31

instance (since ticks : Int64) (used : ℤ) : Decidable (m.Measured since ticks used) :=
  decidable_of_iff
    (((since ≠ 0 ∨ m.elapsedExact since ticks = 0) ∧
        (ticks.toInt - since.toInt) * 10000000 < 2 ^ 63 ∧ used * 1000000 < 2 ^ 63) ∧
      since.toInt ≤ ticks.toInt ∧ 0 ≤ used ∧ m.share since ticks used < 2 ^ 31)
    ⟨fun ⟨⟨hsampled, hticks, hused⟩, hordered, hnonneg, hshare⟩ =>
      ⟨⟨hsampled, hticks, hused⟩, hordered, hnonneg, hshare⟩,
    fun h => ⟨⟨h.sampled, h.ticks_fit, h.used_fits⟩, h.ordered, h.used_nonneg, h.share_fits⟩⟩

/-- The figure is the share, which is one. -/
def Exact (since ticks : Int64) (used : ℤ) (figure : Int32) : Prop :=
  figure.toInt = m.share since ticks used ∧ 0 ≤ figure.toInt ∧ figure.toInt ≤ 1000000

end Machine

/-- The times added up, as integers. -/
def Times.sum (t : Times) : ℤ := t.kernelTime.toInt + t.userTime.toInt

theorem bmod_eq_self {x : ℤ} (h : 0 ≤ x) (hlt : x < 2 ^ 63) : x.bmod (2 ^ 64) = x := by
  refine Int.bmod_eq_of_le ?_ ?_ <;> omega

theorem toInt_processors (n : UInt32) : n.toUInt64.toInt64.toInt = n.toNat := by
  have hlt := n.toNat_lt
  change n.toUInt64.toBitVec.toInt = n.toNat
  have hnat : n.toUInt64.toBitVec.toNat = n.toNat := n.toNat_toUInt64
  rw [BitVec.toInt_eq_toNat_of_lt (by rw [hnat]; omega), hnat]

section Figure

variable {m : Machine} {since ticks used : Int64} {d : ℤ}

theorem toInt_elapsed (hf : 0 < m.qpcFrequency.toInt) (hordered : since.toInt ≤ ticks.toInt)
    (hticks : (ticks.toInt - since.toInt) * 10000000 < 2 ^ 63) :
    (m.elapsed since ticks).toInt = m.elapsedExact since ticks := by
  have hnonneg : 0 ≤ (ticks.toInt - since.toInt) * 10000000 :=
    mul_nonneg (sub_nonneg.mpr hordered) (by norm_num)
  have hdifference : (ticks.toInt - since.toInt).bmod (2 ^ 64) = ticks.toInt - since.toInt :=
    bmod_eq_self (by omega) (by omega)
  have hquotient := Int.ediv_le_self m.qpcFrequency.toInt hnonneg
  rw [Machine.elapsed, Machine.elapsedExact, Int64.toInt_div, Int64.toInt_mul, Int64.toInt_sub,
    hdifference, show (10000000 : Int64).toInt = 10000000 from rfl,
    bmod_eq_self hnonneg hticks, Int.tdiv_eq_ediv_of_nonneg hnonneg,
    bmod_eq_self (Int.ediv_nonneg hnonneg hf.le) (by omega)]

/-- The quotients of what fits. -/
theorem toInt_usage {elapsed : Int64} (hN : 0 < m.totalProcessors.toNat)
    (helapsed : 0 < elapsed.toInt) (hd : used.toInt = d) (hnonneg : 0 ≤ d)
    (hfits : d * 1000000 < 2 ^ 63) (hsmall : d * 1000000 / elapsed.toInt / m.totalProcessors.toNat
      < 2 ^ 31) :
    (m.usage used elapsed).toInt
      = d * 1000000 / elapsed.toInt / m.totalProcessors.toNat := by
  have hne : elapsed ≠ 0 := by
    rintro rfl
    exact absurd helapsed (by decide)
  have hproduct : 0 ≤ d * 1000000 := by positivity
  have hshare : 0 ≤ d * 1000000 / elapsed.toInt := Int.ediv_nonneg hproduct helapsed.le
  have hper : 0 ≤ d * 1000000 / elapsed.toInt / (m.totalProcessors.toNat : ℤ) :=
    Int.ediv_nonneg hshare (by omega)
  have hshareLe := Int.ediv_le_self elapsed.toInt hproduct
  rw [Machine.usage, if_neg hne, Int64.toInt_toInt32, Int64.toInt_div, Int64.toInt_div,
    Int64.toInt_mul, hd, show (1000000 : Int64).toInt = 1000000 from rfl,
    bmod_eq_self hproduct hfits, Int.tdiv_eq_ediv_of_nonneg hproduct,
    bmod_eq_self hshare (by omega), toInt_processors, Int.tdiv_eq_ediv_of_nonneg hshare,
    bmod_eq_self hper (by omega)]
  refine Int.bmod_eq_of_le ?_ ?_ <;> omega

/-- The time between two readings in order, where it is not 0. -/
theorem elapsedExact_pos (hf : 0 < m.qpcFrequency.toInt) (hordered : since.toInt ≤ ticks.toInt)
    (hzero : m.elapsedExact since ticks ≠ 0) : 0 < m.elapsedExact since ticks := by
  have hproduct : 0 ≤ (ticks.toInt - since.toInt) * 10000000 :=
    mul_nonneg (sub_nonneg.mpr hordered) (by norm_num)
  exact lt_of_le_of_ne (Int.ediv_nonneg hproduct hf.le) (Ne.symm hzero)

/-- **The figure is the share** where the first reading counts, and the products and it fit. -/
theorem usage_eq_share (hf : 0 < m.qpcFrequency.toInt) (hN : 0 < m.totalProcessors.toNat)
    (hd : used.toInt = d.bmod (2 ^ 64)) (h : m.Measured since ticks d) :
    (m.usage used (m.delta since ticks)).toInt = m.share since ticks d := by
  obtain ⟨⟨hsampled, hticks, hused⟩, hordered, hnonneg, hsmall⟩ := h
  have helapsed := toInt_elapsed hf hordered hticks
  rw [bmod_eq_self hnonneg (by omega)] at hd
  by_cases hzero : m.elapsedExact since ticks = 0
  · have hdelta : m.delta since ticks = 0 := by
      rw [Machine.delta]
      split
      · rfl
      · exact Int64.toInt_inj.mp (helapsed.trans hzero)
    rw [Machine.share, if_pos hzero, hdelta, Machine.usage, if_pos rfl]
    rfl
  · have hpos := elapsedExact_pos hf hordered hzero
    have hdelta : m.delta since ticks = m.elapsed since ticks := by
      rw [Machine.delta, if_neg (hsampled.resolve_right hzero)]
    rw [Machine.share, if_neg hzero] at hsmall ⊢
    rw [← helapsed] at hpos hsmall
    rw [hdelta, toInt_usage hN hpos hd hnonneg hused hsmall, ← helapsed]

/-- A share of what the processors had. -/
theorem share_mem (hf : 0 < m.qpcFrequency.toInt) (hN : 0 < m.totalProcessors.toNat)
    (hp : m.Possible since ticks d) :
    0 ≤ m.share since ticks d ∧ m.share since ticks d ≤ 1000000 := by
  obtain ⟨-, hordered, hnonneg, hatMost⟩ := hp
  rw [Machine.share]
  split
  · exact ⟨le_rfl, by norm_num⟩
  · next hzero =>
    have hpos := elapsedExact_pos hf hordered hzero
    constructor
    · exact Int.ediv_nonneg (Int.ediv_nonneg (by positivity) hpos.le) (by omega)
    · refine Int.ediv_le_of_le_mul (by omega) (Int.ediv_le_of_le_mul hpos ?_)
      calc d * 1000000 ≤ m.totalProcessors.toNat * m.elapsedExact since ticks * 1000000 :=
            mul_le_mul_of_nonneg_right hatMost (by norm_num)
        _ = 1000000 * m.totalProcessors.toNat * m.elapsedExact since ticks := by ring

/-- The figure is a share of what the processors had, where the products fit. -/
theorem usage_exact (hf : 0 < m.qpcFrequency.toInt) (hN : 0 < m.totalProcessors.toNat)
    (hd : used.toInt = d.bmod (2 ^ 64)) (hp : m.Possible since ticks d)
    (hfits : m.Fits since ticks d) : m.Exact since ticks d (m.usage used (m.delta since ticks)) := by
  obtain ⟨hnonneg, hatMost⟩ := share_mem hf hN hp
  have hmeasured : m.Measured since ticks d := ⟨hfits, hp.ordered, hp.used_nonneg, by omega⟩
  have hfigure := usage_eq_share hf hN hd hmeasured
  rw [Machine.Exact, hfigure]
  exact ⟨rfl, hnonneg, hatMost⟩

end Figure

/-! ## divisions -/

/-- A quotient; none by zero. -/
def div? (a b : Int64) : Option Int64 := if b = 0 then none else some (a / b)

namespace Machine

variable (m : Machine)

/-- `delta` as far as its division has a value. -/
def delta? (prevTicks ticks : Int64) : Option Int64 :=
  if prevTicks = 0 then some 0 else div? ((ticks - prevTicks) * 10000000) m.qpcFrequency

/-- `usage` as far as its divisions have values. -/
def usage? (used elapsed : Int64) : Option Int32 :=
  if elapsed = 0 then some 0
  else do
    let quotient ← div? (used * 1000000) elapsed
    let quotient ← div? quotient m.totalProcessors.toUInt64.toInt64
    return quotient.toInt32

end Machine

/-- No division is by zero. -/
theorem divisions {m : Machine} (hf : 0 < m.qpcFrequency.toInt)
    (hN : 0 < m.totalProcessors.toNat) (since ticks used : Int64) :
    (m.delta? since ticks >>= m.usage? used) = some (m.usage used (m.delta since ticks)) := by
  have hfrequency : m.qpcFrequency ≠ 0 := by
    intro hzero
    rw [hzero] at hf
    exact absurd hf (by decide)
  have hprocessors : m.totalProcessors.toUInt64.toInt64 ≠ 0 := by
    intro hzero
    have hint := toInt_processors m.totalProcessors
    rw [hzero] at hint
    have hzero' : ((m.totalProcessors.toNat : ℕ) : ℤ) = 0 := hint.symm
    omega
  have hdelta : m.delta? since ticks = some (m.delta since ticks) := by
    unfold Machine.delta? Machine.delta div?
    split
    · rfl
    · rfl
  rw [hdelta, Option.bind_eq_bind, Option.bind_some]
  unfold Machine.usage? Machine.usage div?
  split
  · rfl
  · next hne =>
    rw [Option.bind_eq_bind, Option.bind_some]
    rfl

end WinSys.Process
