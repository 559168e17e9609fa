/-!
# Ticks

A time in milliseconds as an unsigned 64-bit number. An age is a difference of two ticks, which
wraps around where the later one is subtracted from.
-/

namespace Infra

theorem sub_le_sub_of_le {a b c : UInt64} (hab : a ≤ b) (hbc : b ≤ c) : b - a ≤ c - a := by
  have hb := UInt64.toNat_sub_of_le b a hab
  have hc := UInt64.toNat_sub_of_le c a (UInt64.le_trans hab hbc)
  have hle := UInt64.le_iff_toNat_le.mp hbc
  rw [UInt64.le_iff_toNat_le]
  omega

/-- Without wrapping, the unsigned difference is the age. -/
theorem idle_of_sub_gt {tick last idle : UInt64} (hle : last ≤ tick) (h : tick - last > idle) :
    last.toNat + idle.toNat + 1 ≤ tick.toNat := by
  have hsub := UInt64.toNat_sub_of_le tick last hle
  have hlt : idle.toNat < (tick - last).toNat := UInt64.lt_iff_toNat_lt.mp h
  have hle' : last.toNat ≤ tick.toNat := UInt64.le_iff_toNat_le.mp hle
  omega

end Infra
