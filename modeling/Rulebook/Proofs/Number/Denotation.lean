import Mathlib.Algebra.Order.Field.Power
import Mathlib.Algebra.Order.Field.Rat
import Mathlib.Data.Nat.Cast.Order.Field
import Mathlib.Tactic.Ring
import Rulebook.Number.Basic
import Rulebook.Proofs.Number.Units

/-!
# The numbers that are denoted

A word integer denotes itself.  A finite double denotes its significand, scaled by the power
of two that belongs to its exponent.  Multiplied by the number of units in one this is the
value in units, so that what is compared exactly in units is what is denoted.
-/

namespace Rulebook

/-- Comparisons agree where both orders do. -/
theorem compare_congr {α β : Type} [LinearOrder α] [LinearOrder β] {a b : α} {c d : β}
    (hlt : a < b ↔ c < d) (hgt : b < a ↔ d < c) : compare a b = compare c d := by
  rcases lt_trichotomy c d with h | h | h
  · rw [compare_lt_iff_lt.2 h, compare_lt_iff_lt.2 (hlt.2 h)]
  · have heq : a = b := le_antisymm (not_lt.1 fun hba => (hgt.1 hba).ne h.symm)
      (not_lt.1 fun hab => (hlt.1 hab).ne h)
    rw [compare_eq_iff_eq.2 h, compare_eq_iff_eq.2 heq]
  · rw [compare_gt_iff_gt.2 h, compare_gt_iff_gt.2 (hgt.2 h)]

/-- The number that a finite double denotes. -/
def Binary64.value (x : Binary64) : ℚ :=
  (if x.negative then -1 else 1) * x.significand * 2 ^ ((x.shift : ℤ) - 1074)

/-- The number that is denoted. -/
def Number.value : Number → ℚ
  | integer i => i.val
  | float x => x.value

namespace Binary64

theorem cast_two_pow (n : ℕ) : ((2 ^ n : ℕ) : ℚ) = 2 ^ (n : ℤ) := by
  rw [Nat.cast_pow, Nat.cast_ofNat, zpow_natCast]

theorem unitsPerOne_pos : (0 : ℚ) < unitsPerOne := by
  rw [unitsPerOne, Nat.cast_pos]
  exact Nat.two_pow_pos 1074

theorem unitsPerOne_ne_zero : (unitsPerOne : ℤ) ≠ 0 := by
  have hne : unitsPerOne ≠ 0 := Nat.cast_ne_zero.1 unitsPerOne_pos.ne'
  exact Int.natCast_ne_zero.2 hne

theorem scaled_eq_value (x : Binary64) : (x.scaled : ℚ) = x.value * unitsPerOne := by
  have hunit : (2 : ℚ) ^ ((x.shift : ℤ) - 1074) * unitsPerOne = 2 ^ x.shift := by
    have hcast : (unitsPerOne : ℚ) = 2 ^ (1074 : ℤ) := cast_two_pow 1074
    rw [hcast, ← zpow_add₀ two_ne_zero, Int.sub_add_cancel, zpow_natCast]
  have hunits : (x.units : ℚ) = x.significand * (2 ^ ((x.shift : ℤ) - 1074) * unitsPerOne) := by
    rw [hunit, units, Nat.cast_mul, Nat.cast_pow, Nat.cast_ofNat]
  rw [scaled, value]
  split
  · rw [Int.cast_neg, Int.cast_natCast, hunits]
    ring
  · rw [Int.cast_natCast, hunits]
    ring

end Binary64

namespace Number

theorem scaled_eq_value (a : Number) : (a.scaled : ℚ) = a.value * Binary64.unitsPerOne := by
  cases a with
  | integer i =>
    change ((i.val * Binary64.unitsPerOne : ℤ) : ℚ) = i.val * Binary64.unitsPerOne
    rw [Int.cast_mul, Int.cast_natCast]
  | float x => exact x.scaled_eq_value

theorem value_le_iff {a b : Number} : a.value ≤ b.value ↔ a.scaled ≤ b.scaled := by
  rw [← Int.cast_le (R := ℚ), scaled_eq_value, scaled_eq_value,
    mul_le_mul_iff_left₀ Binary64.unitsPerOne_pos]

theorem value_lt_iff {a b : Number} : a.value < b.value ↔ a.scaled < b.scaled := by
  rw [← not_le, ← not_le, value_le_iff]

theorem value_eq_iff {a b : Number} : a.value = b.value ↔ a.scaled = b.scaled := by
  rw [le_antisymm_iff, le_antisymm_iff, value_le_iff, value_le_iff]

/-- Numbers are ordered as their values in units. -/
theorem compare_value (a b : Number) : compare a.value b.value = compare a.scaled b.scaled :=
  compare_congr value_lt_iff value_lt_iff

end Number
end Rulebook
