import Mathlib.Algebra.Group.Nat.Defs
import Mathlib.Order.Monotone.Basic
import Rulebook.Number.Binary64

/-!
# The values of doubles in units

The absolute value of a double in units of `2 ^ (-1074)` is a function of its
magnitude alone.  From one magnitude to the next it grows by the power of two of
the binade, so that it grows strictly.  Two doubles have the same value only if
they are the same, or both are zero.
-/

namespace Rulebook
namespace Binary64

/-- The absolute value that belongs to a magnitude, in units of `2 ^ (-1074)`. -/
def unitsOf (m : Nat) : Nat :=
  (if m / 2 ^ 52 = 0 then m else 2 ^ 52 + m % 2 ^ 52) * 2 ^ (m / 2 ^ 52 - 1)

theorem units_eq_unitsOf (x : Binary64) : x.units = unitsOf x.magnitude := rfl

theorem unitsOf_zero : unitsOf 0 = 0 := by decide

/-- Within a binade, values are a power of two apart; the first value of the next
binade is as far away. -/
theorem unitsOf_succ (m : Nat) : unitsOf (m + 1) = unitsOf m + 2 ^ (m / 2 ^ 52 - 1) := by
  have hm : m = 2 ^ 52 * (m / 2 ^ 52) + m % 2 ^ 52 := (Nat.div_add_mod m _).symm
  have hlt : m % 2 ^ 52 < 2 ^ 52 := Nat.mod_lt _ (by decide)
  generalize m / 2 ^ 52 = e at hm
  generalize m % 2 ^ 52 = f at hm hlt
  by_cases hcarry : f + 1 < 2 ^ 52
  · have hdiv : (m + 1) / 2 ^ 52 = e := by omega
    have hmod : (m + 1) % 2 ^ 52 = f + 1 := by omega
    have hdiv' : m / 2 ^ 52 = e := by omega
    have hmod' : m % 2 ^ 52 = f := by omega
    rw [unitsOf, unitsOf, hdiv, hmod, hdiv', hmod']
    split
    · rw [Nat.add_mul, Nat.one_mul]
    · rw [← Nat.add_assoc, Nat.add_mul (2 ^ 52 + f), Nat.one_mul]
  · have hf : f = 2 ^ 52 - 1 := by omega
    have hdiv : (m + 1) / 2 ^ 52 = e + 1 := by omega
    have hmod : (m + 1) % 2 ^ 52 = 0 := by omega
    have hdiv' : m / 2 ^ 52 = e := by omega
    have hmod' : m % 2 ^ 52 = f := by omega
    rw [unitsOf, unitsOf, hdiv, hmod, hdiv', hmod', if_neg (Nat.succ_ne_zero e), hf]
    cases e with
    | zero => rw [hm, hf]; rfl
    | succ e =>
      rw [if_neg (Nat.succ_ne_zero e), Nat.add_sub_cancel, Nat.add_sub_cancel, Nat.pow_succ]
      omega

theorem unitsOf_strictMono : StrictMono unitsOf :=
  strictMono_nat_of_lt_succ fun m => by
    rw [unitsOf_succ]
    exact Nat.lt_add_of_pos_right (Nat.two_pow_pos _)

/-- Doubles of one absolute value have one magnitude. -/
theorem magnitude_eq_of_units_eq {x y : Binary64} (h : x.units = y.units) :
    x.magnitude = y.magnitude :=
  unitsOf_strictMono.injective h

theorem units_eq_zero_iff (x : Binary64) : x.units = 0 ↔ x.magnitude = 0 := by
  rw [units_eq_unitsOf]
  constructor
  · intro h
    exact unitsOf_strictMono.injective (h.trans unitsOf_zero.symm)
  · intro h
    rw [h, unitsOf_zero]

/-- Whether the number is the zero with a sign. -/
def isNegativeZero (x : Binary64) : Bool := x.negative && x.magnitude == 0

/-- Only the two zeros have the same value without being the same. -/
theorem eq_of_sameValue {x y : Binary64} (hx : x.isNegativeZero = false)
    (hy : y.isNegativeZero = false) (h : x.sameValue y = true) : x = y := by
  have hscaled : x.scaled = y.scaled := by simpa [sameValue] using h
  have hzero {z : Binary64} (hz : z.isNegativeZero = false) (hn : z.negative = true) :
      0 < z.units := by
    refine Nat.pos_of_ne_zero fun h0 => ?_
    rw [units_eq_zero_iff] at h0
    simp [isNegativeZero, hn, h0] at hz
  have hparts : x.negative = y.negative ∧ x.units = y.units := by
    rw [scaled, scaled] at hscaled
    cases hnx : x.negative <;> cases hny : y.negative <;>
      simp only [hnx, hny, if_true, Bool.false_eq_true, if_false] at hscaled
    · exact ⟨rfl, by omega⟩
    · have := hzero hy hny
      omega
    · have := hzero hx hnx
      omega
    · exact ⟨rfl, by omega⟩
  obtain ⟨nx, mx, fx⟩ := x
  obtain ⟨ny, my, fy⟩ := y
  have hmagnitude : mx = my := magnitude_eq_of_units_eq hparts.2
  have hnegative : nx = ny := hparts.1
  subst hmagnitude hnegative
  rfl

end Binary64
end Rulebook
