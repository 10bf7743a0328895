import Mathlib.Algebra.Order.Field.Rat
import Mathlib.Data.Nat.Cast.Order.Field
import Rulebook.Number.Shortest
import Rulebook.Proofs.Number.Units

/-!
# Rounding intervals

The rounding interval of a double reaches from the point half way to the double
below it to the point half way to the double above it.  Such a point belongs to
one of the two intervals that meet in it, since of two neighbours one has an even
significand.  So no real lies in the rounding intervals of two doubles.
-/

namespace Rulebook
namespace Binary64

/-- The point half way from a magnitude to the next, in units of `2 ^ (-1076)`. -/
def midpoint (m : Nat) : Nat := 2 * (unitsOf m + unitsOf (m + 1))

theorem midpoint_strictMono : StrictMono midpoint := by
  intro a b hab
  have h := unitsOf_strictMono hab
  have h' := unitsOf_strictMono (Nat.add_lt_add_right hab 1)
  rw [midpoint, midpoint]
  omega

theorem significand_mod_two (x : Binary64) : x.significand % 2 = x.magnitude % 2 := by
  rw [significand]
  split <;> omega

/-- The rounding interval of a double lies between the points half way to its
neighbours. -/
theorem roundingInterval_eq (x : Binary64) {m : Nat} (hm : x.magnitude = m + 1) :
    x.roundingInterval =
      ⟨midpoint m, 4 * x.units, midpoint (m + 1), (m + 1) % 2 == 0⟩ := by
  have hupper : 4 * x.units + 2 * 2 ^ x.shift = midpoint (m + 1) := by
    rw [midpoint, units_eq_unitsOf, hm, unitsOf_succ (m + 1), shift, hm]
    omega
  have hlower : 4 * x.units -
      (if x.magnitude % 2 ^ 52 = 0 ∧ 0 < x.shift then 2 ^ x.shift else 2 * 2 ^ x.shift) =
        midpoint m := by
    rw [midpoint, units_eq_unitsOf, shift, hm, unitsOf_succ m]
    have hbelow : (if (m + 1) % 2 ^ 52 = 0 ∧ 0 < (m + 1) / 2 ^ 52 - 1 then
        2 ^ ((m + 1) / 2 ^ 52 - 1) else 2 * 2 ^ ((m + 1) / 2 ^ 52 - 1)) =
          2 * 2 ^ (m / 2 ^ 52 - 1) := by
      split
      · rename_i hpower
        have hbinade : (m + 1) / 2 ^ 52 - 1 = (m / 2 ^ 52 - 1) + 1 := by omega
        rw [hbinade, Nat.pow_succ, Nat.mul_comm]
      · rename_i hpower
        have hbinade : (m + 1) / 2 ^ 52 - 1 = m / 2 ^ 52 - 1 := by omega
        rw [hbinade]
    rw [hbelow]
    omega
  rw [roundingInterval]
  rw [hupper, hlower, significand_mod_two, hm]

end Binary64

namespace RoundingInterval

/-- A positive real lies in the interval. -/
def Holds (r : RoundingInterval) (q : ℚ) : Prop :=
  if r.closed then (r.lower : ℚ) ≤ q * 2 ^ 1076 ∧ q * 2 ^ 1076 ≤ r.upper
  else (r.lower : ℚ) < q * 2 ^ 1076 ∧ q * 2 ^ 1076 < r.upper

theorem Holds.weak {r : RoundingInterval} {q : ℚ} (h : r.Holds q) :
    (r.lower : ℚ) ≤ q * 2 ^ 1076 ∧ q * 2 ^ 1076 ≤ r.upper := by
  rw [Holds] at h
  split at h
  · exact h
  · exact ⟨le_of_lt h.1, le_of_lt h.2⟩

end RoundingInterval

namespace Binary64

theorem magnitude_le_of_holds {x y : Binary64} (hx : x.magnitude ≠ 0) (hy : y.magnitude ≠ 0)
    {q : ℚ} (h : x.roundingInterval.Holds q) (k : y.roundingInterval.Holds q) :
    y.magnitude ≤ x.magnitude := by
  obtain ⟨m, hm⟩ := Nat.exists_eq_add_one_of_ne_zero hx
  obtain ⟨n, hn⟩ := Nat.exists_eq_add_one_of_ne_zero hy
  rw [roundingInterval_eq x hm] at h
  rw [roundingInterval_eq y hn] at k
  by_contra hlt
  have hle : m + 1 ≤ n := by omega
  have hmid : midpoint (m + 1) ≤ midpoint n := midpoint_strictMono.monotone hle
  have hmid' : (midpoint (m + 1) : ℚ) ≤ midpoint n := Nat.cast_le.2 hmid
  have hupper : q * 2 ^ 1076 ≤ midpoint (m + 1) := h.weak.2
  have hlower : (midpoint n : ℚ) ≤ q * 2 ^ 1076 := k.weak.1
  -- The two intervals meet, so that they are neighbours and share an end.
  have hmeet : (midpoint (m + 1) : ℚ) = midpoint n :=
    le_antisymm hmid' (hlower.trans hupper)
  have hnext : m + 1 = n := midpoint_strictMono.injective (Nat.cast_injective hmeet)
  subst hnext
  have hend : q * 2 ^ 1076 = midpoint (m + 1) := le_antisymm hupper hlower
  rw [RoundingInterval.Holds] at h k
  dsimp only at h k
  rw [hend] at h k
  by_cases heven : (m + 1) % 2 = 0
  · have hodd : ((m + 1 + 1) % 2 == 0) = false := by
      rw [beq_eq_false_iff_ne]
      omega
    rw [hodd, if_neg Bool.false_ne_true] at k
    exact lt_irrefl _ k.1
  · have hodd : ((m + 1) % 2 == 0) = false := beq_eq_false_iff_ne.2 heven
    rw [hodd, if_neg Bool.false_ne_true] at h
    exact lt_irrefl _ h.2

/-- No real lies in the rounding intervals of two magnitudes. -/
theorem magnitude_eq_of_holds {x y : Binary64} (hx : x.magnitude ≠ 0) (hy : y.magnitude ≠ 0)
    {q : ℚ} (h : x.roundingInterval.Holds q) (k : y.roundingInterval.Holds q) :
    x.magnitude = y.magnitude :=
  Nat.le_antisymm (magnitude_le_of_holds hy hx k h) (magnitude_le_of_holds hx hy h k)

end Binary64
end Rulebook
