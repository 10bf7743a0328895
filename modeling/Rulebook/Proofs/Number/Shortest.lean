import Mathlib.Algebra.Order.Field.Power
import Mathlib.Data.Nat.Cast.Order.Field
import Mathlib.Tactic.FieldSimp
import Mathlib.Tactic.Linarith
import Mathlib.Tactic.Positivity
import Mathlib.Tactic.Ring
import Rulebook.Proofs.Number.Interval

/-!
# The shortest digits round to the double

Seventeen digits suffice: on the grid of the seventeenth digit two neighbours are
closer to each other than the ends of the rounding interval, so that one of the
neighbours of a double lies in its interval.  So the search ends at a point of the
interval, and the digits found stand for a real that rounds to the double.
-/

namespace Rulebook

/-- The number that digits with a power of ten stand for. -/
def DecimalForm.value (d : DecimalForm) : ℚ := d.digits * 10 ^ d.exponent

/-- Moving factors of ten into the exponent keeps the number. -/
theorem DecimalForm.value_strip (fuel : Nat) (d : DecimalForm) :
    (d.strip fuel).value = d.value := by
  induction fuel generalizing d with
  | zero => rfl
  | succ fuel ih =>
    rw [strip]
    split
    · rename_i hten
      rw [ih, value, value]
      dsimp only
      have hdigits : d.digits = d.digits / 10 * 10 := by omega
      rw [zpow_add_one₀ (by norm_num)]
      conv_rhs => rw [hdigits]
      push_cast
      ring
    · rfl

namespace RoundingInterval

variable {r : RoundingInterval} {tieUp : Bool} {k top : Int}

theorem contains_iff {c num den : Nat} (hden : 0 < den)
    (hscale : (num : ℚ) = 2 ^ 1076 * 10 ^ k * den) :
    r.contains c num den = true ↔ r.Holds (c * 10 ^ k) := by
  have hpos : (0 : ℚ) < den := Nat.cast_pos.2 hden
  have hvalue : ((c * num : Nat) : ℚ) = (c * 10 ^ k * 2 ^ 1076) * den := by
    rw [Nat.cast_mul, hscale]
    generalize (2 : ℚ) ^ 1076 = unit
    ring
  have hle : ∀ a : Nat, a * den ≤ c * num ↔ (a : ℚ) ≤ c * 10 ^ k * 2 ^ 1076 := by
    intro a
    rw [← Nat.cast_le (α := ℚ), hvalue, Nat.cast_mul, mul_le_mul_iff_left₀ hpos]
  have hge : ∀ b : Nat, c * num ≤ b * den ↔ (c * 10 ^ k * 2 ^ 1076 : ℚ) ≤ b := by
    intro b
    rw [← Nat.cast_le (α := ℚ), hvalue, Nat.cast_mul, mul_le_mul_iff_left₀ hpos]
  rw [contains, Holds]
  split
  · rw [decide_eq_true_iff, hle, hge]
  · rw [decide_eq_true_iff, ← not_le, ← not_le, hle, hge, not_le, not_le]

theorem scale_eq (k : Int) : ((2 ^ 1076 * 10 ^ k.toNat : Nat) : ℚ) =
    2 ^ 1076 * 10 ^ k * ((10 ^ (-k).toNat : Nat) : ℚ) := by
  have hsplit : (10 : ℚ) ^ k.toNat = 10 ^ k * 10 ^ (-k).toNat := by
    rw [← zpow_natCast, ← zpow_natCast, ← zpow_add₀ (by norm_num)]
    congr 1
    omega
  rw [Nat.cast_mul, Nat.cast_pow, Nat.cast_pow, Nat.cast_pow, Nat.cast_ofNat, Nat.cast_ofNat, hsplit,
    mul_assoc]

theorem contains_grid (c : Nat) : r.contains c (2 ^ 1076 * 10 ^ k.toNat) (10 ^ (-k).toNat) = true ↔
    r.Holds (c * 10 ^ k) :=
  contains_iff (by positivity) (scale_eq k)

/-- A point that is found on a grid lies in the interval. -/
theorem holds_of_gridPoint? {c : Nat} (h : r.gridPoint? tieUp k = some c) :
    r.Holds (c * 10 ^ k) := by
  rw [gridPoint?] at h
  split at h
  · rename_i hlow hhigh
    split at h
    · rw [← Option.some.inj h]
      exact (contains_grid _).1 hhigh
    · rw [← Option.some.inj h]
      exact (contains_grid _).1 hlow
  · rename_i hlow _
    rw [← Option.some.inj h]
    exact (contains_grid _).1 hlow
  · rename_i _ hhigh
    rw [← Option.some.inj h]
    exact (contains_grid _).1 hhigh
  · cases h

/-- If neither of the two points beside the value is in the interval, then the interval has
no points beyond them. -/
theorem between_of_missed {low num den : Nat} (hlower : r.lower * den < r.value * den)
    (hupper : r.value * den < r.upper * den) (hbelow : low * num ≤ r.value * den)
    (habove : r.value * den < (low + 1) * num) (hlow : r.contains low num den = false)
    (hhigh : r.contains (low + 1) num den = false) :
    low * num ≤ r.lower * den ∧ r.upper * den ≤ (low + 1) * num := by
  rw [contains, Bool.eq_false_iff] at hlow hhigh
  by_cases hclosed : r.closed = true
  · rw [if_pos hclosed] at hlow hhigh
    simp only [ne_eq, decide_eq_true_iff, not_and, not_le] at hlow hhigh
    constructor <;> by_contra hlt
    · have := hlow (by omega)
      omega
    · have := hhigh (by omega)
      omega
  · rw [if_neg hclosed] at hlow hhigh
    simp only [ne_eq, decide_eq_true_iff, not_and, not_lt] at hlow hhigh
    constructor <;> by_contra hlt
    · have := hlow (by omega)
      omega
    · have := hhigh (by omega)
      omega

/-- A grid that is finer than the interval has a point in it. -/
theorem isSome_gridPoint? (tieUp : Bool) (hlower : r.lower < r.value) (hupper : r.value < r.upper)
    (hfine : (2 : ℚ) ^ 1076 * 10 ^ k < r.upper - r.lower) : (r.gridPoint? tieUp k).isSome := by
  have hden : 0 < 10 ^ (-k).toNat := by positivity
  rw [gridPoint?]
  split
  · rfl
  · rfl
  · rfl
  rename_i hlow hhigh
  exfalso
  have hscale := scale_eq k
  generalize hnum : 2 ^ 1076 * 10 ^ k.toNat = num at hlow hhigh hscale
  generalize 10 ^ (-k).toNat = den at hlow hhigh hscale hden
  have hnumPos : 0 < num := by
    rw [← hnum]
    positivity
  have hdiv := Nat.div_add_mod (r.value * den) num
  have hmod := Nat.mod_lt (r.value * den) hnumPos
  generalize r.value * den / num = low at hlow hhigh hdiv
  generalize r.value * den % num = rest at hdiv hmod
  have hdenPos : (0 : ℚ) < den := Nat.cast_pos.2 hden
  -- The neighbours of the value are at most its own distance from the ends away.
  have hbelow : low * num ≤ r.value * den := by nlinarith
  have habove : r.value * den < (low + 1) * num := by nlinarith
  have hwide : num < (r.upper - r.lower) * den := by
    have hcast : ((r.upper - r.lower : Nat) : ℚ) = r.upper - r.lower :=
      Nat.cast_sub (by omega)
    have hmul := mul_lt_mul_of_pos_right hfine hdenPos
    rw [← hscale, ← hcast, ← Nat.cast_mul] at hmul
    exact Nat.cast_lt.1 hmul
  have hends := between_of_missed (Nat.mul_lt_mul_of_pos_right hlower hden)
    (Nat.mul_lt_mul_of_pos_right hupper hden) hbelow habove hlow hhigh
  have hnarrow : (r.upper - r.lower) * den ≤ num := by
    rw [Nat.sub_mul]
    have := hends.1
    have := hends.2
    rw [Nat.add_mul, Nat.one_mul] at this
    omega
  omega

/-- The search over the grids finds a point of the interval if there is one. -/
theorem holds_firstGrid {used left : Nat} (h : ∃ n, used ≤ n ∧ n < used + left ∧
      (r.gridPoint? tieUp (top - n)).isSome) :
    r.Holds (r.firstGrid tieUp top used left).value := by
  induction left generalizing used with
  | zero =>
    obtain ⟨n, hle, hlt, -⟩ := h
    omega
  | succ left ih =>
    rw [firstGrid]
    split
    · rename_i c hc
      exact holds_of_gridPoint? hc
    · rename_i hnone
      apply ih
      obtain ⟨n, hle, hlt, hsome⟩ := h
      have hne : n ≠ used := by
        rintro rfl
        rw [hnone] at hsome
        cases hsome
      exact ⟨n, by omega, by omega, hsome⟩

end RoundingInterval

namespace Binary64

/-! ## Seventeen digits -/

theorem units_pos {x : Binary64} (hx : x.magnitude ≠ 0) : 0 < x.units :=
  Nat.pos_of_ne_zero fun h => hx ((units_eq_zero_iff x).1 h)

/-- A nonzero double is no smaller than the power of ten of its leading digit. -/
theorem leadingExponent_le {x : Binary64} (hx : x.magnitude ≠ 0) :
    (2 : ℚ) ^ 1076 * 10 ^ x.leadingExponent ≤ 4 * x.units := by
  have hone : unitsPerOne ≤ x.units * 10 ^ 400 := by
    have hle : unitsPerOne ≤ 1 * 10 ^ 400 := by decide +kernel
    exact hle.trans (Nat.mul_le_mul_right _ (units_pos hx))
  have hunit : 0 < unitsPerOne := Nat.pow_pos (by decide)
  have hfloor : 0 < x.units * 10 ^ 400 / unitsPerOne := Nat.div_pos hone hunit
  have hmul : x.units * 10 ^ 400 / unitsPerOne * unitsPerOne ≤ x.units * 10 ^ 400 :=
    Nat.div_mul_le_self _ _
  rw [leadingExponent]
  generalize x.units * 10 ^ 400 / unitsPerOne = floor at hfloor hmul
  have hlength : 10 ^ (decimalLength floor - 1) ≤ floor := by
    by_cases hone : decimalLength floor - 1 = 0
    · rw [hone]
      exact hfloor
    · have hlt : ¬ (Nat.toDigits 10 floor).length ≤ decimalLength floor - 1 := by
        rw [decimalLength] at hone ⊢
        omega
      rw [Nat.length_toDigits_le_iff (by decide) (Nat.pos_of_ne_zero hone)] at hlt
      exact Nat.le_of_not_lt hlt
  have hpos : 0 < decimalLength floor := Nat.length_toDigits_pos
  have hexponent :
      (decimalLength floor : Int) - 401 = ((decimalLength floor - 1 : Nat) : Int) - 400 := by
    omega
  have hnat : 10 ^ (decimalLength floor - 1) * unitsPerOne ≤ x.units * 10 ^ 400 :=
    (Nat.mul_le_mul_right _ hlength).trans hmul
  have hcast := (Nat.cast_le (α := ℚ)).2 hnat
  rw [Nat.cast_mul, Nat.cast_mul, Nat.cast_pow, Nat.cast_pow, Nat.cast_ofNat, unitsPerOne,
    Nat.cast_pow, Nat.cast_ofNat] at hcast
  have hunits : (2 : ℚ) ^ 1076 = 2 ^ 1074 * 2 ^ 2 := pow_add 2 1074 2
  have hscale : (10 : ℚ) ^ (400 : Int) = 10 ^ 400 := zpow_natCast 10 400
  have hscalePos : (0 : ℚ) < 10 ^ 400 := by positivity
  rw [hexponent, zpow_sub₀ (by norm_num), zpow_natCast, hunits, hscale, ← mul_div_assoc,
    div_le_iff₀ hscalePos]
  generalize (10 : ℚ) ^ 400 = scale at hcast
  generalize (2 : ℚ) ^ 1074 = unit at hcast
  linarith

/-- The rounding interval of a double is wider than the unit of its seventeenth
digit. -/
theorem width_lt {x : Binary64} {m : Nat} (hm : x.magnitude = m + 1) :
    4 * x.units < 10 ^ 16 * (midpoint (m + 1) - midpoint m) := by
  have hwidth : midpoint (m + 1) - midpoint m =
      2 * (2 ^ ((m + 1) / 2 ^ 52 - 1) + 2 ^ (m / 2 ^ 52 - 1)) := by
    rw [midpoint, midpoint, unitsOf_succ (m + 1), unitsOf_succ m]
    omega
  have hstep : 0 < 2 ^ (m / 2 ^ 52 - 1) := Nat.two_pow_pos _
  rw [hwidth, units_eq_unitsOf, hm, unitsOf]
  by_cases hpower : (m + 1) % 2 ^ 52 = 0 ∧ 0 < (m + 1) / 2 ^ 52 - 1
  · have hbinade : (m + 1) / 2 ^ 52 - 1 = (m / 2 ^ 52 - 1) + 1 := by omega
    rw [if_neg (by omega), hpower.1, hbinade, Nat.pow_succ]
    generalize 2 ^ (m / 2 ^ 52 - 1) = step at hstep
    omega
  · have hbinade : (m + 1) / 2 ^ 52 - 1 = m / 2 ^ 52 - 1 := by omega
    rw [hbinade]
    generalize 2 ^ (m / 2 ^ 52 - 1) = step at hstep
    have hlt : (if (m + 1) / 2 ^ 52 = 0 then m + 1 else 2 ^ 52 + (m + 1) % 2 ^ 52) < 10 ^ 16 := by
      split <;> omega
    nlinarith

/-- The shortest digits of a double stand for a number that rounds to it. -/
theorem shortest_holds {x : Binary64} (hx : x.magnitude ≠ 0) (tieUp : Bool) :
    x.roundingInterval.Holds (x.shortest tieUp).value := by
  rw [shortest, DecimalForm.value_strip]
  refine RoundingInterval.holds_firstGrid ⟨16, by omega, by omega, ?_⟩
  obtain ⟨m, hm⟩ := Nat.exists_eq_add_one_of_ne_zero hx
  have hwidth := width_lt hm
  have hlead := leadingExponent_le hx
  have hlower : midpoint m < 4 * x.units := by
    rw [midpoint, units_eq_unitsOf, hm]
    have hlt : unitsOf m < unitsOf (m + 1) := unitsOf_strictMono (Nat.lt_succ_self m)
    omega
  have hupper : 4 * x.units < midpoint (m + 1) := by
    rw [midpoint, units_eq_unitsOf, hm]
    have hlt : unitsOf (m + 1) < unitsOf (m + 1 + 1) :=
      unitsOf_strictMono (Nat.lt_succ_self (m + 1))
    omega
  rw [roundingInterval_eq x hm]
  refine RoundingInterval.isSome_gridPoint? tieUp hlower hupper ?_
  have hcast := (Nat.cast_lt (α := ℚ)).2 hwidth
  rw [Nat.cast_mul, Nat.cast_mul, Nat.cast_sub (by omega), Nat.cast_pow, Nat.cast_ofNat,
    Nat.cast_ofNat] at hcast
  have hpower : (10 : ℚ) ^ (x.leadingExponent - (16 : Nat)) = 10 ^ x.leadingExponent / 10 ^ 16 := by
    rw [zpow_sub₀ (by norm_num), zpow_natCast]
  rw [hpower, ← mul_div_assoc, div_lt_iff₀ (by positivity)]
  generalize (2 : ℚ) ^ 1076 * 10 ^ x.leadingExponent = lead at hlead
  linarith

/-- Doubles are told apart by the numbers that their shortest digits stand for. -/
theorem eq_of_shortest_eq {x y : Binary64} (hx : x.magnitude ≠ 0) (hy : y.magnitude ≠ 0)
    {tieUp : Bool} (h : (x.shortest tieUp).value = (y.shortest tieUp).value) :
    x.magnitude = y.magnitude := by
  have hholds := shortest_holds hx tieUp
  rw [h] at hholds
  exact magnitude_eq_of_holds hx hy hholds (shortest_holds hy tieUp)

/-- The shortest digits of a nonzero double are not zero. -/
theorem shortest_digits_ne_zero {x : Binary64} (hx : x.magnitude ≠ 0) (tieUp : Bool) :
    (x.shortest tieUp).digits ≠ 0 := by
  intro hzero
  obtain ⟨m, hm⟩ := Nat.exists_eq_add_one_of_ne_zero hx
  have hholds := (shortest_holds hx tieUp).weak.1
  rw [roundingInterval_eq x hm, DecimalForm.value, hzero] at hholds
  dsimp only at hholds
  rw [Nat.cast_zero, zero_mul, zero_mul] at hholds
  have hpos : 0 < midpoint m := by
    have hlt : unitsOf m < unitsOf (m + 1) := unitsOf_strictMono (Nat.lt_succ_self m)
    rw [midpoint]
    omega
  exact absurd hholds (not_le.2 (Nat.cast_pos.2 hpos))

end Binary64
end Rulebook
