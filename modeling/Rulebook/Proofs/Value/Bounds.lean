import Mathlib.Algebra.Order.Ring.Abs
import Mathlib.Tactic.Linarith
import Rulebook.Proofs.Evaluation.Passing
import Rulebook.Proofs.Number.Rounding
import Rulebook.Proofs.Value.Equivalence

/-!
# The order of bounds

Two integers, and two doubles, are compared by the numbers that they denote.  An integer and a
double are compared after the integer is rounded, which never turns the order round, but may
make equal what is not: an integer beyond `2 ^ 53` and the double that it rounds to.  Such
numbers are blurred.  All that the order of bounds has in common with the order of the numbers
denoted, it has up to blurred pairs.
-/

namespace Rulebook
namespace Number

/-- An integer and a double that it is not equal to but rounds to, in either order. -/
structure Blurred (a b : Number) : Prop where
  kinds : a.isFloat ≠ b.isFloat
  apart : a.value ≠ b.value
  meet : ∃ x y, a.toBinary64? = some x ∧ b.toBinary64? = some y ∧ x.value = y.value

theorem Blurred.symm {a b : Number} (h : a.Blurred b) : b.Blurred a := by
  obtain ⟨x, y, hx, hy, heq⟩ := h.meet
  exact ⟨h.kinds.symm, h.apart.symm, y, x, hy, hx, heq.symm⟩

theorem natAbs_le (i : WordInt) : i.val.natAbs ≤ 2 ^ 64 := by
  have hlower := i.lower
  have hupper := i.upper
  omega

theorem exists_rounded (i : WordInt) : ∃ r, (integer i).toBinary64? = some r :=
  Binary64.exists_ofInt? (natAbs_le i)

theorem float_value_eq_iff {x y : Binary64} : x.value = y.value ↔ x.scaled = y.scaled :=
  value_eq_iff (a := float x) (b := float y)

/-! ## Comparisons -/

theorem order_symm (a b : Number) : b.order a = (a.order b).map Ordering.swap := by
  have hswap (p q : Int) : compare p q = (compare q p).swap := Std.OrientedCmp.eq_swap
  cases a with
  | integer i =>
    cases b with
    | integer j =>
      rw [order, order, Bool.and_comm i.isSigned, Bool.and_comm i.isUnsigned]
      split
      · exact congrArg some (hswap _ _)
      · cases Binary64.ofInt? i.val <;> cases Binary64.ofInt? j.val <;> simp [← hswap]
    | float y =>
      rw [order, order]
      · cases (float y).toBinary64? <;> cases (integer i).toBinary64? <;> simp [← hswap]
      all_goals simp
  | float x =>
    rw [order, order]
    · cases (float x).toBinary64? <;> cases b.toBinary64? <;> simp [← hswap]
    all_goals simp

/-- Zero and one stay what they are, so that an integer below zero and one above it are not
rounded past each other. -/
theorem scaled_lt_of_signs {i j : Int} {x y : Binary64} (hx : Binary64.ofInt? i = some x)
    (hy : Binary64.ofInt? j = some y) (hi : i ≤ 0) (hj : 1 ≤ j) : x.scaled < y.scaled := by
  have hpos : (0 : Int) < Binary64.unitsPerOne := by exact_mod_cast Binary64.unitsPerOne_pos
  have hzero : (⟨false, 0, by decide⟩ : Binary64).scaled = 0 := by decide
  have hone : (⟨false, 1023 * 2 ^ 52, by decide⟩ : Binary64).scaled = Binary64.unitsPerOne := by
    decide +kernel
  have hle : x.scaled ≤ 0 := by
    rw [← hzero]
    apply Binary64.le_scaled_of_le hx
    rw [hzero]
    exact Int.mul_nonpos_of_nonpos_of_nonneg hi hpos.le
  have hge : (Binary64.unitsPerOne : Int) ≤ y.scaled := by
    rw [← hone]
    apply Binary64.scaled_le_of_le hy
    rw [hone]
    exact le_mul_of_one_le_left hpos.le hj
  omega

theorem compare_integer_values (i j : WordInt) :
    compare (integer i).value (integer j).value = compare i.val j.val :=
  compare_congr Int.cast_lt Int.cast_lt

/-- Integers are compared as what they are: those that no common word holds are rounded first,
but lie on different sides of zero. -/
theorem order_integers (i j : WordInt) :
    (integer i).order (integer j) = some (compare (integer i).value (integer j).value) := by
  rw [order, compare_integer_values]
  split
  · rfl
  · rename_i hwords
    have hsides : (i.val ≤ 0 ∧ 1 ≤ j.val) ∨ (1 ≤ i.val ∧ j.val ≤ 0) := by
      simp only [WordInt.isSigned, WordInt.isUnsigned, Bool.or_eq_true, Bool.and_eq_true,
        decide_eq_true_eq] at hwords
      omega
    obtain ⟨x, hx⟩ := Binary64.exists_ofInt? (natAbs_le i)
    obtain ⟨y, hy⟩ := Binary64.exists_ofInt? (natAbs_le j)
    rw [hx, hy]
    rcases hsides with ⟨hi, hj⟩ | ⟨hi, hj⟩
    · have hlt := scaled_lt_of_signs hx hy hi hj
      exact congrArg some ((compare_lt_iff_lt.2 hlt).trans (compare_lt_iff_lt.2 (by omega)).symm)
    · have hlt := scaled_lt_of_signs hy hx hj hi
      exact congrArg some ((compare_gt_iff_gt.2 hlt).trans (compare_gt_iff_gt.2 (by omega)).symm)

/-- An integer and a double are compared by the double that the integer rounds to. -/
theorem order_integer_float {i : WordInt} {x r : Binary64}
    (hr : Binary64.ofInt? i.val = some r) :
    (integer i).order (float x) = some (compare r.scaled x.scaled) := by
  rw [order]
  · rw [toBinary64?, toBinary64?, hr]
  all_goals simp

theorem order_floats (x y : Binary64) :
    (float x).order (float y) = some (compare (float x).value (float y).value) := by
  rw [compare_value, order]
  · rfl
  all_goals simp

theorem order_of_blurred {a b : Number} (h : a.Blurred b) : a.order b = some .eq := by
  obtain ⟨x, y, hx, hy, heq⟩ := h.meet
  rw [float_value_eq_iff] at heq
  cases a with
  | integer i =>
    cases b with
    | integer j => exact absurd rfl h.kinds
    | float z =>
      cases hy
      rw [order_integer_float hx, heq, compare_eq_iff_eq.2 rfl]
  | float z =>
    cases b with
    | integer j =>
      cases hx
      rw [order_symm (integer j), order_integer_float hy, heq, compare_eq_iff_eq.2 rfl]
      rfl
    | float z' => exact absurd rfl h.kinds

theorem order_integer_of_not_blurred {i : WordInt} {x : Binary64}
    (h : ¬ (integer i).Blurred (float x)) :
    (integer i).order (float x) = some (compare (integer i).value (float x).value) := by
  obtain ⟨r, hr⟩ := exists_rounded i
  have hdistinct : (integer i).value ≠ (float x).value → r.scaled ≠ x.scaled := by
    intro hne heq
    exact h ⟨by simp [isFloat], hne, r, x, hr, rfl, float_value_eq_iff.2 heq⟩
  rw [order_integer_float hr]
  rcases lt_trichotomy (integer i).value (float x).value with hlt | heq | hgt
  · have hle := Binary64.le_scaled_of_le hr (value_lt_iff.1 hlt).le
    have hne := hdistinct hlt.ne
    rw [compare_lt_iff_lt.2 hlt, compare_lt_iff_lt.2 (lt_of_le_of_ne hle hne)]
  · have hscaled := value_eq_iff.1 heq
    have hle := Binary64.le_scaled_of_le hr hscaled.le
    have hge := Binary64.scaled_le_of_le hr hscaled.ge
    rw [compare_eq_iff_eq.2 heq, compare_eq_iff_eq.2 (le_antisymm hle hge)]
  · have hge := Binary64.scaled_le_of_le hr (value_lt_iff.1 hgt).le
    have hne := hdistinct hgt.ne'
    rw [compare_gt_iff_gt.2 hgt, compare_gt_iff_gt.2 (lt_of_le_of_ne hge hne.symm)]

/-- Numbers that are not blurred are compared by what they denote. -/
theorem order_of_not_blurred {a b : Number} (h : ¬ a.Blurred b) :
    a.order b = some (compare a.value b.value) := by
  cases a with
  | integer i =>
    cases b with
    | integer j => exact order_integers i j
    | float y => exact order_integer_of_not_blurred h
  | float x =>
    cases b with
    | integer j =>
      have hsymm := order_integer_of_not_blurred fun hblurred => h hblurred.symm
      rw [order_symm (integer j), hsymm, Option.map_some]
      exact congrArg some Std.OrientedCmp.eq_swap.symm
    | float y => exact order_floats x y

/-! ## Blurred pairs -/

theorem abs_mul_unitsPerOne (a : Number) :
    |a.value| * Binary64.unitsPerOne = a.scaled.natAbs := by
  rw [Nat.cast_natAbs, Int.cast_abs, scaled_eq_value, abs_mul,
    abs_of_pos Binary64.unitsPerOne_pos]

theorem abs_sub_mul_unitsPerOne (a b : Number) :
    |a.value - b.value| * Binary64.unitsPerOne = (a.scaled - b.scaled).natAbs := by
  rw [Nat.cast_natAbs, Int.cast_abs, Int.cast_sub, scaled_eq_value, scaled_eq_value, ← sub_mul,
    abs_mul, abs_of_pos Binary64.unitsPerOne_pos]

theorem Blurred.far_units {a b : Number} (h : a.Blurred b) :
    2 ^ 53 * Binary64.unitsPerOne ≤ a.scaled.natAbs ∧
      2 ^ 53 * (a.scaled - b.scaled).natAbs ≤ a.scaled.natAbs := by
  obtain ⟨x, y, hx, hy, heq⟩ := h.meet
  rw [float_value_eq_iff] at heq
  have hapart := mt value_eq_iff.2 h.apart
  cases a with
  | integer i =>
    cases b with
    | integer j => exact absurd rfl h.kinds
    | float z =>
      cases hy
      have hne : x.scaled ≠ i.val * Binary64.unitsPerOne := fun hstays =>
        hapart (hstays.symm.trans heq)
      have hfar := Binary64.far_of_scaled_ne hx hne
      rw [heq] at hfar
      change 2 ^ 53 * _ ≤ (i.val * Binary64.unitsPerOne : Int).natAbs ∧
        2 ^ 53 * (i.val * Binary64.unitsPerOne - y.scaled).natAbs ≤
          (i.val * Binary64.unitsPerOne : Int).natAbs
      omega
  | float z =>
    cases b with
    | integer j =>
      cases hx
      have hne : y.scaled ≠ j.val * Binary64.unitsPerOne := fun hstays =>
        hapart (heq.trans hstays)
      have hfar := Binary64.far_of_scaled_ne hy hne
      rw [← heq] at hfar
      change 2 ^ 53 * _ ≤ x.scaled.natAbs ∧
        2 ^ 53 * (x.scaled - j.val * Binary64.unitsPerOne).natAbs ≤ x.scaled.natAbs
      omega
    | float z' => exact absurd rfl h.kinds

/-- Blurred numbers lie beyond `2 ^ 53`, and next to each other. -/
theorem Blurred.far {a b : Number} (h : a.Blurred b) :
    2 ^ 53 ≤ |a.value| ∧ 2 ^ 53 * |a.value - b.value| ≤ |a.value| := by
  obtain ⟨hbeyond, hnear⟩ := h.far_units
  have hscale {p q : ℚ} (hpq : p * Binary64.unitsPerOne ≤ q * Binary64.unitsPerOne) : p ≤ q :=
    (mul_le_mul_iff_left₀ Binary64.unitsPerOne_pos).1 hpq
  constructor <;> apply hscale
  · rw [abs_mul_unitsPerOne]
    exact_mod_cast hbeyond
  · rw [mul_assoc, abs_mul_unitsPerOne, abs_sub_mul_unitsPerOne]
    exact_mod_cast hnear

/-! ## The order of bounds -/

/-- One number is no greater than another, as bounds are checked. -/
def AtMost (a b : Number) : Prop := a.order b = some .lt ∨ a.order b = some .eq

theorem atMost_iff {a b : Number} : a.AtMost b ↔ a.value ≤ b.value ∨ a.Blurred b := by
  rw [AtMost]
  by_cases h : a.Blurred b
  · rw [order_of_blurred h]
    exact iff_of_true (Or.inr rfl) (Or.inr h)
  · rw [order_of_not_blurred h, or_iff_left h, Option.some.injEq, Option.some.injEq,
      compare_lt_iff_lt, compare_eq_iff_eq, le_iff_lt_or_eq]

theorem atMost_total (a b : Number) : a.AtMost b ∨ b.AtMost a := by
  rw [atMost_iff, atMost_iff]
  exact (le_total a.value b.value).imp Or.inl Or.inl

theorem AtMost.trans {a b c : Number} (hab : ¬ a.Blurred b) (hbc : ¬ b.Blurred c)
    (h : a.AtMost b) (h' : b.AtMost c) : a.AtMost c := by
  rw [atMost_iff] at *
  exact Or.inl ((h.resolve_right hab).trans (h'.resolve_right hbc))

theorem order_eq_iff {a b : Number} :
    a.order b = some .eq ↔ a.value = b.value ∨ a.Blurred b := by
  by_cases h : a.Blurred b
  · exact iff_of_true (order_of_blurred h) (Or.inr h)
  · rw [order_of_not_blurred h, or_iff_left h, Option.some.injEq, compare_eq_iff_eq]

/-! ## Acceptance -/

end Number

namespace Check

/-- A value passes a check, which hands it on as it is. -/
def Accepts (context : Option Context) (c : Check) (v : Value) : Prop :=
  Run.Passes (c.apply context v) (.next v)

variable {context : Option Context} {m m' : Number} {v : Value}

theorem accepts_max_iff :
    (max (.number m)).Accepts context v ↔ ∃ n, v = .number n ∧ n.AtMost m := by
  rw [Accepts, apply, passes_demand, and_iff_left rfl]
  cases v with
  | number n => simp [Value.order, Number.AtMost]
  | _ => simp [Value.order]

theorem accepts_min_iff :
    (min (.number m)).Accepts context v ↔ ∃ n, v = .number n ∧ m.AtMost n := by
  rw [Accepts, apply, passes_demand, and_iff_left rfl]
  cases v with
  | number n => simp [Value.order, Number.AtMost, Number.order_symm n m]
  | _ => simp [Value.order]

/-- A greater bound accepts no less. -/
theorem accepts_max_of_le (hm : m.value ≤ m'.value) (hv : ∀ n, v = .number n → ¬ n.Blurred m)
    (h : (max (.number m)).Accepts context v) : (max (.number m')).Accepts context v := by
  obtain ⟨n, rfl, hle⟩ := accepts_max_iff.1 h
  have hvalue := (Number.atMost_iff.1 hle).resolve_right (hv n rfl)
  exact accepts_max_iff.2 ⟨n, rfl, Number.atMost_iff.2 (Or.inl (hvalue.trans hm))⟩

/-- A smaller bound accepts no less. -/
theorem accepts_min_of_le (hm : m'.value ≤ m.value) (hv : ∀ n, v = .number n → ¬ m.Blurred n)
    (h : (min (.number m)).Accepts context v) : (min (.number m')).Accepts context v := by
  obtain ⟨n, rfl, hle⟩ := accepts_min_iff.1 h
  have hvalue := (Number.atMost_iff.1 hle).resolve_right (hv n rfl)
  exact accepts_min_iff.2 ⟨n, rfl, Number.atMost_iff.2 (Or.inl (hm.trans hvalue))⟩

end Check

namespace Number

/-- Bounds follow the order of the numbers denoted exactly where nothing is blurred.  What is
blurred counts as equal. -/
theorem order_exact_unless_blurred (context : Option Context) :
    (∀ a b : Number, a.order b = some (compare a.value b.value) ↔ ¬ a.Blurred b) ∧
    (∀ a b : Number, a.Blurred b →
      a.order b = some .eq ∧ 2 ^ 53 ≤ |a.value| ∧ 2 ^ 53 * |a.value - b.value| ≤ |a.value|) ∧
    (∀ a b : Number, a.AtMost b ∨ b.AtMost a) ∧
    (∀ a b c : Number, ¬ a.Blurred b → ¬ b.Blurred c → a.AtMost b → b.AtMost c → a.AtMost c) ∧
    (∀ a b : Number, a.order b = some .eq ↔
      (Value.number a).equivalent (.number b) = true ∨ a.Blurred b) ∧
    (∀ (m m' : Number) (v : Value), m.value ≤ m'.value →
      (∀ n, v = .number n → ¬ n.Blurred m) →
        (Check.max (.number m)).Accepts context v → (Check.max (.number m')).Accepts context v) ∧
    (∀ (m m' : Number) (v : Value), m'.value ≤ m.value →
      (∀ n, v = .number n → ¬ m.Blurred n) →
        (Check.min (.number m)).Accepts context v →
          (Check.min (.number m')).Accepts context v) := by
  refine ⟨fun a b => ?_, fun a b h => ⟨order_of_blurred h, h.far⟩, atMost_total,
    fun a b c => AtMost.trans, fun a b => ?_, fun m m' v => Check.accepts_max_of_le,
    fun m m' v => Check.accepts_min_of_le⟩
  · refine ⟨fun hexact hblurred => ?_, order_of_not_blurred⟩
    rw [order_of_blurred hblurred] at hexact
    exact hblurred.apart (compare_eq_iff_eq.1 (Option.some.inj hexact).symm)
  · rw [order_eq_iff, Value.equivalent_number_iff]

/-- An integer that no double is equal to. -/
def beyondDoubles : Number := integer ⟨2 ^ 53 + 1, by decide, by decide⟩

/-- The double that it rounds to. -/
def roundedDouble : Number := float ⟨false, 1076 * 2 ^ 52, by decide⟩

/-- The integer that is equal to the double. -/
def roundedInteger : Number := integer ⟨2 ^ 53, by decide, by decide⟩

theorem beyondDoubles_blurred : beyondDoubles.Blurred roundedDouble where
  kinds := by decide
  apart := by
    rw [Ne, value_eq_iff]
    decide +kernel
  meet := ⟨⟨false, 1076 * 2 ^ 52, by decide⟩, _, by decide +kernel, rfl, rfl⟩

/-- The integer `2 ^ 53 + 1` counts as equal to the double `2 ^ 53`, and that is equal to the
integer `2 ^ 53`, but the one integer is greater than the other. -/
theorem order_exact_unless_blurred_beyond :
    beyondDoubles.order roundedDouble = some .eq ∧ roundedDouble.order roundedInteger = some .eq ∧
      beyondDoubles.order roundedInteger = some .gt ∧ roundedDouble.AtMost beyondDoubles ∧
      (Check.max (.number beyondDoubles)).Accepts none (.number roundedInteger) ∧
      (Check.min (.number roundedDouble)).Accepts none (.number beyondDoubles) := by
  have hequal : roundedDouble.value = roundedInteger.value := by
    rw [value_eq_iff]
    decide +kernel
  have hless : roundedInteger.value < beyondDoubles.value := by
    rw [value_lt_iff]
    decide +kernel
  have hclear : ¬ roundedDouble.Blurred roundedInteger := fun h => h.apart hequal
  have hclear' : ¬ roundedInteger.Blurred beyondDoubles := fun h => h.kinds rfl
  have hself : ¬ beyondDoubles.Blurred beyondDoubles := fun h => h.kinds rfl
  obtain ⟨hexact, hblurred, -, htrans, heq, hmax, hmin⟩ := order_exact_unless_blurred none
  refine ⟨(hblurred _ _ beyondDoubles_blurred).1,
    (heq _ _).2 (Or.inl (Value.equivalent_number_iff.2 hequal)), ?_, ?_, ?_, ?_⟩
  · rw [(hexact _ _).2 fun h => hclear' h.symm, compare_gt_iff_gt.2 hless]
  · exact htrans _ _ _ hclear hclear' (atMost_iff.2 (Or.inl hequal.le))
      (atMost_iff.2 (Or.inl hless.le))
  · refine hmax roundedDouble beyondDoubles _ (hequal.le.trans hless.le) ?_ ?_
    · rintro n ⟨⟩
      exact fun h => hclear h.symm
    · exact Check.accepts_max_iff.2 ⟨_, rfl, atMost_iff.2 (Or.inl hequal.ge)⟩
  · refine hmin beyondDoubles roundedDouble _ (hequal.le.trans hless.le) ?_ ?_
    · rintro n ⟨⟩
      exact hself
    · exact Check.accepts_min_iff.2 ⟨_, rfl, atMost_iff.2 (Or.inl le_rfl)⟩

end Number
end Rulebook
