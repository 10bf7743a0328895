import Rulebook.Proofs.Number.Units

/-!
# Rounding to doubles

Rounding keeps the order: what is no smaller than a double does not round below it, and what
is no greater does not round above it.  So doubles round to themselves.  A number that is
rounded moves by at most half of the distance between the doubles around it.
-/

namespace Rulebook

/-! ## Quotients -/

section

variable {num den c : Nat} (hden : 0 < den)
include hden

theorem roundHalfEven_le (h : num ≤ c * den) : roundHalfEven num den ≤ c := by
  have hsplit := Nat.div_add_mod' num den
  have hmod := Nat.mod_lt num hden
  rw [roundHalfEven]
  by_cases hq : num / den < c
  · split
    · omega
    · split <;> omega
  · -- The quotient is whole, so that nothing is rounded.
    have hle : c * den ≤ num / den * den := Nat.mul_le_mul_right den (Nat.le_of_not_lt hq)
    rw [if_pos (by omega)]
    exact (Nat.div_le_div_right h).trans (Nat.mul_div_cancel c hden).le

theorem le_roundHalfEven (h : c * den ≤ num) : c ≤ roundHalfEven num den := by
  have hq : c ≤ num / den := (Nat.le_div_iff_mul_le hden).2 h
  rw [roundHalfEven]
  split
  · exact hq
  · split <;> omega

/-- A quotient moves by at most one half. -/
theorem roundHalfEven_error :
    2 * (roundHalfEven num den * den) ≤ 2 * num + den ∧
      2 * num ≤ 2 * (roundHalfEven num den * den) + den := by
  have hsplit := Nat.div_add_mod' num den
  have hmod := Nat.mod_lt num hden
  have hnext : (num / den + 1) * den = num / den * den + den := Nat.succ_mul _ _
  rw [roundHalfEven]
  split
  · omega
  · split
    · omega
    · rcases Nat.mod_two_eq_zero_or_one (num / den) with heven | hodd
      · rw [heven, Nat.add_zero]
        omega
      · rw [hodd]
        omega

end

namespace Binary64

/-! ## Magnitudes -/

/-- The value of a significand in a binade; it may be the first one of the next binade. -/
theorem unitsOf_binade {k s : Nat} (hs : s ≤ 2 ^ 53) (hk : k = 0 ∨ 2 ^ 52 ≤ s) :
    unitsOf (k * 2 ^ 52 + s) = s * 2 ^ k := by
  rw [unitsOf]
  by_cases hsmall : s < 2 ^ 52
  · obtain rfl : k = 0 := hk.resolve_right (Nat.not_le.2 hsmall)
    have hdiv : (0 * 2 ^ 52 + s) / 2 ^ 52 = 0 := by omega
    rw [hdiv, if_pos rfl, Nat.zero_mul, Nat.zero_add]
  · by_cases hnext : s = 2 ^ 53
    · subst hnext
      have hdiv : (k * 2 ^ 52 + 2 ^ 53) / 2 ^ 52 = k + 2 := by omega
      have hmod : (k * 2 ^ 52 + 2 ^ 53) % 2 ^ 52 = 0 := by omega
      have hshift : k + 2 - 1 = k + 1 := rfl
      rw [hdiv, hmod, if_neg (Nat.succ_ne_zero _), hshift, Nat.pow_succ]
      omega
    · have hdiv : (k * 2 ^ 52 + s) / 2 ^ 52 = k + 1 := by omega
      have hmod : 2 ^ 52 + (k * 2 ^ 52 + s) % 2 ^ 52 = s := by omega
      rw [hdiv, hmod, if_neg (Nat.succ_ne_zero _), Nat.add_sub_cancel]

/-- The magnitude that rounding leads to, with the binade and the significand from which it
is put together. -/
structure Rounded (num den : Nat) where
  binade : Nat
  significand : Nat
  significand_eq : significand = roundHalfEven num (den * 2 ^ binade)
  den_pos : 0 < den
  significand_le : significand ≤ 2 ^ 53
  /-- Numbers above the least binade fill the significand. -/
  full : binade = 0 ∨ 2 ^ 52 * (den * 2 ^ binade) ≤ num

namespace Rounded

variable {num den : Nat} (r : Rounded num den)

/-- The magnitude that is put together. -/
def magnitude : Nat := r.binade * 2 ^ 52 + r.significand

theorem step_pos : 0 < den * 2 ^ r.binade := Nat.mul_pos r.den_pos (Nat.two_pow_pos _)

theorem le_significand : r.binade = 0 ∨ 2 ^ 52 ≤ r.significand :=
  r.full.imp_right fun h => r.significand_eq ▸ le_roundHalfEven r.step_pos h

theorem unitsOf_magnitude : unitsOf r.magnitude = r.significand * 2 ^ r.binade :=
  unitsOf_binade r.significand_le r.le_significand

theorem units_mul_den : unitsOf r.magnitude * den = r.significand * (den * 2 ^ r.binade) := by
  rw [r.unitsOf_magnitude, Nat.mul_assoc, Nat.mul_comm (2 ^ r.binade)]

/-- What is no smaller than a double does not round below it. -/
theorem le_magnitude {m : Nat} (h : unitsOf m * den ≤ num) : m ≤ r.magnitude := by
  by_contra hlt
  -- The next double is already further away than what was rounded.
  have hnext : r.magnitude + 1 ≤ m := Nat.lt_of_not_le hlt
  have hbinade : r.binade ≤ r.magnitude / 2 ^ 52 - 1 := by
    have hfull := r.le_significand
    rw [magnitude]
    omega
  have hunits : (r.significand + 1) * 2 ^ r.binade ≤ unitsOf m := by
    have hmono := unitsOf_strictMono.monotone hnext
    have hstep : 2 ^ r.binade ≤ 2 ^ (r.magnitude / 2 ^ 52 - 1) :=
      Nat.pow_le_pow_right (by decide) hbinade
    rw [unitsOf_succ, r.unitsOf_magnitude] at hmono
    rw [Nat.succ_mul]
    omega
  have hle : (r.significand + 1) * (den * 2 ^ r.binade) ≤ num := by
    refine le_trans (le_of_eq ?_) ((Nat.mul_le_mul_right den hunits).trans h)
    rw [Nat.mul_assoc, Nat.mul_comm den]
  have hround := le_roundHalfEven r.step_pos hle
  rw [← r.significand_eq] at hround
  omega

/-- What is no greater than a double does not round above it. -/
theorem magnitude_le {m : Nat} (h : num ≤ unitsOf m * den) : r.magnitude ≤ m := by
  by_contra hlt
  have hprevious : m + 1 ≤ r.magnitude := Nat.lt_of_not_le hlt
  by_cases hfirst : r.binade = 0 ∨ 2 ^ 52 < r.significand
  · have hpos : 0 < r.significand := by
      rcases hfirst with hzero | hlarge
      · rw [magnitude, hzero] at hprevious
        omega
      · omega
    have hbefore : unitsOf (r.magnitude - 1) = (r.significand - 1) * 2 ^ r.binade := by
      have hle := r.significand_le
      have hmagnitude : r.magnitude - 1 = r.binade * 2 ^ 52 + (r.significand - 1) := by
        rw [magnitude]
        omega
      rw [hmagnitude]
      exact unitsOf_binade (by omega) (by omega)
    have hunits : unitsOf m ≤ (r.significand - 1) * 2 ^ r.binade := by
      rw [← hbefore]
      exact unitsOf_strictMono.monotone (by omega)
    have hle : num ≤ (r.significand - 1) * (den * 2 ^ r.binade) := by
      refine (h.trans (Nat.mul_le_mul_right den hunits)).trans (le_of_eq ?_)
      rw [Nat.mul_assoc, Nat.mul_comm den]
    have hround := roundHalfEven_le r.step_pos hle
    rw [← r.significand_eq] at hround
    omega
  · -- The first double of a binade is only reached by what is no smaller.
    have hfull : 2 ^ 52 * (den * 2 ^ r.binade) ≤ num := r.full.resolve_left (by omega)
    have hsignificand : r.significand = 2 ^ 52 := by
      have := r.le_significand
      omega
    have hmono : unitsOf m < unitsOf r.magnitude := unitsOf_strictMono hprevious
    have hmul := Nat.mul_lt_mul_of_pos_right hmono r.den_pos
    rw [r.units_mul_den, hsignificand] at hmul
    omega

/-- What is rounded moves by at most half a step. -/
theorem error : 2 * (unitsOf r.magnitude * den) ≤ 2 * num + den * 2 ^ r.binade ∧
    2 * num ≤ 2 * (unitsOf r.magnitude * den) + den * 2 ^ r.binade := by
  rw [r.units_mul_den, r.significand_eq]
  exact roundHalfEven_error r.step_pos

/-- How a quotient is rounded. -/
def of (num : Nat) {den : Nat} (hden : 0 < den) : Rounded num den where
  binade := Nat.log2 (num / den) - 52
  significand := roundHalfEven num (den * 2 ^ (Nat.log2 (num / den) - 52))
  significand_eq := rfl
  den_pos := hden
  significand_le := by
    apply roundHalfEven_le (Nat.mul_pos hden (Nat.two_pow_pos _))
    have hlog : num / den < 2 ^ (Nat.log2 (num / den) + 1) := Nat.lt_log2_self
    have hpow : 2 ^ (Nat.log2 (num / den) + 1) ≤ 2 ^ (53 + (Nat.log2 (num / den) - 52)) :=
      Nat.pow_le_pow_right (by decide) (by omega)
    have hlt : num < 2 ^ (53 + (Nat.log2 (num / den) - 52)) * den :=
      (Nat.div_lt_iff_lt_mul hden).1 (lt_of_lt_of_le hlog hpow)
    rw [Nat.pow_add, Nat.mul_assoc, Nat.mul_comm (2 ^ _) den] at hlt
    exact hlt.le
  full := by
    by_cases hsmall : Nat.log2 (num / den) - 52 = 0
    · exact Or.inl hsmall
    · right
      have hne : num / den ≠ 0 := by
        intro hzero
        rw [hzero] at hsmall
        exact hsmall (by decide)
      have hlog : 2 ^ Nat.log2 (num / den) ≤ num / den := Nat.log2_self_le hne
      have hsum : Nat.log2 (num / den) = 52 + (Nat.log2 (num / den) - 52) := by omega
      rw [hsum, Nat.pow_add, Nat.le_div_iff_mul_le hden, Nat.mul_assoc,
        Nat.mul_comm (2 ^ _) den] at hlog
      exact hlog

end Rounded

/-- The magnitude nearest to a quotient is the one that rounding leads to. -/
theorem nearestMagnitude_eq_some_iff {num den : Nat} (hden : 0 < den)
    {m : { m : Nat // m < 2047 * 2 ^ 52 }} :
    nearestMagnitude num den = some m ↔ (Rounded.of num hden).magnitude = m := by
  rw [nearestMagnitude]
  split
  · rw [Option.some.injEq, Subtype.ext_iff]
    exact Iff.rfl
  · rename_i hlarge
    constructor
    · intro h
      cases h
    · intro h
      exact absurd (h.trans_lt m.2) hlarge

/-! ## Integers -/

variable {i : Int} {x r : Binary64}

theorem scaled_eq_of_negative (h : x.negative = true) : x.scaled = -(x.units : Int) := by
  rw [scaled, if_pos h]

theorem scaled_eq_of_not_negative (h : x.negative = false) : x.scaled = x.units := by
  rw [scaled, if_neg (Bool.eq_false_iff.1 h)]

theorem units_le_iff : x.units ≤ r.units ↔ x.magnitude ≤ r.magnitude :=
  unitsOf_strictMono.le_iff_le

/-- How the absolute value of an integer is rounded. -/
def roundedInt (i : Int) : Rounded (i.natAbs * unitsPerOne) 1 := Rounded.of _ Nat.one_pos

theorem ofInt?_eq_some_iff :
    ofInt? i = some r ↔ r.negative = decide (i < 0) ∧ (roundedInt i).magnitude = r.magnitude := by
  rw [ofInt?, ofRatio?, Option.map_eq_some_iff]
  constructor
  · rintro ⟨m, hm, rfl⟩
    exact ⟨rfl, (nearestMagnitude_eq_some_iff Nat.one_pos).1 hm⟩
  · rintro ⟨hnegative, hmagnitude⟩
    refine ⟨⟨r.magnitude, r.finite⟩, (nearestMagnitude_eq_some_iff Nat.one_pos).2 hmagnitude, ?_⟩
    obtain ⟨negative, magnitude, finite⟩ := r
    dsimp only at hnegative
    rw [hnegative]

/-- Rounding a word integer does not lead beyond the finite doubles. -/
theorem exists_ofInt? (h : i.natAbs ≤ 2 ^ 64) : ∃ r, ofInt? i = some r := by
  have htop : unitsOf (1087 * 2 ^ 52) = 2 ^ 64 * unitsPerOne := by decide +kernel
  have hle : (roundedInt i).magnitude ≤ 1087 * 2 ^ 52 := by
    apply Rounded.magnitude_le
    rw [htop, Nat.mul_one]
    exact Nat.mul_le_mul_right _ h
  exact ⟨⟨decide (i < 0), (roundedInt i).magnitude, by omega⟩, ofInt?_eq_some_iff.2 ⟨rfl, rfl⟩⟩

theorem natAbs_mul_units (i : Int) :
    (i < 0 ∧ i * unitsPerOne = -((i.natAbs * unitsPerOne : Nat) : Int)) ∨
      (0 ≤ i ∧ i * unitsPerOne = ((i.natAbs * unitsPerOne : Nat) : Int)) := by
  rcases lt_or_ge i 0 with hneg | hpos
  · refine Or.inl ⟨hneg, ?_⟩
    rw [Int.natCast_mul, Int.ofNat_natAbs_of_nonpos hneg.le, Int.neg_mul, Int.neg_neg]
  · refine Or.inr ⟨hpos, ?_⟩
    rw [Int.natCast_mul, Int.natAbs_of_nonneg hpos]

section

variable (h : ofInt? i = some r)
include h

theorem units_le_of_le_natAbs (hx : x.units ≤ i.natAbs * unitsPerOne) : x.units ≤ r.units := by
  have hle : x.magnitude ≤ (roundedInt i).magnitude := by
    apply Rounded.le_magnitude
    rwa [Nat.mul_one]
  rwa [(ofInt?_eq_some_iff.1 h).2, ← units_le_iff] at hle

theorem units_le_of_natAbs_le (hx : i.natAbs * unitsPerOne ≤ x.units) : r.units ≤ x.units := by
  have hle : (roundedInt i).magnitude ≤ x.magnitude := by
    apply Rounded.magnitude_le
    rwa [Nat.mul_one]
  rwa [(ofInt?_eq_some_iff.1 h).2, ← units_le_iff] at hle

/-- An integer that is no smaller than a double does not round below it. -/
theorem scaled_le_of_le (hx : x.scaled ≤ i * unitsPerOne) : x.scaled ≤ r.scaled := by
  have hnegative := (ofInt?_eq_some_iff.1 h).1
  rcases natAbs_mul_units i with ⟨hneg, hi⟩ | ⟨hpos, hi⟩
  · rw [decide_eq_true hneg] at hnegative
    rw [scaled_eq_of_negative hnegative]
    cases hsign : x.negative with
    | true =>
      rw [scaled_eq_of_negative hsign] at hx ⊢
      have := units_le_of_natAbs_le h (x := x) (by omega)
      omega
    | false =>
      -- No integer below zero is as great as this.
      rw [scaled_eq_of_not_negative hsign] at hx ⊢
      have := units_le_of_natAbs_le h (x := x) (by omega)
      omega
  · rw [decide_eq_false (Int.not_lt.2 hpos)] at hnegative
    rw [scaled_eq_of_not_negative hnegative]
    cases hsign : x.negative with
    | true =>
      rw [scaled_eq_of_negative hsign]
      omega
    | false =>
      rw [scaled_eq_of_not_negative hsign] at hx ⊢
      have := units_le_of_le_natAbs h (x := x) (by omega)
      omega

/-- An integer that is no greater than a double does not round above it. -/
theorem le_scaled_of_le (hx : i * unitsPerOne ≤ x.scaled) : r.scaled ≤ x.scaled := by
  have hnegative := (ofInt?_eq_some_iff.1 h).1
  rcases natAbs_mul_units i with ⟨hneg, hi⟩ | ⟨hpos, hi⟩
  · rw [decide_eq_true hneg] at hnegative
    rw [scaled_eq_of_negative hnegative]
    cases hsign : x.negative with
    | true =>
      rw [scaled_eq_of_negative hsign] at hx ⊢
      have := units_le_of_le_natAbs h (x := x) (by omega)
      omega
    | false =>
      rw [scaled_eq_of_not_negative hsign]
      omega
  · rw [decide_eq_false (Int.not_lt.2 hpos)] at hnegative
    rw [scaled_eq_of_not_negative hnegative]
    have := units_le_of_natAbs_le h (x := x)
    cases hsign : x.negative with
    | true =>
      rw [scaled_eq_of_negative hsign] at hx ⊢
      omega
    | false =>
      rw [scaled_eq_of_not_negative hsign] at hx ⊢
      omega

/-- An integer that does not stay what it is moves by at most half a step, and fills the
significand with steps of at least two. -/
theorem units_eq_or_far : r.units = i.natAbs * unitsPerOne ∨
    ∃ step, 2 * unitsPerOne ≤ step ∧ 2 ^ 52 * step ≤ i.natAbs * unitsPerOne ∧
      2 ^ 52 * step ≤ r.units ∧ 2 * r.units ≤ 2 * (i.natAbs * unitsPerOne) + step ∧
      2 * (i.natAbs * unitsPerOne) ≤ 2 * r.units + step := by
  have hunits : unitsOf (roundedInt i).magnitude = r.units := by
    rw [(ofInt?_eq_some_iff.1 h).2, units_eq_unitsOf]
  have hvalue := (roundedInt i).units_mul_den
  have herror := (roundedInt i).error
  have hfull := (roundedInt i).full
  have hle := (roundedInt i).le_significand
  have hstep := (roundedInt i).step_pos
  have hround := (roundedInt i).significand_eq
  rw [hunits, Nat.mul_one] at hvalue
  rw [hunits, Nat.mul_one] at herror
  generalize (roundedInt i).binade = b at *
  generalize (roundedInt i).significand = s at *
  rw [Nat.one_mul] at *
  by_cases hb : b ≤ 1074
  · left
    -- Every integer is a whole number of such steps.
    have hwhole : i.natAbs * unitsPerOne = i.natAbs * 2 ^ (1074 - b) * 2 ^ b := by
      rw [Nat.mul_assoc, ← Nat.pow_add, Nat.sub_add_cancel hb, unitsPerOne]
    have hs : s = i.natAbs * 2 ^ (1074 - b) := by
      rw [hround]
      exact le_antisymm (roundHalfEven_le hstep hwhole.le) (le_roundHalfEven hstep hwhole.ge)
    rw [hvalue, hs, hwhole]
  · right
    have hne : b ≠ 0 := by omega
    have htwo : 2 * unitsPerOne ≤ 2 ^ b := by
      rw [unitsPerOne, ← Nat.pow_succ']
      exact Nat.pow_le_pow_right (by decide) (by omega)
    refine ⟨2 ^ b, htwo, hfull.resolve_left hne, ?_, herror⟩
    rw [hvalue]
    exact Nat.mul_le_mul_right _ (hle.resolve_left hne)

/-- An integer that does not stay what it is lies beyond `2 ^ 53`, and moves by a small part
of what it is and of what it becomes. -/
theorem far_of_scaled_ne (hne : r.scaled ≠ i * unitsPerOne) :
    2 ^ 53 * unitsPerOne ≤ min (i * unitsPerOne).natAbs r.scaled.natAbs ∧
      2 ^ 53 * (i * unitsPerOne - r.scaled).natAbs ≤
        min (i * unitsPerOne).natAbs r.scaled.natAbs := by
  have hnegative := (ofInt?_eq_some_iff.1 h).1
  rcases natAbs_mul_units i with ⟨hneg, hi⟩ | ⟨hpos, hi⟩
  · rw [decide_eq_true hneg] at hnegative
    rw [scaled_eq_of_negative hnegative, hi] at hne ⊢
    rcases units_eq_or_far h with heq | ⟨step, htwo, hfull, hrounded, hle, hge⟩
    · exact absurd (by rw [heq]) hne
    · omega
  · rw [decide_eq_false (Int.not_lt.2 hpos)] at hnegative
    rw [scaled_eq_of_not_negative hnegative, hi] at hne ⊢
    rcases units_eq_or_far h with heq | ⟨step, htwo, hfull, hrounded, hle, hge⟩
    · exact absurd (by rw [heq]) hne
    · omega

end

end Binary64
end Rulebook
