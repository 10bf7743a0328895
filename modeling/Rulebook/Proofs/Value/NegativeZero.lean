import Rulebook.Proofs.Number.Units
import Rulebook.Value.Basic

/-!
# Values without a negative zero

The equality by which a value under way is recognized confuses the two zeros
among the doubles, and nothing else: it is equality on values in which the
negative zero does not occur.
-/

namespace Rulebook
namespace Value

mutual

/-- Whether the zero with a sign occurs in a value. -/
def hasNegativeZero : Value → Bool
  | number (.float x) => x.isNegativeZero
  | list xs => hasNegativeZeroList xs
  | mapping es => hasNegativeZeroEntries es
  | _ => false

/-- Whether the zero with a sign occurs in an element of a list. -/
def hasNegativeZeroList : List Value → Bool
  | [] => false
  | x :: xs => hasNegativeZero x || hasNegativeZeroList xs

/-- Whether the zero with a sign occurs in a member of a mapping. -/
def hasNegativeZeroEntries : List (String × Value) → Bool
  | [] => false
  | (_, v) :: rest => hasNegativeZero v || hasNegativeZeroEntries rest

end

theorem eq_of_number_same {a b : Number} (ha : (number a).hasNegativeZero = false)
    (hb : (number b).hasNegativeZero = false) (h : a.same b = true) : a = b := by
  cases a with
  | integer i =>
    cases b with
    | integer j => rw [show i = j by simpa [Number.same] using h]
    | float y => simp [Number.same] at h
  | float x =>
    cases b with
    | integer j => simp [Number.same] at h
    | float y => rw [Binary64.eq_of_sameValue ha hb h]

mutual

theorem eq_of_same : (a b : Value) → a.hasNegativeZero = false → b.hasNegativeZero = false →
    a.same b = true → a = b
  | list xs, b, ha, hb, h => by
      cases b <;> simp only [same, Bool.false_eq_true] at h
      rw [eq_of_sameList xs _ ha hb h]
  | mapping es, b, ha, hb, h => by
      cases b <;> simp only [same, Bool.false_eq_true] at h
      rw [eq_of_sameEntries es _ ha hb h]
  | number m, b, ha, hb, h => by
      cases b <;> simp only [same, Bool.false_eq_true] at h
      rw [eq_of_number_same ha hb h]
  | null, b, _, _, h | bool _, b, _, _, h | text _, b, _, _, h => by
      cases b <;> simp_all [same]

theorem eq_of_sameList : (a b : List Value) → hasNegativeZeroList a = false →
    hasNegativeZeroList b = false → sameList a b = true → a = b
  | [], [], _, _, _ => rfl
  | [], _ :: _, _, _, h | _ :: _, [], _, _, h => by simp [sameList] at h
  | x :: xs, y :: ys, ha, hb, h => by
      simp only [sameList, Bool.and_eq_true] at h
      simp only [hasNegativeZeroList, Bool.or_eq_false_iff] at ha hb
      rw [eq_of_same x y ha.1 hb.1 h.1, eq_of_sameList xs ys ha.2 hb.2 h.2]

theorem eq_of_sameEntries : (a b : List (String × Value)) → hasNegativeZeroEntries a = false →
    hasNegativeZeroEntries b = false → sameEntries a b = true → a = b
  | [], [], _, _, _ => rfl
  | [], _ :: _, _, _, h | _ :: _, [], _, _, h => by simp [sameEntries] at h
  | (k, x) :: xs, (l, y) :: ys, ha, hb, h => by
      simp only [sameEntries, Bool.and_eq_true, beq_iff_eq] at h
      simp only [hasNegativeZeroEntries, Bool.or_eq_false_iff] at ha hb
      rw [h.1.1, eq_of_same x y ha.1 hb.1 h.1.2, eq_of_sameEntries xs ys ha.2 hb.2 h.2]

end

mutual

/-- The equality of values under way is reflexive. -/
theorem same_refl : (a : Value) → a.same a = true
  | null => rfl
  | bool b => by simp [same]
  | number (.integer i) => by simp [same, Number.same]
  | number (.float x) => by simp [same, Number.same, Binary64.sameValue]
  | text s => by simp [same]
  | list xs => by simpa [same] using sameList_refl xs
  | mapping es => by simpa [same] using sameEntries_refl es

theorem sameList_refl : (a : List Value) → sameList a a = true
  | [] => rfl
  | x :: xs => by simp [sameList, same_refl x, sameList_refl xs]

theorem sameEntries_refl : (a : List (String × Value)) → sameEntries a a = true
  | [] => rfl
  | (k, x) :: xs => by simp [sameEntries, same_refl x, sameEntries_refl xs]

end

end Value
end Rulebook
