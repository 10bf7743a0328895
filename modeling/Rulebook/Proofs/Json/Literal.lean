import Rulebook.Json.Document
import Rulebook.Proofs.Number.Digits

/-!
# Number literals read back

A number literal inside a text is read up to what may follow a value.  The text of
an integer is read as the integer, and whatever is written as digits with a
fraction and an exponent is read as such.
-/

namespace Rulebook
namespace Json

/-- What may follow a value inside a text. -/
def Delimited (rest : List Char) : Prop :=
  ∀ c, rest.head? = some c → c = ',' ∨ c = ']' ∨ c = '\x7d'

theorem toList_toString (i : Int) : (toString i).toList =
    if i < 0 then '-' :: Nat.toDigits 10 i.natAbs else Nat.toDigits 10 i.natAbs := by
  rw [Int.toString_eq_repr, Int.repr_eq_if]
  by_cases hneg : i < 0
  · rw [if_neg (by omega), if_pos hneg, String.toList_append, Nat.toList_repr]
    have hnat : (-i).toNat = i.natAbs := by omega
    rw [hnat]
    rfl
  · rw [if_pos (by omega), if_neg hneg, Nat.toList_repr]
    have hnat : i.toNat = i.natAbs := by omega
    rw [hnat]

theorem fractionPart?_of_delimited {rest : List Char} (h : Delimited rest) :
    fractionPart? rest = some (none, rest) := by
  cases rest with
  | nil => rfl
  | cons c rest =>
    rcases h c rfl with rfl | rfl | rfl <;> rfl

theorem exponentPart?_of_delimited {rest : List Char} (h : Delimited rest) :
    exponentPart? rest = some (none, rest) := by
  cases rest with
  | nil => rfl
  | cons c rest =>
    rcases h c rfl with rfl | rfl | rfl <;> rfl

theorem isDigit_of_delimited {rest : List Char} (h : Delimited rest) (c : Char)
    (hc : rest.head? = some c) : c.isDigit = false := by
  rcases h c hc with rfl | rfl | rfl <;> rfl

/-- Digits are not written with a leading zero. -/
theorem leadingZero (n : Nat) :
    ((Nat.toDigits 10 n).head? == some '0' && (Nat.toDigits 10 n).length != 1) = false := by
  by_cases hn : n = 0
  · subst hn
    rfl
  · obtain ⟨d, rest, heq, hd, hd'⟩ := toDigits_head n (Nat.pos_of_ne_zero hn)
    have hne : d.digitChar ≠ '0' := by
      intro h
      rw [Nat.digitChar_eq_zero] at h
      omega
    rw [heq, List.head?_cons]
    simp [hne]

/-- The literal as which an integer is read. -/
def literalOf (i : Int) : NumberLiteral :=
  ⟨decide (i < 0), Nat.toDigits 10 i.natAbs, [], 0, true⟩

/-- A number literal is read part by part: its sign, its digits up to something
that is no digit, its fraction and its exponent. -/
theorem numberLiteral?_eq (negative : Bool) {whole rest rest' more : List Char}
    {fraction : Option (List Char)} {exponent : Option Int}
    (hwhole : ∀ c ∈ whole, c.isDigit = true) (hne : whole ≠ [])
    (hzero : (whole.head? == some '0' && whole.length != 1) = false)
    (hrest : ∀ c, rest.head? = some c → c.isDigit = false)
    (hfraction : fractionPart? rest = some (fraction, rest'))
    (hexponent : exponentPart? rest' = some (exponent, more)) :
    numberLiteral? ((if negative then ['-'] else []) ++ (whole ++ rest)) =
      some (⟨negative, whole, fraction.getD [], exponent.getD 0,
        fraction.isNone && exponent.isNone⟩, more) := by
  have hsplit : splitDigits (whole ++ rest) = (whole, rest) := splitDigits_append hwhole hrest
  have hempty : whole.isEmpty = false := List.isEmpty_eq_false_iff.2 hne
  cases negative with
  | true =>
    rw [if_pos rfl, List.singleton_append, numberLiteral?.eq_def]
    dsimp only
    simp only [hsplit, hempty, hzero, hfraction, hexponent, Bool.false_or, Bool.false_eq_true,
      if_false, Option.bind_eq_bind, Option.bind_some, Option.pure_def]
  | false =>
    have hsign : ∀ more', whole ++ rest ≠ '-' :: more' := by
      intro more' heq
      cases hdigits : whole with
      | nil => exact hne hdigits
      | cons c cs =>
        rw [hdigits] at heq
        have hc := hwhole c (by rw [hdigits]; exact List.mem_cons_self ..)
        rw [(List.cons.inj heq).1] at hc
        exact absurd hc (by decide)
    rw [if_neg Bool.false_ne_true, List.nil_append, numberLiteral?]
    · simp only [hsplit, hempty, hzero, hfraction, hexponent, Bool.false_or, Bool.false_eq_true,
        if_false, Option.bind_eq_bind, Option.bind_some, Option.pure_def]
    · exact hsign

theorem numberLiteral?_integer (i : Int) {rest : List Char} (h : Delimited rest) :
    numberLiteral? ((toString i).toList ++ rest) = some (literalOf i, rest) := by
  have hsign : (toString i).toList ++ rest =
      (if decide (i < 0) then ['-'] else []) ++ (Nat.toDigits 10 i.natAbs ++ rest) := by
    rw [toList_toString]
    by_cases hneg : i < 0
    · rw [if_pos hneg, decide_eq_true hneg]
      rfl
    · rw [if_neg hneg, decide_eq_false hneg]
      rfl
  rw [hsign, numberLiteral?_eq _ (fun c hc => isDigit_of_mem_digits hc) Nat.toDigits_ne_nil
    (leadingZero _) (isDigit_of_delimited h) (fractionPart?_of_delimited h)
    (exponentPart?_of_delimited h)]
  rfl

theorem number?_literalOf (i : WordInt) : (literalOf i.val).number? = some (.integer i) := by
  have hvalue : (if decide (i.val < 0) then -((i.val.natAbs : Nat) : Int)
      else ((i.val.natAbs : Nat) : Int)) = i.val := by
    by_cases hneg : i.val < 0
    · rw [decide_eq_true hneg, if_pos rfl]
      omega
    · rw [decide_eq_false hneg, if_neg Bool.false_ne_true]
      omega
  have hzero : (decide (i.val < 0) && i.val.natAbs == 0) = false := by
    by_cases hneg : i.val < 0
    · rw [decide_eq_true hneg, Bool.true_and, beq_eq_false_iff_ne]
      omega
    · rw [decide_eq_false hneg, Bool.false_and]
  rw [NumberLiteral.number?, literalOf]
  dsimp only
  rw [digitsValue_toDigits, hvalue, hzero]
  have hword : Number.ofInt? i.val = some (.integer i) := by
    rw [Number.ofInt?, WordInt.ofInt?, dif_pos ⟨i.lower, i.upper⟩]
    rfl
  rw [hword]
  rfl

end Json
end Rulebook
