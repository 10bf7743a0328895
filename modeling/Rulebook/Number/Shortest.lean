import Rulebook.Number.Decimal

/-!
# Shortest decimal text of a double

The digits written for a double are the fewest that read back as the same
double, and of those the nearest to its exact value.  For one digit, two
digits, and so on, the two neighbours of the value on that decimal grid are
tested against the interval of reals that round to the double; the ends belong
to the interval exactly when the significand is even.  Seventeen digits always
suffice.

How the digits are laid out is a `FloatLayout`: where positional notation
begins, which sign a positive exponent carries, and where an exact tie between
two neighbours goes.
-/

namespace Rulebook

open scoped CorePower

/-- Decimal digits with a power of ten: `digits * 10 ^ exponent`. -/
structure DecimalForm where
  digits : Nat
  exponent : Int

/-- The reals that round to a double, in units of `2 ^ (-1076)`. -/
structure RoundingInterval where
  lower : Nat
  value : Nat
  upper : Nat
  /-- Whether the ends round to the double as well. -/
  closed : Bool

/-- The rounding interval of the absolute value of a double.  Below a power of
two the neighbour is only half as far away. -/
def Binary64.roundingInterval (x : Binary64) : RoundingInterval :=
  let step := 2 ^ x.shift
  let value := 4 * x.units
  let below := if x.magnitude % 2 ^ (52 : Nat) = 0 ∧ 0 < x.shift then step else 2 * step
  ⟨value - below, value, value + 2 * step, x.significand % 2 == 0⟩

namespace RoundingInterval

/-- Whether `c * num / den` lies in the interval. -/
def contains (r : RoundingInterval) (c num den : Nat) : Bool :=
  let at' := c * num
  if r.closed then decide (r.lower * den ≤ at' ∧ at' ≤ r.upper * den)
  else decide (r.lower * den < at' ∧ at' < r.upper * den)

/-- The point of the grid of multiples of `10 ^ k` that rounds to the double and
is nearest to its value, if there is one; `tieUp` sends an exact tie to the
upper neighbour, and otherwise it goes to the even one. -/
def gridPoint? (r : RoundingInterval) (tieUp : Bool) (k : Int) : Option Nat :=
  let num := 2 ^ (1076 : Nat) * 10 ^ k.toNat
  let den := 10 ^ (-k).toNat
  let low := r.value * den / num
  let rest := 2 * (r.value * den % num)
  let preferHigh := decide (num < rest) || (rest == num && (tieUp || low % 2 == 1))
  match r.contains low num den, r.contains (low + 1) num den with
  | true, true => some (if preferHigh then low + 1 else low)
  | true, false => some low
  | false, true => some (low + 1)
  | false, false => none

/-- The first of the grids `10 ^ (top - n)` that has a point, for `n` from
`used` on, with `left` of them to try. -/
def firstGrid (r : RoundingInterval) (tieUp : Bool) (top : Int) : Nat → Nat → DecimalForm
  | _, 0 => ⟨0, 0⟩
  | used, left + 1 =>
      match r.gridPoint? tieUp (top - used) with
      | some c => ⟨c, top - used⟩
      | none => firstGrid r tieUp top (used + 1) left

end RoundingInterval

/-- Move factors of ten from the digits into the exponent, at most `fuel`. -/
def DecimalForm.strip : Nat → DecimalForm → DecimalForm
  | 0, d => d
  | fuel + 1, d =>
      if d.digits % 10 = 0 ∧ d.digits ≠ 0 then strip fuel ⟨d.digits / 10, d.exponent + 1⟩ else d

/-- The decimal exponent of the leading digit of a nonzero double. -/
def Binary64.leadingExponent (x : Binary64) : Int :=
  (decimalLength (x.units * 10 ^ (400 : Nat) / Binary64.unitsPerOne) : Int) - 401

/-- The shortest digits of the absolute value of a nonzero double. -/
def Binary64.shortest (x : Binary64) (tieUp : Bool) : DecimalForm :=
  (x.roundingInterval.firstGrid tieUp x.leadingExponent 0 17).strip 20

/-- How the digits of a double are laid out as text. -/
structure FloatLayout where
  /-- The least exponent of the leading digit that is written positionally. -/
  lowest : Int
  /-- The first exponent of the leading digit that is too large for it. -/
  beyond : Int
  /-- The sign of a positive exponent. -/
  plus : String
  /-- Whether a tie between two digit strings goes up rather than to even. -/
  tieUp : Bool

/-- A run of zeros. -/
def zeros (n : Nat) : String := String.ofList (List.replicate n '0')

namespace FloatLayout

/-- Positional text of digits whose leading one has exponent `lead`; a fraction
is always written. -/
def positional (digits : String) (lead : Int) : String :=
  let whole := lead + 1
  if whole ≤ 0 then "0." ++ zeros (-whole).toNat ++ digits
  else
    let n := whole.toNat
    if digits.length ≤ n then digits ++ zeros (n - digits.length) ++ ".0"
    else String.ofList (digits.toList.take n) ++ "." ++ String.ofList (digits.toList.drop n)

/-- Scientific text of digits whose leading one has exponent `lead`. -/
def scientific (layout : FloatLayout) (digits : String) (lead : Int) : String :=
  let head := String.ofList (digits.toList.take 1)
  let tail := String.ofList (digits.toList.drop 1)
  let mantissa := if tail.isEmpty then head else head ++ "." ++ tail
  let sign := if lead < 0 then "-" else layout.plus
  mantissa ++ "e" ++ sign ++ toString lead.natAbs

/-- The text of a double. -/
def write (layout : FloatLayout) (x : Binary64) : String :=
  let sign := if x.negative then "-" else ""
  if x.magnitude = 0 then sign ++ "0.0"
  else
    let d := x.shortest layout.tieUp
    let digits := toString d.digits
    let lead := d.exponent + digits.length - 1
    if layout.lowest ≤ lead ∧ lead < layout.beyond then sign ++ positional digits lead
    else sign ++ layout.scientific digits lead

end FloatLayout

end Rulebook
