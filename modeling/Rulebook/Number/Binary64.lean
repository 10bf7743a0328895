import Rulebook.Number.Power

/-!
# Finite binary64 numbers

A finite double is its sign together with the lower 63 bits of its bit
pattern.  That magnitude grows with the absolute value, so rounding and
overflow are statements about natural numbers.  Every finite double is a whole
number of units of `2 ^ (-1074)`; `scaled` is that whole number, and all exact
comparisons go through it.
-/

namespace Rulebook

open scoped CorePower

/-- A quotient of natural numbers rounded to the nearest whole number; a half
goes to the even neighbour. -/
def roundHalfEven (num den : Nat) : Nat :=
  let q := num / den
  let r := num % den
  if 2 * r < den then q
  else if den < 2 * r then q + 1
  else q + q % 2

/-- A finite binary64 number: its sign and the magnitude part of its pattern. -/
structure Binary64 where
  /-- Whether the sign bit is set. -/
  negative : Bool
  /-- The pattern without its sign bit. -/
  magnitude : Nat
  /-- The exponent field is below the one of infinities. -/
  finite : magnitude < 2047 * 2 ^ (52 : Nat)
deriving DecidableEq

namespace Binary64

/-- Zero with the given sign. -/
def zero (negative : Bool) : Binary64 := ⟨negative, 0, by decide⟩

/-- The significand, with the leading bit of a normal number restored. -/
def significand (x : Binary64) : Nat :=
  if x.magnitude / 2 ^ (52 : Nat) = 0 then x.magnitude
  else 2 ^ (52 : Nat) + x.magnitude % 2 ^ (52 : Nat)

/-- The power of two by which the significand is scaled, above the least
exponent. -/
def shift (x : Binary64) : Nat := x.magnitude / 2 ^ (52 : Nat) - 1

/-- The absolute value in units of `2 ^ (-1074)`. -/
def units (x : Binary64) : Nat := x.significand * 2 ^ x.shift

/-- The number of units of `2 ^ (-1074)` in one. -/
def unitsPerOne : Nat := 2 ^ (1074 : Nat)

/-- The signed value in units of `2 ^ (-1074)`. -/
def scaled (x : Binary64) : Int := if x.negative then -(x.units : Int) else x.units

/-- The magnitude nearest to `num / den` units; `none` when that lies beyond
the finite numbers.  A significand of `s` shifted by `k` has magnitude
`k * 2 ^ 52 + s`, also where rounding carries into the next binade. -/
def nearestMagnitude (num den : Nat) : Option { m : Nat // m < 2047 * 2 ^ (52 : Nat) } :=
  let k := Nat.log2 (num / den) - 52
  let m := k * 2 ^ (52 : Nat) + roundHalfEven num (den * 2 ^ k)
  if h : m < 2047 * 2 ^ (52 : Nat) then some ⟨m, h⟩ else none

/-- The double nearest to `± num / den`, ties to even; `none` on overflow. -/
def ofRatio? (negative : Bool) (num den : Nat) : Option Binary64 :=
  (nearestMagnitude (num * unitsPerOne) den).map fun m => ⟨negative, m.1, m.2⟩

/-- The double nearest to an integer, ties to even; `none` on overflow. -/
def ofInt? (i : Int) : Option Binary64 := ofRatio? (decide (i < 0)) i.natAbs 1

/-- Whether the value is a whole number. -/
def isIntegral (x : Binary64) : Bool := x.units % unitsPerOne == 0

/-- The value without its fraction. -/
def trunc (x : Binary64) : Int :=
  if x.negative then -((x.units / unitsPerOne : Nat) : Int) else (x.units / unitsPerOne : Nat)

/-- Equality of values: the two zeros are equal. -/
def sameValue (x y : Binary64) : Bool := x.scaled == y.scaled

end Binary64

end Rulebook
