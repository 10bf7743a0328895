import Rulebook.Number.Binary64

/-!
# Decimal numerals

Reading of decimal text.  An integer numeral is an optional sign and at least
one digit.  A floating-point numeral is an optional sign, digits with at most
one point and at least one digit around it, and an optional exponent; the words
for infinities and not-a-number are read as well.  The value of a numeral is
rounded once, from its exact decimal value.
-/

namespace Rulebook

open scoped CorePower

/-- The value of an ASCII decimal digit. -/
def decimalDigit? (c : Char) : Option Nat :=
  if '0' ≤ c ∧ c ≤ '9' then some (c.toNat - '0'.toNat) else none

/-- The value of an ASCII hexadecimal digit of either case. -/
def hexDigit? (c : Char) : Option Nat :=
  if '0' ≤ c ∧ c ≤ '9' then some (c.toNat - '0'.toNat)
  else if 'a' ≤ c ∧ c ≤ 'f' then some (c.toNat - 'a'.toNat + 10)
  else if 'A' ≤ c ∧ c ≤ 'F' then some (c.toNat - 'A'.toNat + 10)
  else none

/-- The value that a run of decimal digits adds to a numeral already read. -/
def digitsValue (start : Nat) (digits : List Char) : Nat :=
  digits.foldl (fun n c => 10 * n + ((decimalDigit? c).getD 0)) start

/-- The number of decimal digits of a natural number. -/
def decimalLength (n : Nat) : Nat := (Nat.toDigits 10 n).length

/-- A text as its leading digits and the rest. -/
def splitDigits (cs : List Char) : List Char × List Char := cs.span Char.isDigit

/-- A sign that may stand in front of a numeral, and the rest. -/
def splitSign : List Char → Bool × List Char
  | '-' :: rest => (true, rest)
  | '+' :: rest => (false, rest)
  | rest => (false, rest)

/-- The integer written by a whole text. -/
def readInteger? (cs : List Char) : Option Int :=
  let (negative, rest) := splitSign cs
  if rest.isEmpty || !rest.all Char.isDigit then none
  else
    let n := digitsValue 0 rest
    some (if negative then -(n : Int) else n)

/-- What a floating-point numeral stands for. -/
inductive FloatReading where
  | finite (x : Binary64)
  | infinite (negative : Bool)
  | notANumber
deriving DecidableEq

namespace FloatReading

/-- The finite number, if it is one. -/
def finite? : FloatReading → Option Binary64
  | finite x => some x
  | _ => none

/-- The double nearest to `± digits * 10 ^ exponent`.  Exponents far outside
the range of doubles are answered from the number of digits alone. -/
def ofDecimal (negative : Bool) (digits : Nat) (exponent : Int) : FloatReading :=
  let top := exponent + decimalLength digits
  if digits = 0 ∨ top < -400 then finite (Binary64.zero negative)
  else if 400 < top then infinite negative
  else
    let rounded :=
      if 0 ≤ exponent then Binary64.ofRatio? negative (digits * 10 ^ exponent.toNat) 1
      else Binary64.ofRatio? negative digits (10 ^ (-exponent).toNat)
    match rounded with
    | some x => finite x
    | none => infinite negative

end FloatReading

/-- An exponent part, which may be absent. -/
def readExponent? : List Char → Option Int
  | [] => some 0
  | c :: rest => if c = 'e' ∨ c = 'E' then readInteger? rest else none

/-- The numeral with the given sign written by a text without one. -/
def readUnsignedFloat? (negative : Bool) (cs : List Char) : Option FloatReading :=
  let (whole, rest) := splitDigits cs
  let (fraction, rest) :=
    match rest with
    | '.' :: more => splitDigits more
    | _ => ([], rest)
  if whole.isEmpty && fraction.isEmpty then
    let word := cs.map Char.toLower
    if word = "inf".toList ∨ word = "infinity".toList then some (.infinite negative)
    else if word = "nan".toList then some .notANumber
    else none
  else
    (readExponent? rest).map fun e =>
      .ofDecimal negative (digitsValue 0 (whole ++ fraction)) (e - fraction.length)

/-- The floating-point numeral written by a whole text. -/
def readFloat? (cs : List Char) : Option FloatReading :=
  let (negative, rest) := splitSign cs
  readUnsignedFloat? negative rest

end Rulebook
