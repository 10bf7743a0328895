import Rulebook.Number.Binary64

/-!
# Numbers

A number is either a whole number that fits a signed or an unsigned 64-bit word,
or a finite double.  The two kinds stay apart: `1` and `1.0` are different
numbers with the same value.  Values are compared exactly, by `Number.scaled`,
or as doubles, by `Number.toBinary64?`, whichever a rule asks for.
-/

namespace Rulebook

open scoped CorePower

/-- A whole number that fits a signed or an unsigned 64-bit word. -/
structure WordInt where
  val : Int
  lower : -2 ^ (63 : Nat) ≤ val
  upper : val < 2 ^ (64 : Nat)
deriving DecidableEq

namespace WordInt

/-- An integer as a word, if it fits one. -/
def ofInt? (i : Int) : Option WordInt :=
  if h : -2 ^ (63 : Nat) ≤ i ∧ i < 2 ^ (64 : Nat) then some ⟨i, h.1, h.2⟩ else none

/-- The word nearest to an integer. -/
def clamp (i : Int) : WordInt :=
  if h : -2 ^ (63 : Nat) ≤ i ∧ i < 2 ^ (64 : Nat) then ⟨i, h.1, h.2⟩
  else if i < 0 then ⟨-2 ^ (63 : Nat), by decide, by decide⟩
  else ⟨2 ^ (64 : Nat) - 1, by decide, by decide⟩

/-- Whether the number fits a signed word. -/
def isSigned (i : WordInt) : Bool := decide (i.val < 2 ^ (63 : Nat))

/-- Whether the number fits an unsigned word. -/
def isUnsigned (i : WordInt) : Bool := decide (0 ≤ i.val)

end WordInt

/-- A number: a word integer or a finite double. -/
inductive Number where
  | integer (i : WordInt)
  | float (x : Binary64)
deriving DecidableEq

namespace Number

/-- An integer as a number, if it fits a word. -/
def ofInt? (i : Int) : Option Number := (WordInt.ofInt? i).map integer

/-- A position in a list as a number. -/
def ofIndex (n : Nat) : Number := integer (WordInt.clamp n)

/-- Whether the number is a double. -/
def isFloat : Number → Bool
  | integer _ => false
  | float _ => true

/-- The exact value in units of `2 ^ (-1074)`. -/
def scaled : Number → Int
  | integer i => i.val * Binary64.unitsPerOne
  | float x => x.scaled

/-- The nearest double. -/
def toBinary64? : Number → Option Binary64
  | integer i => Binary64.ofInt? i.val
  | float x => some x

/-- Equality of kind and value; the two zeros among the doubles are equal. -/
def same : Number → Number → Bool
  | integer i, integer j => i == j
  | float x, float y => x.sameValue y
  | _, _ => false

end Number

end Rulebook
