import Rulebook.Value.Basic

/-!
# Comparing values

`Value.equivalent` compares content: numbers by their value, whatever their kind,
and containers member by member.  Scalars have keys such that equal keys mean
equal content, so that tables can be searched by key.  `Value.order` is the
order of bounds: between integers it is exact, and as soon as a double takes part
both sides are compared as doubles.
-/

namespace Rulebook

/-- The content of a scalar. -/
inductive ScalarKey where
  | null
  | bool (b : Bool)
  | integer (i : Int)
  | double (x : Binary64)
  | text (s : String)
deriving DecidableEq

namespace Number

/-- The magnitude of the double `1e38`, from which on doubles are their own keys. -/
def keyLimit : Nat := 0x47D2CED32A16A1B1

/-- The key of a number: whole numbers of either kind share theirs.  Doubles with a
fraction, and those that are far beyond every word, are told apart bit by bit. -/
def key : Number → ScalarKey
  | integer i => .integer i.val
  | float x =>
      if x.isIntegral && decide (x.magnitude < keyLimit) then .integer x.trunc else .double x

/-- The order of two numbers in a bound. -/
def order : Number → Number → Option Ordering
  | integer i, integer j =>
      if (i.isSigned && j.isSigned) || (i.isUnsigned && j.isUnsigned) then
        some (compare i.val j.val)
      else
        match Binary64.ofInt? i.val, Binary64.ofInt? j.val with
        | some x, some y => some (compare x.scaled y.scaled)
        | _, _ => none
  | a, b =>
      match a.toBinary64?, b.toBinary64? with
      | some x, some y => some (compare x.scaled y.scaled)
      | _, _ => none

end Number

/-- The key of a scalar; containers have none. -/
def ScalarKey.of? : Value → Option ScalarKey
  | .null => some .null
  | .bool b => some (.bool b)
  | .number n => some n.key
  | .text s => some (.text s)
  | .list _ | .mapping _ => none

namespace Value

mutual

/-- Equality of content. -/
def equivalent : Value → Value → Bool
  | null, null => true
  | bool a, bool b => a == b
  | number a, number b => a.key == b.key
  | text a, text b => a == b
  | list a, list b => equivalentList a b
  | mapping a, mapping b => a.length == b.length && equivalentEntries a b
  | _, _ => false

/-- Lists are equivalent element by element. -/
def equivalentList : List Value → List Value → Bool
  | [], [] => true
  | a :: as, b :: bs => equivalent a b && equivalentList as bs
  | _, _ => false

/-- Each of some entries has an equivalent argument under its key in a mapping. -/
def equivalentEntries : List (String × Value) → List (String × Value) → Bool
  | [], _ => true
  | (k, a) :: rest, es =>
      (match Entries.lookup k es with
        | some b => equivalent a b
        | none => false) && equivalentEntries rest es

end

/-- The order of two values in a bound: numbers with numbers, text with text and
booleans with booleans. -/
def order : Value → Value → Option Ordering
  | number a, number b => a.order b
  | text a, text b => some (compare a b)
  | bool a, bool b => some (compare a b)
  | _, _ => none

/-- The length of a text in characters, of a list or of a mapping. -/
def length? : Value → Option Nat
  | text s => some s.length
  | list xs => some xs.length
  | mapping es => some es.length
  | _ => none

end Value

end Rulebook
