import Rulebook.Value.Basic

/-!
# Kinds of values

The kinds that a rule may demand of a value.  Booleans are never numbers, and
integers and doubles are kinds of their own under the common kind of numbers.
-/

namespace Rulebook

/-- A kind of value. -/
inductive Kind where
  | dict
  | list
  | str
  | int
  | float
  | number
  | bool
  | null
deriving DecidableEq

namespace Kind

/-- All kinds, in the order of the schema of schemas. -/
def all : List Kind := [dict, list, str, int, float, number, bool, null]

/-- The tag by which a rule names a kind. -/
def tag : Kind → String
  | dict => "dict"
  | list => "list"
  | str => "str"
  | int => "int"
  | float => "float"
  | number => "number"
  | bool => "bool"
  | null => "null"

/-- The kind with a tag. -/
def ofTag? (tag : String) : Option Kind := all.find? fun k => k.tag == tag

/-- Whether a value is of a kind. -/
def accepts : Kind → Value → Bool
  | dict, .mapping _ => true
  | list, .list _ => true
  | str, .text _ => true
  | int, .number n => !n.isFloat
  | float, .number n => n.isFloat
  | number, .number _ => true
  | bool, .bool _ => true
  | null, .null => true
  | _, _ => false

theorem ofTag?_tag (k : Kind) : ofTag? k.tag = some k := by cases k <;> decide

end Kind

end Rulebook
