import Rulebook.Error
import Rulebook.Sorting
import Rulebook.Text.Blank
import Rulebook.Value.Comparison

/-!
# Coercions

A coercion turns a value into another or fails, and may read the parameters of
the call.  Five are built in; others are supplied by name, and one that is
supplied under a built-in name replaces the built-in one.
-/

namespace Rulebook

open scoped CorePower

/-- The parameters of a call. -/
abbrev Context := Entries Value

/-- A supplied coercion; a failure has a reason. -/
abbrev Coercion := Value → Option Context → Except String Value

/-- The coercions that are always there. -/
inductive Builtin where
  | int
  | float
  | number
  | str
  | bool
deriving DecidableEq

/-- A whole number that fits a signed word, as a value. -/
def signedValue? (i : Int) : Option Value :=
  if -2 ^ (63 : Nat) ≤ i ∧ i < 2 ^ (63 : Nat) then Value.ofInt? i else none

/-- The integer written by a whole text, if it fits a signed word. -/
def readSigned? (cs : List Char) : Option Value := (readInteger? cs).bind signedValue?

/-- The finite double written by a whole text. -/
def readFinite? (cs : List Char) : Option Binary64 := (readFloat? cs).bind FloatReading.finite?

/-- Words for truth and falsehood. -/
def boolWord? (word : String) : Option Bool :=
  if word ∈ ["true", "t", "yes", "y", "on", "1", "1.0"] then some true
  else if word ∈ ["false", "f", "no", "n", "off", "0", "0.0"] then some false
  else none

/-- One or zero for a boolean. -/
def boolValue (b : Bool) : Value := Value.ofNat b.toNat

namespace Builtin

/-- The name of a built-in coercion. -/
def name : Builtin → String
  | int => "int"
  | float => "float"
  | number => "number"
  | str => "str"
  | bool => "bool"

/-- All built-in coercions. -/
def all : List Builtin := [int, float, number, str, bool]

/-- The built-in coercion with a name. -/
def ofName? (name : String) : Option Builtin := all.find? fun b => b.name == name

/-- To an integer: doubles lose their fraction, text is read as an integer or as
a double without its fraction. -/
def toInt? : Value → Option Value
  | .number (.integer i) => some (.number (.integer i))
  | .number (.float x) => signedValue? x.trunc
  | .bool b => some (boolValue b)
  | .text s =>
      let cs := trim s.toList
      (readSigned? cs).orElse fun _ => (readFinite? cs).bind fun x => signedValue? x.trunc
  | _ => none

/-- To a double. -/
def toFloat? : Value → Option Value
  | .number n => n.toBinary64?.map fun x => .number (.float x)
  | .bool b => (Binary64.ofInt? b.toNat).map fun x => .number (.float x)
  | .text s => (readFinite? (trim s.toList)).map fun x => .number (.float x)
  | _ => none

/-- To a number of either kind. -/
def toNumber? : Value → Option Value
  | .number n => some (.number n)
  | .bool b => some (boolValue b)
  | .text s =>
      let cs := trim s.toList
      (readSigned? cs).orElse fun _ => (readFinite? cs).map fun x => .number (.float x)
  | _ => none

/-- To text: what is not text becomes its JSON text. -/
def toText : Value → Value
  | .text s => .text s
  | v => .text (Json.write v)

/-- To a boolean: one and zero, and words for them. -/
def toBool? : Value → Option Value
  | .bool b => some (.bool b)
  | .number n =>
      if n.scaled = Binary64.unitsPerOne then some (.bool true)
      else if n.scaled = 0 then some (.bool false)
      else none
  | .text s =>
      (boolWord? (String.ofList ((trim s.toList).map Char.toLower))).map .bool
  | _ => none

/-- Apply a built-in coercion. -/
def apply : Builtin → Value → Option Value
  | int, v => toInt? v
  | float, v => toFloat? v
  | number, v => toNumber? v
  | str, v => some (toText v)
  | bool, v => toBool? v

end Builtin

/-- A coercion that a rule has been found to name. -/
inductive Coercer where
  | builtin (b : Builtin)
  | custom (name : String) (coercion : Coercion)

/-- Apply a coercion; every failure names it, and the reason of a supplied one
follows. -/
def Coercer.apply (c : Coercer) (v : Value) (context : Option Context) :
    Except ValidationError Value :=
  match c with
  | builtin b =>
      match b.apply v with
      | some w => .ok w
      | none => .error (.here (.notCoercible b.name none))
  | custom name coercion =>
      match coercion v context with
      | .ok w => .ok w
      | .error reason => .error (.here (.notCoercible name (some reason)))

/-- The supplied coercions, by name. -/
structure CoercionTable where
  custom : List (String × Coercion)

namespace CoercionTable

/-- The supplied coercion with a name. -/
def find? (t : CoercionTable) (name : String) : Option Coercion :=
  (t.custom.find? fun c => c.1 == name).map (·.2)

/-- The coercion that a name stands for. -/
def resolve? (t : CoercionTable) (name : String) : Option Coercer :=
  match t.find? name with
  | some coercion => some (.custom name coercion)
  | none => (Builtin.ofName? name).map .builtin

/-- Whether a name stands for a coercion. -/
def contains (t : CoercionTable) (name : String) : Bool := (t.resolve? name).isSome

/-- The names of the supplied coercions, for inspection. -/
def describe (t : CoercionTable) : String :=
  let names := Sorting.sort (fun a b => decide (a ≤ b)) (t.custom.map (·.1))
  "CoercionTable \x7b custom: [" ++ ", ".intercalate (names.map Json.quote) ++ "] \x7d"

end CoercionTable

end Rulebook
