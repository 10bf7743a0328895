import Rulebook.Number.Shortest
import Rulebook.Value.Basic

/-!
# JSON text

The compact JSON text of a value: members in key order, no space, and only
quotes, backslashes and control characters escaped.  This is the text that
messages show, that a coercion to text produces, and that a key which is not
text is replaced by.
-/

namespace Rulebook
namespace Json

/-- A character inside a quoted text. -/
def escape (c : Char) : List Char :=
  match c with
  | '"' => ['\\', '"']
  | '\\' => ['\\', '\\']
  | '\n' => ['\\', 'n']
  | '\r' => ['\\', 'r']
  | '\t' => ['\\', 't']
  | c =>
      if c.toNat = 8 then ['\\', 'b']
      else if c.toNat = 12 then ['\\', 'f']
      else if c.toNat < 32 then
        ['\\', 'u', '0', '0', Nat.digitChar (c.toNat / 16), Nat.digitChar (c.toNat % 16)]
      else [c]

/-- A text in quotes. -/
def quote (s : String) : String :=
  String.ofList ('"' :: s.toList.flatMap escape ++ ['"'])

/-- Doubles are positional from `10 ^ (-5)` up to below `10 ^ 16`; a positive
exponent has a sign, and a tie goes to the even digit. -/
def floatLayout : FloatLayout := ⟨-5, 16, "+", false⟩

/-- The text of a number. -/
def writeNumber : Number → String
  | .integer i => toString i.val
  | .float x => floatLayout.write x

/-- Texts in brackets, separated by commas. -/
def bracket (parts : List String) : String := "[" ++ ",".intercalate parts ++ "]"

/-- Texts in braces, separated by commas. -/
def brace (parts : List String) : String := "\x7b" ++ ",".intercalate parts ++ "\x7d"

mutual

/-- The JSON text of a value. -/
def write : Value → String
  | .null => "null"
  | .bool true => "true"
  | .bool false => "false"
  | .number n => writeNumber n
  | .text s => quote s
  | .list xs => bracket (writeList xs)
  | .mapping es => brace (writeEntries es)

/-- The texts of the elements of a list. -/
def writeList : List Value → List String
  | [] => []
  | x :: xs => write x :: writeList xs

/-- The texts of the members of a mapping. -/
def writeEntries : List (String × Value) → List String
  | [] => []
  | (k, v) :: rest => (quote k ++ ":" ++ write v) :: writeEntries rest

end

end Json
end Rulebook
