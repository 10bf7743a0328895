import Rulebook.Json.Text
import Rulebook.Sorting

/-!
# Canonical text

The one layout over which identities are computed.  A double is replaced by a
mapping that holds its text under a mark of its own, so that it can never be
taken for an integer; then the tree is written as compact JSON with the members
of every mapping in the order of their quoted keys.
-/

namespace Rulebook
namespace Canonical

/-- The key under which a double holds its text. -/
def floatTag : String := "$f64"

/-- Doubles are positional from `10 ^ (-4)` up to below `10 ^ 16`; a positive
exponent has no sign, and a tie goes up. -/
def floatLayout : FloatLayout := ⟨-4, 16, "", true⟩

/-- A text in quotes. -/
def quote (s : String) : List Char := '"' :: (s.toList.flatMap Json.escape ++ ['"'])

/-- Texts separated by commas. -/
def commas : List (List Char) → List Char
  | [] => []
  | [part] => part
  | part :: rest => part ++ ',' :: commas rest

/-- A member of a mapping: its quoted key and the text of its argument. -/
structure Member where
  key : List Char
  argument : List Char

namespace Member

/-- Members stand in the order of their quoted keys. -/
def le (a b : Member) : Bool := decide (¬ b.key < a.key)

/-- The text of a member. -/
def text (m : Member) : List Char := m.key ++ ':' :: m.argument

end Member

/-- The text of a mapping with the given members. -/
def braced (ms : List Member) : List Char :=
  '\x7b' :: (commas ((Sorting.sort Member.le ms).map Member.text) ++ ['\x7d'])

/-- The text of a number. -/
def number : Number → List Char
  | .integer i => (toString i.val).toList
  | .float x => braced [⟨quote floatTag, quote (floatLayout.write x)⟩]

mutual

/-- The characters of the canonical text of a value. -/
def chars : Value → List Char
  | .null => "null".toList
  | .bool true => "true".toList
  | .bool false => "false".toList
  | .number n => number n
  | .text s => quote s
  | .list xs => '[' :: (commas (charsList xs) ++ [']'])
  | .mapping es => braced (members es)

/-- The canonical texts of the elements of a list. -/
def charsList : List Value → List (List Char)
  | [] => []
  | x :: xs => chars x :: charsList xs

/-- The members of a mapping, in the order of its keys. -/
def members : List (String × Value) → List Member
  | [] => []
  | (k, v) :: rest => ⟨quote k, chars v⟩ :: members rest

end

/-- The canonical text of a value. -/
def write (v : Value) : String := String.ofList (chars v)

/-- The bytes of the canonical text. -/
def bytes (v : Value) : List UInt8 := (chars v).flatMap String.utf8EncodeChar

end Canonical
end Rulebook
