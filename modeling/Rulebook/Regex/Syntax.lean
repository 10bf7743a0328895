/-!
# Syntax of regular expressions

The tree of a regular expression as it is written: literals, character classes
with set operations, assertions, groups with flags, repetitions and
alternations.  What a tree means depends on the flags in force where it stands.
-/

namespace Rulebook
namespace Regex

/-- A switch that changes the meaning of what follows it. -/
inductive Flag where
  | caseInsensitive
  | multiLine
  | dotMatchesNewLine
  | swapGreed
  | unicode
  | carriageReturn
  | ignoreBlanks
deriving DecidableEq

/-- Flags turned on or off together. -/
abbrev FlagChanges := List (Flag × Bool)

/-- A literal character; `byte` says that it was written as a byte. -/
structure Literal where
  char : Char
  byte : Bool

/-- Classes with a letter of their own. -/
inductive LetterClass where
  | digit
  | space
  | word

/-- Classes of ASCII characters with a name. -/
inductive AsciiClass where
  | alnum
  | alpha
  | ascii
  | blank
  | cntrl
  | digit
  | graph
  | lower
  | print
  | punct
  | space
  | upper
  | word
  | xdigit

/-- A named property of characters, with a value or without. -/
inductive PropertyQuery where
  | named (name : String)
  | namedValue (name value : String)

/-- Operations on classes. -/
inductive ClassOperation where
  | intersection
  | difference
  | symmetricDifference

/-- A character class. -/
inductive Class where
  | literal (l : Literal)
  | range (first last : Literal)
  | ascii (kind : AsciiClass) (negated : Bool)
  | letter (kind : LetterClass) (negated : Bool)
  | property (query : PropertyQuery) (negated : Bool)
  | bracketed (negated : Bool) (inner : Class)
  | union (items : List Class)
  | operation (op : ClassOperation) (left right : Class)

/-- A condition on a position. -/
inductive Assertion where
  | lineStart
  | lineEnd
  | textStart
  | textEnd
  | wordBoundary
  | notWordBoundary
  | wordStart
  | wordEnd
  | wordStartHalf
  | wordEndHalf

/-- A regular expression as it is written. -/
inductive Tree where
  | empty
  | flags (changes : FlagChanges)
  | literal (l : Literal)
  | dot
  | assertion (a : Assertion)
  | class (c : Class)
  | repetition (inner : Tree) (least : Nat) (most : Option Nat)
  | group (changes : FlagChanges) (inner : Tree)
  | concat (items : List Tree)
  | alternation (branches : List Tree)

namespace Class

mutual

/-- How deep brackets, unions and operations nest.  The empty operand of an operation
is no union. -/
def depth : Class → Nat
  | bracketed _ inner => depth inner + 1
  | union [] => 0
  | union (c :: cs) => max (depth c) (depthList cs) + 1
  | operation _ l r => max (depth l) (depth r) + 1
  | _ => 0

/-- The greatest depth among several classes. -/
def depthList : List Class → Nat
  | [] => 0
  | c :: cs => max (depth c) (depthList cs)

end

/-- Several items of a class as one. -/
def ofItems : List Class → Class
  | [c] => c
  | cs => union cs

end Class

namespace Tree

mutual

/-- How deep groups, repetitions, sequences and classes nest. -/
def depth : Tree → Nat
  | repetition inner _ _ => depth inner + 1
  | group _ inner => depth inner + 1
  | concat items => depthList items + 1
  | alternation branches => depthList branches + 1
  | .class (.bracketed _ inner) => inner.depth + 1
  | _ => 0

/-- The greatest depth among several trees. -/
def depthList : List Tree → Nat
  | [] => 0
  | t :: ts => max (depth t) (depthList ts)

end

/-- A sequence of trees as one. -/
def ofSequence : List Tree → Tree
  | [] => empty
  | [t] => t
  | ts => concat ts

/-- Branches of an alternation as one tree. -/
def ofBranches : List Tree → Tree
  | [t] => t
  | ts => alternation ts

end Tree

end Regex
end Rulebook
