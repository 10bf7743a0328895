/-!
# Sets of characters

A set of characters is a list of ranges of code points in ascending order with
gaps between them.  Tables write such a list as text: for each range the gap
from the end of the one before and, after a point, the number of further members
when there are any, all in base 36.
-/

namespace Rulebook
namespace Unicode

/-- A set of characters as ranges of code points. -/
structure CharSet where
  ranges : List (Nat × Nat)
deriving DecidableEq

/-- The greatest code point. -/
def lastCode : Nat := 0x10FFFF

namespace CharSet

/-- No character. -/
def empty : CharSet := ⟨[]⟩

/-- Every character. -/
def all : CharSet := ⟨[(0, lastCode)]⟩

/-- A single character. -/
def single (c : Char) : CharSet := ⟨[(c.toNat, c.toNat)]⟩

/-- Whether a code point is in the set. -/
def containsCode (s : CharSet) (code : Nat) : Bool :=
  s.ranges.any fun r => r.1 ≤ code && code ≤ r.2

/-- Whether a character is in the set. -/
def contains (s : CharSet) (c : Char) : Bool := s.containsCode c.toNat

/-- Join a pending range with the ranges after it that touch it. -/
def joinFrom (low high : Nat) : List (Nat × Nat) → List (Nat × Nat)
  | [] => [(low, high)]
  | (a, b) :: rest =>
      if a ≤ high + 1 then joinFrom low (max high b) rest
      else (low, high) :: joinFrom a b rest

/-- The set of the members of some ranges, in any order. -/
def ofRanges (rs : List (Nat × Nat)) : CharSet :=
  match rs.mergeSort (fun a b => decide (a.1 ≤ b.1)) with
  | [] => empty
  | (a, b) :: rest => ⟨joinFrom a b rest⟩

/-- Members of either set. -/
def union (s t : CharSet) : CharSet := ofRanges (s.ranges ++ t.ranges)

/-- The gaps between ranges, from a first code point on. -/
def gapsFrom (next : Nat) : List (Nat × Nat) → List (Nat × Nat)
  | [] => if next ≤ lastCode then [(next, lastCode)] else []
  | (a, b) :: rest =>
      if next < a then (next, a - 1) :: gapsFrom (b + 1) rest else gapsFrom (b + 1) rest

/-- The characters that are not in the set. -/
def complement (s : CharSet) : CharSet := ⟨gapsFrom 0 s.ranges⟩

/-- Members of both sets. -/
def inter (s t : CharSet) : CharSet := (s.complement.union t.complement).complement

/-- Members of the first set that are not in the second. -/
def diff (s t : CharSet) : CharSet := s.inter t.complement

/-- Members of exactly one of the sets. -/
def symmDiff (s t : CharSet) : CharSet := (s.diff t).union (t.diff s)

/-- Members of any of the sets. -/
def unions (ss : List CharSet) : CharSet := ofRanges (ss.flatMap ranges)

/-- Whether all members are ASCII characters. -/
def isAscii (s : CharSet) : Bool := s.ranges.all fun r => r.2 < 128

end CharSet

/-! ## Tables -/

/-- The value of a digit in base 36. -/
def digit36 (c : Char) : Nat :=
  if c.isDigit then c.toNat - '0'.toNat else c.toNat - 'a'.toNat + 10

/-- The number written by digits in base 36. -/
def number36 (cs : List Char) : Nat := cs.foldl (fun n c => 36 * n + digit36 c) 0

/-- The parts of a text between separators; empty parts are left out. -/
def splitParts (isSeparator : Char → Bool) (cs : List Char) : List (List Char) :=
  let step := fun (c : Char) (acc : List Char × List (List Char)) =>
    if isSeparator c then ([], if acc.1.isEmpty then acc.2 else acc.1 :: acc.2)
    else (c :: acc.1, acc.2)
  let (first, rest) := cs.foldr step ([], [])
  if first.isEmpty then rest else first :: rest

/-- The entries of a table, which blanks and line ends separate. -/
def tokens (text : String) : List (List Char) :=
  splitParts (fun c => c == ' ' || c == '\n') text.toList

/-- The numbers of an entry. -/
def numbers (separator : Char) (token : List Char) : List Nat :=
  (splitParts (· == separator) token).map number36

/-- The ranges that entries describe, from a first code point on. -/
def rangesFrom (next : Nat) : List (List Nat) → List (Nat × Nat)
  | [] => []
  | [gap] :: rest => (next + gap, next + gap) :: rangesFrom (next + gap + 1) rest
  | [gap, more] :: rest =>
      (next + gap, next + gap + more) :: rangesFrom (next + gap + more + 1) rest
  | _ :: rest => rangesFrom next rest

/-- The set that a table describes. -/
def CharSet.ofTable (text : String) : CharSet := ⟨rangesFrom 0 ((tokens text).map (numbers '.'))⟩

end Unicode
end Rulebook
