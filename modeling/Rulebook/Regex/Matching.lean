import Rulebook.Regex.Expression

/-!
# Searching a text

An expression is matched against a text by following sets of positions: from a
set of positions where a match may begin to the set of those where it may end.
A set of positions is a number whose bits are its members.  Characters and
conditions become the sets of positions where they hold, once for each text; then
a character shifts a set by one, a condition cuts it down, alternation unites,
and a repetition is followed until nothing new is reached.
-/

namespace Rulebook
namespace Regex

open scoped CorePower

/-- Whether a character belongs to words. -/
def isWord (unicode : Bool) (c : Option Char) : Bool :=
  match c with
  | none => false
  | some c =>
      if unicode then Unicode.wordCharacters.contains c else AsciiClass.word.set.contains c

/-- Whether a condition holds between two characters, either of which may be
missing. -/
def Look.holds (l : Look) (before after : Option Char) : Bool :=
  match l with
  | textStart => before.isNone
  | textEnd => after.isNone
  | lineStart => before.isNone || before == some '\n'
  | lineEnd => after.isNone || after == some '\n'
  | lineStartCr =>
      before.isNone || before == some '\n' ||
        (before == some '\r' && after != some '\n')
  | lineEndCr =>
      after.isNone || after == some '\r' ||
        (after == some '\n' && before != some '\r')
  | wordBoundary u => isWord u before != isWord u after
  | notWordBoundary u => isWord u before == isWord u after
  | wordStart u => !isWord u before && isWord u after
  | wordEnd u => isWord u before && !isWord u after
  | wordStartHalf u => !isWord u before
  | wordEndHalf u => !isWord u after

/-- The positions of the members of a list that pass a test, as bits. -/
def positionsOf {α : Type} (p : α → Bool) : List α → Nat
  | [] => 0
  | a :: as => (if p a then 1 else 0) + 2 * positionsOf p as

/-- The characters before and after each position of a text. -/
def neighbours (before : Option Char) : List Char → List (Option Char × Option Char)
  | [] => [(before, none)]
  | c :: cs => (before, some c) :: neighbours (some c) cs

/-- An expression for one text: characters and conditions are sets of positions. -/
inductive Plan where
  | stay
  | step (positions : Nat)
  | only (positions : Nat)
  | seq (first second : Plan)
  | either (left right : Plan)
  | times (inner : Plan) (least : Nat) (most : Option Nat)

/-- The plan of an expression for a text. -/
def Expr.plan (text : List Char) : Expr → Plan
  | empty => .stay
  | set s => .step (positionsOf s.contains text)
  | look l => .only (positionsOf (fun n => l.holds n.1 n.2) (neighbours none text))
  | seq a b => .seq (a.plan text) (b.plan text)
  | either a b => .either (a.plan text) (b.plan text)
  | times r least most => .times (r.plan text) least most

/-- Follow a set exactly so many times; a set that no longer changes is final. -/
def repeatStep (f : Nat → Nat) : Nat → Nat → Nat
  | 0, s => s
  | n + 1, s =>
      let t := f s
      if t = s then s else repeatStep f n t

/-- Follow a set up to so many times and collect what is reached. -/
def collectSteps (f : Nat → Nat) : Nat → Nat → Nat
  | 0, s => s
  | n + 1, s =>
      let t := s ||| f s
      if t = s then s else collectSteps f n t

/-- The positions where a plan may end, for those where it may begin, in a text
of the given length. -/
def Plan.follow (length : Nat) : Plan → Nat → Nat
  | stay, s => s
  | step m, s => (s &&& m) <<< 1
  | only m, s => s &&& m
  | seq a b, s => b.follow length (a.follow length s)
  | either a b, s => a.follow length s ||| b.follow length s
  | times r least most, s =>
      let begun := repeatStep (r.follow length) least s
      let more :=
        match most with
        | some most => most - least
        | none => length + 1
      collectSteps (r.follow length) more begun

/-- Whether an expression matches some part of a text. -/
def Expr.search (e : Expr) (text : List Char) : Bool :=
  let n := text.length
  (e.plan text).follow n (2 ^ (n + 1) - 1) != 0

end Regex
end Rulebook
