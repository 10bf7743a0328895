import Rulebook.Number.Power
import Rulebook.Regex.Syntax
import Rulebook.Unicode.Property

/-!
# Expressions and their meaning

A tree, read under the flags in force, stands for an expression over sets of
characters and conditions on positions.  Some trees stand for none: an unknown
property, and whatever would tell the bytes of a character apart.
-/

namespace Rulebook
namespace Regex

open Unicode (CharSet)
open scoped CorePower

/-- A condition on the characters next to a position. -/
inductive Look where
  | textStart
  | textEnd
  | lineStart
  | lineEnd
  /-- A line start where a carriage return ends lines as well. -/
  | lineStartCr
  | lineEndCr
  | wordBoundary (unicode : Bool)
  | notWordBoundary (unicode : Bool)
  | wordStart (unicode : Bool)
  | wordEnd (unicode : Bool)
  | wordStartHalf (unicode : Bool)
  | wordEndHalf (unicode : Bool)
deriving DecidableEq

/-- A regular expression over sets of characters. -/
inductive Expr where
  | empty
  | set (s : CharSet)
  | look (l : Look)
  | seq (first second : Expr)
  | either (left right : Expr)
  /-- At least so many times and at most so many times. -/
  | times (inner : Expr) (least : Nat) (most : Option Nat)

/-- The flags in force. -/
structure Flags where
  caseInsensitive : Bool := false
  multiLine : Bool := false
  dotMatchesNewLine : Bool := false
  unicode : Bool := true
  carriageReturn : Bool := false

namespace Flags

/-- The flags after a change. -/
def change (f : Flags) : Flag × Bool → Flags
  | (.caseInsensitive, b) => { f with caseInsensitive := b }
  | (.multiLine, b) => { f with multiLine := b }
  | (.dotMatchesNewLine, b) => { f with dotMatchesNewLine := b }
  | (.unicode, b) => { f with unicode := b }
  | (.carriageReturn, b) => { f with carriageReturn := b }
  | (.swapGreed, _) | (.ignoreBlanks, _) => f

/-- The flags after several changes. -/
def changeAll (f : Flags) (changes : FlagChanges) : Flags := changes.foldl change f

/-- A set closed under differences of case, if case is to be ignored. -/
def fold (f : Flags) (s : CharSet) : CharSet :=
  if f.caseInsensitive then
    if f.unicode then s.foldCase else s.foldAsciiCase
  else s

/-- A set or its complement.  Without Unicode a complement holds bytes that are
no characters, and there is none. -/
def negate? (f : Flags) (negated : Bool) (s : CharSet) : Option CharSet :=
  if negated then
    if f.unicode then some s.complement else none
  else some s

end Flags

/-! ## Classes -/

/-- The characters of a named class of ASCII characters. -/
def AsciiClass.set : AsciiClass → CharSet
  | alnum => ⟨[(48, 57), (65, 90), (97, 122)]⟩
  | alpha => ⟨[(65, 90), (97, 122)]⟩
  | ascii => ⟨[(0, 127)]⟩
  | blank => ⟨[(9, 9), (32, 32)]⟩
  | cntrl => ⟨[(0, 31), (127, 127)]⟩
  | digit => ⟨[(48, 57)]⟩
  | graph => ⟨[(33, 126)]⟩
  | lower => ⟨[(97, 122)]⟩
  | print => ⟨[(32, 126)]⟩
  | punct => ⟨[(33, 47), (58, 64), (91, 96), (123, 126)]⟩
  | space => ⟨[(9, 13), (32, 32)]⟩
  | upper => ⟨[(65, 90)]⟩
  | word => ⟨[(48, 57), (65, 90), (95, 95), (97, 122)]⟩
  | xdigit => ⟨[(48, 57), (65, 70), (97, 102)]⟩

/-- The characters of a class with a letter of its own. -/
def LetterClass.set (unicode : Bool) : LetterClass → CharSet
  | digit => if unicode then Unicode.digits else AsciiClass.digit.set
  | space => if unicode then Unicode.spaces else AsciiClass.space.set
  | word => if unicode then Unicode.wordCharacters else AsciiClass.word.set

/-- The characters with a property. -/
def PropertyQuery.set? : PropertyQuery → Option CharSet
  | named name => Unicode.named? name
  | namedValue name value => Unicode.namedValue? name value

/-- The result of an operation on sets. -/
def ClassOperation.apply : ClassOperation → CharSet → CharSet → CharSet
  | intersection => CharSet.inter
  | difference => CharSet.diff
  | symmetricDifference => CharSet.symmDiff

/-- A literal that is a character under the flags. -/
def Literal.char? (f : Flags) (l : Literal) : Option Char :=
  if !f.unicode && l.byte && l.char.toNat ≥ 128 then none else some l.char

/-- A literal that may stand in a class under the flags. -/
def Literal.member? (f : Flags) (l : Literal) : Option Char :=
  if !f.unicode && l.char.toNat ≥ 128 then none else some l.char

namespace Class

mutual

/-- The characters of a class. -/
def set? (f : Flags) : Class → Option CharSet
  | literal l => (l.member? f).map CharSet.single
  | range a b =>
      match a.member? f, b.member? f with
      | some a, some b => some ⟨[(a.toNat, b.toNat)]⟩
      | _, _ => none
  | ascii kind negated => f.negate? negated (f.fold kind.set)
  | letter kind negated => f.negate? negated (kind.set f.unicode)
  | property query negated =>
      if f.unicode then query.set?.bind fun s => f.negate? negated (f.fold s) else none
  | bracketed negated inner =>
      match set? f inner with
      | some s => f.negate? negated (f.fold s)
      | none => none
  | union items =>
      match sets? f items with
      | some ss => some (CharSet.unions ss)
      | none => none
  | operation op l r =>
      match set? f l, set? f r with
      | some s, some t => some (op.apply (f.fold s) (f.fold t))
      | _, _ => none

/-- The characters of several classes. -/
def sets? (f : Flags) : List Class → Option (List CharSet)
  | [] => some []
  | c :: cs =>
      match set? f c, sets? f cs with
      | some s, some ss => some (s :: ss)
      | _, _ => none

end

end Class

/-! ## Trees -/

/-- The characters that a dot stands for. -/
def dotSet? (f : Flags) : Option CharSet :=
  if !f.unicode then none
  else if f.dotMatchesNewLine then some CharSet.all
  else if f.carriageReturn then some (CharSet.complement ⟨[(10, 10), (13, 13)]⟩)
  else some (CharSet.complement ⟨[(10, 10)]⟩)

/-- The condition that an assertion stands for. -/
def Assertion.look (f : Flags) : Assertion → Look
  | lineStart =>
      if f.multiLine then (if f.carriageReturn then .lineStartCr else .lineStart) else .textStart
  | lineEnd =>
      if f.multiLine then (if f.carriageReturn then .lineEndCr else .lineEnd) else .textEnd
  | textStart => .textStart
  | textEnd => .textEnd
  | wordBoundary => .wordBoundary f.unicode
  | notWordBoundary => .notWordBoundary f.unicode
  | wordStart => .wordStart f.unicode
  | wordEnd => .wordEnd f.unicode
  | wordStartHalf => .wordStartHalf f.unicode
  | wordEndHalf => .wordEndHalf f.unicode

namespace Tree

mutual

/-- The expression of a tree, and the flags in force after it.  A group keeps
changes of flags to itself. -/
def expr? (f : Flags) : Tree → Option (Expr × Flags)
  | empty => some (.empty, f)
  | flags changes => some (.empty, f.changeAll changes)
  | literal l => (l.char? f).map fun c => (.set (f.fold (CharSet.single c)), f)
  | dot => (dotSet? f).map fun s => (.set s, f)
  | assertion a => some (.look (a.look f), f)
  | .class c => (c.set? f).map fun s => (.set s, f)
  | repetition inner least most =>
      match expr? f inner with
      | some (e, g) => some (.times e least most, g)
      | none => none
  | group changes inner =>
      match expr? (f.changeAll changes) inner with
      | some (e, _) => some (e, f)
      | none => none
  | concat items => sequence? f items
  | alternation branches => branches? f branches

/-- The expression of a sequence of trees. -/
def sequence? (f : Flags) : List Tree → Option (Expr × Flags)
  | [] => some (.empty, f)
  | t :: ts =>
      match expr? f t with
      | none => none
      | some (e, g) =>
          match sequence? g ts with
          | some (es, h) => some (.seq e es, h)
          | none => none

/-- The expression of the branches of an alternation. -/
def branches? (f : Flags) : List Tree → Option (Expr × Flags)
  | [] => some (.set CharSet.empty, f)
  | t :: ts =>
      match expr? f t with
      | none => none
      | some (e, g) =>
          match branches? g ts with
          | some (es, h) => some (.either e es, h)
          | none => none

end

end Tree

/-! ## Size -/

/-- A measure of the bytes that expressions take in an automaton, in which those of a
sequence lie one behind the other. -/
structure Measure where
  size : Expr → Nat
  size_empty : size .empty = 0
  size_seq : ∀ a b, size (.seq a b) = size a + size b

/-- An estimate of the bytes that a set of characters takes in an automaton over
the bytes of texts. -/
def setEstimate (s : CharSet) : Nat :=
  if s.isAscii then 32 + 8 * s.ranges.length else 320 + 64 * s.ranges.length

/-- An estimate of the bytes that an expression takes, with repetitions written
out. -/
def Expr.estimate : Expr → Nat
  | empty => 0
  | set s => setEstimate s
  | look _ => 32
  | seq a b => a.estimate + b.estimate
  | either a b => a.estimate + b.estimate + 40
  | times r least none => r.estimate * max 1 least + 40
  | times r least (some most) => r.estimate * most + 40 * (most - least)

/-- The measure by estimates.  The bytes themselves depend on how an automaton is built,
which is not described here. -/
def Measure.estimate : Measure := ⟨Expr.estimate, rfl, fun _ _ => rfl⟩

/-- The bytes that an expression may take. -/
def sizeLimit : Nat := 10 * 2 ^ (20 : Nat)

end Regex
end Rulebook
