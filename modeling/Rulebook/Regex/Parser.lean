import Rulebook.Number.Decimal
import Rulebook.Regex.Syntax
import Rulebook.Text.Blank
import Rulebook.Unicode.Property

/-!
# Reading regular expressions

The parser reads a whole text into a `Tree`, or refuses it.  It knows groups with
names and flags, counted repetitions, bracketed classes with nesting and set
operations, escapes for characters and properties, and word boundaries.
Look-around and back-references are not part of the syntax.  With the flag that
ignores blanks, white space and comments between tokens are skipped.

Each function takes the state before what it reads and gives the state after
it; `none` is a refusal.
-/

namespace Rulebook
namespace Regex

open scoped CorePower

/-- Where the parser stands. -/
structure ParseState where
  rest : List Char
  /-- White space and comments are skipped. -/
  ignoreBlanks : Bool
  /-- Names of groups so far. -/
  names : List String

/-- A step of the parser. -/
abbrev Parse (α : Type) := ParseState → Option (α × ParseState)

namespace ParseState

/-- The state after the next character. -/
def advance (s : ParseState) : ParseState := { s with rest := s.rest.drop 1 }

/-- What follows white space and comments. -/
def skipComments : Nat → List Char → List Char
  | 0, cs => cs
  | _ + 1, [] => []
  | fuel + 1, c :: rest =>
      if isWhiteSpace c then skipComments fuel rest
      else if c = '#' then skipComments fuel ((rest.dropWhile (· != '\n')).drop 1)
      else c :: rest

/-- The state after white space and comments, if they are ignored. -/
def skip (s : ParseState) : ParseState :=
  if s.ignoreBlanks then { s with rest := skipComments (s.rest.length + 1) s.rest } else s

/-- The state after the next character and what is ignored after it. -/
def advanceSkip (s : ParseState) : ParseState := s.advance.skip

/-- The next character. -/
def next? (s : ParseState) : Option Char := s.rest.head?

/-- The character after the next one, past what is ignored. -/
def peekSkip? (s : ParseState) : Option Char :=
  let after := s.rest.drop 1
  if s.ignoreBlanks then
    let rest :=
      match after.dropWhile isWhiteSpace with
      | '#' :: more => more.dropWhile isWhiteSpace
      | rest => rest
    rest.head?.or after.head?
  else after.head?

/-- The state after a word, if it comes next. -/
def after? (s : ParseState) (word : String) : Option ParseState :=
  if word.toList.isPrefixOf s.rest then some { s with rest := s.rest.drop word.length } else none

/-- Whether a word comes next. -/
def beginsWith (s : ParseState) (word : String) : Bool := word.toList.isPrefixOf s.rest

end ParseState

open ParseState

/-! ## Escapes -/

/-- Characters with a meaning of their own. -/
def isMeta (c : Char) : Bool :=
  c == '\x7b' || c == '\x7d' || "\\.+*?()|[]^$#&-~".toList.contains c

/-- Whether a backslash may stand before a character that then means itself. -/
def isEscapable (c : Char) : Bool :=
  isMeta c || (c.toNat < 128 && !c.isAlphanum && c != '<' && c != '>')

/-- The value of hexadecimal digits. -/
def hexValue (cs : List Char) : Nat := cs.foldl (fun n c => 16 * n + (hexDigit? c).getD 0) 0

/-- The character with a code point, if there is one. -/
def charOfCode? (n : Nat) : Option Char :=
  if h : n.isValidChar then some (Char.ofNatAux n h) else none

/-- `n` hexadecimal digits, the first of which comes next. -/
def hexDigits : Nat → List Char → Parse (List Char)
  | 0, acc => fun s => some (acc.reverse, s)
  | n + 1, acc => fun s => do
      let c ← s.next?
      if (hexDigit? c).isNone then none
      hexDigits n (c :: acc) s.advanceSkip

/-- Hexadecimal digits up to a closing brace, which is passed. -/
def hexBraced : Nat → List Char → Parse (List Char)
  | 0, _ => fun _ => none
  | fuel + 1, acc => fun s => do
      let c ← s.next?
      if c = '\x7d' then pure (acc.reverse, s.advanceSkip)
      else if (hexDigit? c).isNone then none
      else hexBraced fuel (c :: acc) s.advanceSkip

/-- A character written by its code, after the letter that says how. -/
def hexLiteral (letter : Char) : Parse Literal := fun s =>
  match s.next? with
  | none => none
  | some '\x7b' => do
      let s := s.advanceSkip
      let (digits, s) ← hexBraced (s.rest.length + 1) [] s
      if digits.isEmpty then none
      let c ← charOfCode? (hexValue digits)
      pure (⟨c, false⟩, s)
  | some _ => do
      let count := if letter = 'x' then 2 else if letter = 'u' then 4 else 8
      let (digits, s) ← hexDigits count [] s
      let c ← charOfCode? (hexValue digits)
      pure (⟨c, letter = 'x'⟩, s)

/-- The text of a property in braces, up to the closing brace, which is passed. -/
def propertyText : Nat → List Char → Parse (List Char)
  | 0, _ => fun _ => none
  | fuel + 1, acc => fun s => do
      let c ← s.next?
      if c = '\x7d' then pure (acc.reverse, s.advance)
      else propertyText fuel (c :: acc) s.advanceSkip

/-- The query that the text of a property makes. -/
def propertyQuery (cs : List Char) : PropertyQuery :=
  let text := String.ofList cs
  let split := fun (separator : String) =>
    match text.splitOn separator with
    | name :: value :: more => some (name, separator.intercalate (value :: more))
    | _ => none
  match (split "!=").or ((split ":").or (split "=")) with
  | some (name, value) => .namedValue name value
  | none => .named text

/-- A property of characters, after its letter. -/
def propertyClass (negated : Bool) : Parse Class := fun s =>
  match s.next? with
  | none => none
  | some '\x7b' => do
      let s := s.advanceSkip
      let (cs, s) ← propertyText (s.rest.length + 1) [] s
      pure (.property (propertyQuery cs) negated, s)
  | some c =>
      if c = '\\' then none
      else some (.property (.named (String.singleton c)) negated, s.advanceSkip)

/-- Whether a character may stand in the name of a word boundary. -/
def isBoundaryChar (c : Char) : Bool :=
  ('a' ≤ c && c ≤ 'z') || ('A' ≤ c && c ≤ 'Z') || c == '-'

/-- The name of a word boundary up to its closing brace, which is passed. -/
def boundaryName : Nat → List Char → Parse (List Char)
  | 0, _ => fun _ => none
  | fuel + 1, acc => fun s => do
      let c ← s.next?
      if c = '\x7d' then pure (acc.reverse, s.advance)
      else if isBoundaryChar c then boundaryName fuel (c :: acc) s.advanceSkip
      else none

/-- A word boundary, after its letter.  A brace that begins no name is left to
the repetition it belongs to. -/
def wordBoundary : Parse Assertion := fun s =>
  if s.next? = some '\x7b' then
    let inside := s.advanceSkip
    match inside.next? with
    | none => none
    | some c =>
        if !isBoundaryChar c then some (.wordBoundary, s)
        else
          match boundaryName (inside.rest.length + 1) [] inside with
          | none => none
          | some (name, s) =>
              match String.ofList name with
              | "start" => some (.wordStart, s)
              | "end" => some (.wordEnd, s)
              | "start-half" => some (.wordStartHalf, s)
              | "end-half" => some (.wordEndHalf, s)
              | _ => none
  else some (.wordBoundary, s)

/-- What an escape stands for. -/
inductive Escaped where
  | literal (l : Literal)
  | class (c : Class)
  | assertion (a : Assertion)

/-- The control character with an escape of one letter. -/
def controlChar? : Char → Option Char
  | 'a' => some (Char.ofNat 7)
  | 'f' => some (Char.ofNat 12)
  | 't' => some '\t'
  | 'n' => some '\n'
  | 'r' => some '\r'
  | 'v' => some (Char.ofNat 11)
  | _ => none

/-- The assertion with an escape of one letter. -/
def assertionLetter? : Char → Option Assertion
  | 'A' => some .textStart
  | 'z' => some .textEnd
  | 'B' => some .notWordBoundary
  | '<' => some .wordStart
  | '>' => some .wordEnd
  | _ => none

/-- The class with an escape of one letter. -/
def letterClass? : Char → Option Class
  | 'd' => some (.letter .digit false)
  | 'D' => some (.letter .digit true)
  | 's' => some (.letter .space false)
  | 'S' => some (.letter .space true)
  | 'w' => some (.letter .word false)
  | 'W' => some (.letter .word true)
  | _ => none

/-- An escape, the backslash of which comes next. -/
def escape : Parse Escaped := fun s =>
  let s := s.advance
  match s.next? with
  | none => none
  | some c =>
      if c.isDigit then none
      else if c = 'x' ∨ c = 'u' ∨ c = 'U' then
        (hexLiteral c s.advanceSkip).map fun (l, s) => (.literal l, s)
      else if c = 'p' ∨ c = 'P' then
        (propertyClass (c = 'P') s.advanceSkip).map fun (k, s) => (.class k, s)
      else if c = 'b' then
        (wordBoundary s.advance).map fun (a, s) => (.assertion a, s)
      else if isEscapable c then some (.literal ⟨c, false⟩, s.advance)
      else
        match controlChar? c, assertionLetter? c, letterClass? c with
        | some k, _, _ => some (.literal ⟨k, false⟩, s.advance)
        | _, some a, _ => some (.assertion a, s.advance)
        | _, _, some k => some (.class k, s.advance)
        | none, none, none => none

/-! ## Bracketed classes -/

/-- The named class of ASCII characters. -/
def asciiClass? : String → Option AsciiClass
  | "alnum" => some .alnum
  | "alpha" => some .alpha
  | "ascii" => some .ascii
  | "blank" => some .blank
  | "cntrl" => some .cntrl
  | "digit" => some .digit
  | "graph" => some .graph
  | "lower" => some .lower
  | "print" => some .print
  | "punct" => some .punct
  | "space" => some .space
  | "upper" => some .upper
  | "word" => some .word
  | "xdigit" => some .xdigit
  | _ => none

/-- A named class of ASCII characters, the bracket of which comes next. -/
def asciiItem : Parse Class := fun s => do
  let inside ← s.after? "[:"
  let (negated, inside) :=
    match inside.after? "^" with
    | some more => (true, more)
    | none => (false, inside)
  let (name, rest) := inside.rest.span (· != ':')
  let done ← ParseState.after? { inside with rest } ":]"
  let kind ← asciiClass? (String.ofList name)
  pure (.ascii kind negated, done)

/-- One item of a class. -/
def classItem : Parse Class := fun s =>
  match s.next? with
  | none => none
  | some '\\' =>
      match escape s with
      | some (.literal l, s) => some (.literal l, s)
      | some (.class c, s) => some (c, s)
      | _ => none
  | some c => some (.literal ⟨c, false⟩, s.advance)

/-- One item of a class, or a range of characters. -/
def classRange : Parse Class := fun s => do
  let (first, s) ← classItem s
  let s := s.skip
  let c ← s.next?
  if c != '-' || s.peekSkip? == some ']' || s.peekSkip? == some '-' then pure (first, s)
  else
    let s := s.advanceSkip
    let (last, s) ← classItem s
    match first, last with
    | .literal a, .literal b =>
        if a.char ≤ b.char then pure (.range a b, s) else none
    | _, _ => none

/-- The hyphens at the beginning of a class, which mean themselves. -/
def leadingHyphens : Nat → List Class → Parse (List Class)
  | 0, acc => fun s => some (acc, s)
  | fuel + 1, acc => fun s =>
      match s.next? with
      | none => none
      | some '-' => leadingHyphens fuel (.literal ⟨'-', false⟩ :: acc) s.advanceSkip
      | some _ => some (acc, s)

/-- The operation that comes next in a class. -/
def classOperation? (s : ParseState) : Option (ClassOperation × ParseState) :=
  ((s.after? "&&").map (ClassOperation.intersection, ·)).or
    (((s.after? "--").map (ClassOperation.difference, ·)).or
      ((s.after? "~~").map (ClassOperation.symmetricDifference, ·)))

/-- The left side of an operation, if there is one, joined with its right side. -/
def joinOperation : Option (Class × ClassOperation) → Class → Class
  | none, right => right
  | some (left, op), right => .operation op left right

mutual

/-- A bracketed class, the bracket of which comes next. -/
def bracketed : Nat → Parse Class
  | 0 => fun _ => none
  | fuel + 1 => fun s => do
      let s := s.advanceSkip
      let c ← s.next?
      let negated := c == '^'
      let s := if negated then s.advanceSkip else s
      let (items, s) ← leadingHyphens (s.rest.length + 1) [] s
      let c ← s.next?
      if items.isEmpty && c == ']' then
        let s := s.advanceSkip
        if s.rest.isEmpty then none
        (classBody fuel [.literal ⟨']', false⟩] none s).map fun (k, s) =>
          (.bracketed negated k, s)
      else (classBody fuel items none s).map fun (k, s) => (.bracketed negated k, s)

/-- The items of a class up to its closing bracket, with those read so far, last
first, and the left side of an operation. -/
def classBody : Nat → List Class → Option (Class × ClassOperation) → Parse Class
  | 0, _, _ => fun _ => none
  | fuel + 1, items, left => fun s =>
      let s := s.skip
      match s.next? with
      | none => none
      | some '[' =>
          match asciiItem s with
          | some (item, s) => classBody fuel (item :: items) left s
          | none =>
              match bracketed fuel s with
              | some (item, s) => classBody fuel (item :: items) left s
              | none => none
      | some ']' => some (joinOperation left (Class.ofItems items.reverse), s.advance)
      | some _ =>
          match classOperation? s with
          | some (op, s) =>
              classBody fuel [] (some (joinOperation left (Class.ofItems items.reverse), op)) s
          | none =>
              match classRange s with
              | some (item, s) => classBody fuel (item :: items) left s
              | none => none

end

/-! ## Repetitions -/

/-- Decimal digits, with what is ignored between them. -/
def countDigits : Nat → List Char → ParseState → List Char × ParseState
  | 0, acc, s => (acc.reverse, s)
  | fuel + 1, acc, s =>
      match s.next? with
      | some c => if c.isDigit then countDigits fuel (c :: acc) s.advanceSkip else (acc.reverse, s)
      | none => (acc.reverse, s)

/-- The state after white space. -/
def skipWhite (s : ParseState) : ParseState := { s with rest := s.rest.dropWhile isWhiteSpace }

/-- A count of a repetition: its digits, which may be missing. -/
def count (s : ParseState) : List Char × ParseState :=
  let s := skipWhite s
  let (digits, s) := countDigits (s.rest.length + 1) [] s
  (digits, (skipWhite s).skip)

/-- The value of the digits of a count. -/
def countValue? (digits : List Char) : Option Nat :=
  if digits.isEmpty then none
  else
    let n := digitsValue 0 digits
    if n < 2 ^ (32 : Nat) then some n else none

/-- What may be repeated. -/
def isRepeatable : Tree → Bool
  | .empty | .flags _ => false
  | _ => true

/-- The bounds of a counted repetition, the brace of which comes next. -/
def countedBounds : Parse (Nat × Option Nat) := fun s => do
  let s := s.advanceSkip
  if s.rest.isEmpty then none
  let (digits, s) := count s
  let c ← s.next?
  let (bounds, s) ←
    if c = ',' then
      let s := s.advanceSkip
      let c ← s.next?
      if c = '\x7d' then
        let least ← countValue? digits
        pure ((least, none), s)
      else
        let least ← countValue? digits
        let (digits, s) := count s
        let most ← countValue? digits
        pure ((least, some most), s)
    else
      let least ← countValue? digits
      pure ((least, some least), s)
  let c ← s.next?
  if c != '\x7d' then none
  let s := s.advanceSkip
  let s := if s.next? = some '?' then s.advance else s
  match bounds with
  | (least, some most) => if least ≤ most then pure (bounds, s) else none
  | _ => pure (bounds, s)

/-! ## Groups and sequences -/

/-- The flag with a letter. -/
def flagOfLetter? : Char → Option Flag
  | 'i' => some .caseInsensitive
  | 'm' => some .multiLine
  | 's' => some .dotMatchesNewLine
  | 'U' => some .swapGreed
  | 'u' => some .unicode
  | 'R' => some .carriageReturn
  | 'x' => some .ignoreBlanks
  | _ => none

/-- Flags up to a colon or a closing parenthesis, which comes next then.  No flag
may stand twice, a hyphen stands at most once, and a flag follows it. -/
def flagChanges : Nat → FlagChanges → Bool → Bool → Parse FlagChanges
  | 0, _, _, _ => fun _ => none
  | fuel + 1, acc, negated, dangling => fun s => do
      let c ← s.next?
      if c = ':' ∨ c = ')' then
        if dangling then none else pure (acc.reverse, s)
      else if c = '-' then
        if negated then none else flagChanges fuel acc true true s.advance
      else
        let flag ← flagOfLetter? c
        if acc.any (·.1 == flag) then none
        else flagChanges fuel ((flag, !negated) :: acc) negated false s.advance

/-- Whether a character may stand in the name of a group. -/
def isNameChar (first : Bool) (c : Char) : Bool :=
  if first then c == '_' || Unicode.alphabetic.contains c
  else c == '_' || c == '.' || c == '[' || c == ']' || Unicode.alphanumeric.contains c

/-- The name of a group up to its closing angle bracket, which is passed. -/
def groupName (s : ParseState) : Option (String × ParseState) :=
  let (name, rest) := s.rest.span (· != '>')
  match name, rest with
  | first :: more, '>' :: rest =>
      let text := String.ofList name
      if isNameChar true first && more.all (isNameChar false) && !s.names.contains text then
        some (text, { s with rest, names := text :: s.names })
      else none
  | _, _ => none

/-- The setting that flags give to a switch, if they change it. -/
def setting (flag : Flag) (changes : FlagChanges) (old : Bool) : Bool :=
  ((changes.find? (·.1 == flag)).map (·.2)).getD old

/-- What a parenthesis opens: a change of flags for the rest of the group around
it, or a group with its own flags. -/
inductive Opening where
  | flags (changes : FlagChanges)
  | group (changes : FlagChanges)

/-- An opening parenthesis and what belongs to it. -/
def opening : Parse Opening := fun s => do
  let s := s.advanceSkip
  if s.beginsWith "?=" || s.beginsWith "?!" || s.beginsWith "?<=" || s.beginsWith "?<!" then none
  match (s.after? "?P<").or (s.after? "?<") with
  | some inside => (groupName inside).map fun (_, s) => (.group [], s)
  | none =>
      match s.after? "?" with
      | none => pure (.group [], s)
      | some s =>
          let (changes, s) ← flagChanges (s.rest.length + 1) [] false false s
          if s.next? = some ':' then pure (.group changes, s.advance)
          else if changes.isEmpty then none
          else pure (.flags changes, s.advance)

/-- A character, an escape or an assertion. -/
def primitive : Parse Tree := fun s =>
  match s.next? with
  | none => none
  | some '\\' =>
      match escape s with
      | some (.literal l, s) => some (.literal l, s)
      | some (.class c, s) => some (.class c, s)
      | some (.assertion a, s) => some (.assertion a, s)
      | none => none
  | some '.' => some (.dot, s.advance)
  | some '^' => some (.assertion .lineStart, s.advance)
  | some '$' => some (.assertion .lineEnd, s.advance)
  | some c => some (.literal ⟨c, false⟩, s.advance)

/-- The bounds of the repetition operator that comes next. -/
def repetitionBounds (c : Char) : Parse (Nat × Option Nat) := fun s =>
  if c = '\x7b' then countedBounds s
  else
    let bounds := if c = '?' then (0, some 1) else if c = '*' then (0, none) else (1, none)
    let s := s.advance
    some (bounds, if s.next? = some '?' then s.advance else s)

/-- Branches of an alternation up to the end of the text or to a closing
parenthesis, which comes next then; with the items of the present branch and the
branches before it, both last first. -/
def readBranches : Nat → List Tree → List Tree → Parse Tree
  | 0, _, _ => fun _ => none
  | fuel + 1, items, branches => fun s =>
      let s := s.skip
      let finished := fun (s : ParseState) =>
        some (Tree.ofBranches (Tree.ofSequence items.reverse :: branches).reverse, s)
      match s.next? with
      | none => finished s
      | some ')' => finished s
      | some '|' => readBranches fuel [] (Tree.ofSequence items.reverse :: branches) s.advance
      | some '(' =>
          match opening s with
          | none => none
          | some (.flags changes, s) =>
              readBranches fuel (.flags changes :: items) branches
                { s with ignoreBlanks := setting .ignoreBlanks changes s.ignoreBlanks }
          | some (.group changes, inside) =>
              let entered :=
                { inside with
                  ignoreBlanks := setting .ignoreBlanks changes inside.ignoreBlanks }
              match readBranches fuel [] [] entered with
              | some (inner, after) =>
                  if after.next? = some ')' then
                    readBranches fuel (.group changes inner :: items) branches
                      { after.advance with ignoreBlanks := s.ignoreBlanks }
                  else none
              | none => none
      | some '[' =>
          match bracketed (2 * s.rest.length + 2) s with
          | some (c, s) => readBranches fuel (.class c :: items) branches s
          | none => none
      | some c =>
          if c = '?' ∨ c = '*' ∨ c = '+' ∨ c = '\x7b' then
            match items with
            | [] => none
            | item :: items =>
                if isRepeatable item then
                  match repetitionBounds c s with
                  | some ((least, most), s) =>
                      readBranches fuel (.repetition item least most :: items) branches s
                  | none => none
                else none
          else
            match primitive s with
            | some (t, s) => readBranches fuel (t :: items) branches s
            | none => none

/-- How deep an expression may nest. -/
def nestLimit : Nat := 250

/-- The tree of a whole text. -/
def Tree.parse? (source : List Char) : Option Tree :=
  match readBranches (2 * source.length + 2) [] [] ⟨source, false, []⟩ with
  | some (t, s) => if s.rest.isEmpty && decide (t.depth ≤ nestLimit) then some t else none
  | none => none

end Regex
end Rulebook
