import Rulebook.Number.Decimal
import Rulebook.Value.Basic

/-!
# JSON documents

A document is JSON text as it was written: members in the order of the text,
repeated keys kept, number literals not yet rounded, and quoted texts whose
escapes may not form a text.  `Document.parse?` reads a whole text into one, and
`Document.value?` gives the value it stands for.  Nothing limits the depth.
-/

namespace Rulebook
namespace Json

/-- A number literal. -/
structure NumberLiteral where
  negative : Bool
  whole : List Char
  fraction : List Char
  exponent : Int
  /-- Neither a point nor an exponent was written. -/
  plain : Bool

/-- JSON text as it was written. -/
inductive Document where
  | null
  | bool (b : Bool)
  | number (literal : NumberLiteral)
  /-- A quoted text; `none` if a surrogate in it is not paired. -/
  | text (s : Option String)
  | list (elements : List Document)
  | mapping (members : List (String × Document))

/-- What remains after white space. -/
def skipBlank : List Char → List Char
  | [] => []
  | c :: rest =>
      if c = ' ' ∨ c = '\n' ∨ c = '\r' ∨ c = '\t' then skipBlank rest else c :: rest

/-! ## Numbers -/

/-- An exponent part of a number literal, which may be absent. -/
def exponentPart? (cs : List Char) : Option (Option Int × List Char) :=
  match cs with
  | c :: rest =>
      if c = 'e' ∨ c = 'E' then
        let (negative, rest) := splitSign rest
        let (digits, rest) := splitDigits rest
        if digits.isEmpty then none
        else
          let n : Int := digitsValue 0 digits
          some (some (if negative then -n else n), rest)
      else some (none, cs)
  | [] => some (none, [])

/-- A fraction part of a number literal, which may be absent. -/
def fractionPart? (cs : List Char) : Option (Option (List Char) × List Char) :=
  match cs with
  | '.' :: rest =>
      let (digits, rest) := splitDigits rest
      if digits.isEmpty then none else some (some digits, rest)
  | _ => some (none, cs)

/-- The number literal at the head of a text. -/
def numberLiteral? (cs : List Char) : Option (NumberLiteral × List Char) := do
  let (negative, rest) :=
    match cs with
    | '-' :: rest => (true, rest)
    | _ => (false, cs)
  let (whole, rest) := splitDigits rest
  if whole.isEmpty || (whole.head? == some '0' && whole.length != 1) then none
  let (fraction, rest) ← fractionPart? rest
  let (exponent, rest) ← exponentPart? rest
  let literal : NumberLiteral :=
    ⟨negative, whole, fraction.getD [], exponent.getD 0, fraction.isNone && exponent.isNone⟩
  pure (literal, rest)

namespace NumberLiteral

/-- The double nearest to a literal, unless it is too large. -/
def float? (l : NumberLiteral) : Option Binary64 :=
  (FloatReading.ofDecimal l.negative (digitsValue 0 (l.whole ++ l.fraction))
    (l.exponent - l.fraction.length)).finite?

/-- The number of a literal: an integer when it is written as one and fits a
word, and a double otherwise. -/
def number? (l : NumberLiteral) : Option Number :=
  let magnitude := digitsValue 0 l.whole
  let whole := if l.negative then -(magnitude : Int) else magnitude
  if l.plain && !(l.negative && magnitude == 0) then
    (Number.ofInt? whole).orElse fun _ => l.float?.map .float
  else l.float?.map .float

end NumberLiteral

/-! ## Quoted texts -/

/-- A piece of a quoted text: a character or an escaped 16-bit unit. -/
inductive Piece where
  | char (c : Char)
  | unit (n : Nat)

/-- Four hexadecimal digits and what follows them. -/
def hexUnit? : List Char → Option (Nat × List Char)
  | a :: b :: c :: d :: rest => do
      let a ← hexDigit? a
      let b ← hexDigit? b
      let c ← hexDigit? c
      let d ← hexDigit? d
      pure (((a * 16 + b) * 16 + c) * 16 + d, rest)
  | _ => none

/-- The character that a one-letter escape stands for. -/
def escapedChar? : Char → Option Char
  | '"' => some '"'
  | '\\' => some '\\'
  | '/' => some '/'
  | 'b' => some (Char.ofNat 8)
  | 'f' => some (Char.ofNat 12)
  | 'n' => some '\n'
  | 'r' => some '\r'
  | 't' => some '\t'
  | _ => none

/-- The pieces of a quoted text after its opening quote, and what follows the
closing one. -/
def pieces? : Nat → List Char → Option (List Piece × List Char)
  | 0, _ => none
  | _ + 1, [] => none
  | _ + 1, '"' :: rest => some ([], rest)
  | fuel + 1, '\\' :: 'u' :: rest => do
      let (unit, rest) ← hexUnit? rest
      let (more, rest) ← pieces? fuel rest
      pure (.unit unit :: more, rest)
  | fuel + 1, '\\' :: c :: rest => do
      let c ← escapedChar? c
      let (more, rest) ← pieces? fuel rest
      pure (.char c :: more, rest)
  | fuel + 1, c :: rest =>
      if c.toNat < 32 ∨ c = '\\' then none
      else do
        let (more, rest) ← pieces? fuel rest
        pure (.char c :: more, rest)

/-- The characters that pieces stand for; surrogates have to come in pairs. -/
def joinPieces? : List Piece → Option (List Char)
  | [] => some []
  | .char c :: rest => (joinPieces? rest).map (c :: ·)
  | .unit high :: rest =>
      if 0xD800 ≤ high ∧ high < 0xDC00 then
        match rest with
        | .unit low :: rest =>
            if 0xDC00 ≤ low ∧ low < 0xE000 then
              (joinPieces? rest).map
                (Char.ofNat (0x10000 + (high - 0xD800) * 0x400 + (low - 0xDC00)) :: ·)
            else none
        | _ => none
      else if 0xDC00 ≤ high ∧ high < 0xE000 then none
      else (joinPieces? rest).map (Char.ofNat high :: ·)

/-- A quoted text after its opening quote. -/
def quoted? (cs : List Char) : Option (Option String × List Char) :=
  (pieces? (cs.length + 1) cs).map fun (ps, rest) => ((joinPieces? ps).map String.ofList, rest)

/-! ## Documents -/

/-- What remains after a word, if the text begins with it. -/
def afterWord? (word : String) (cs : List Char) : Option (List Char) :=
  if word.toList.isPrefixOf cs then some (cs.drop word.length) else none

mutual

/-- The document at the head of a text without leading white space. -/
def document? : Nat → List Char → Option (Document × List Char)
  | 0, _ => none
  | fuel + 1, cs =>
      match cs with
      | 'n' :: _ => (afterWord? "null" cs).map (Document.null, ·)
      | 't' :: _ => (afterWord? "true" cs).map (Document.bool true, ·)
      | 'f' :: _ => (afterWord? "false" cs).map (Document.bool false, ·)
      | '"' :: rest => (quoted? rest).map fun (s, rest) => (Document.text s, rest)
      | '[' :: rest =>
          match skipBlank rest with
          | ']' :: rest => some (Document.list [], rest)
          | rest => (elements? fuel rest).map fun (xs, rest) => (Document.list xs, rest)
      | '\x7b' :: rest =>
          match skipBlank rest with
          | '\x7d' :: rest => some (Document.mapping [], rest)
          | rest => (members? fuel rest).map fun (ms, rest) => (Document.mapping ms, rest)
      | _ => (numberLiteral? cs).map fun (l, rest) => (Document.number l, rest)

/-- The elements of a list up to its closing bracket; at least one. -/
def elements? : Nat → List Char → Option (List Document × List Char)
  | 0, _ => none
  | fuel + 1, cs =>
      match document? fuel cs with
      | none => none
      | some (x, rest) =>
          match skipBlank rest with
          | ',' :: rest =>
              (elements? fuel (skipBlank rest)).map fun (xs, rest) => (x :: xs, rest)
          | ']' :: rest => some ([x], rest)
          | _ => none

/-- The members of a mapping up to its closing brace; at least one. -/
def members? : Nat → List Char → Option (List (String × Document) × List Char)
  | 0, _ => none
  | fuel + 1, cs =>
      match cs with
      | '"' :: rest =>
          match quoted? rest with
          | some (some key, rest) =>
              match skipBlank rest with
              | ':' :: rest =>
                  match document? fuel (skipBlank rest) with
                  | none => none
                  | some (x, rest) =>
                      match skipBlank rest with
                      | ',' :: rest =>
                          (members? fuel (skipBlank rest)).map fun (ms, rest) =>
                            ((key, x) :: ms, rest)
                      | '\x7d' :: rest => some ([(key, x)], rest)
                      | _ => none
              | _ => none
          | _ => none
      | _ => none

end

namespace Document

/-- The document written by a whole text. -/
def parse? (s : String) : Option Document :=
  let cs := skipBlank s.toList
  match document? (2 * cs.length + 2) cs with
  | some (d, rest) => if (skipBlank rest).isEmpty then some d else none
  | none => none

mutual

/-- The value a document stands for; of members with one key the last counts. -/
def value? : Document → Option Value
  | null => some .null
  | bool b => some (.bool b)
  | number l => l.number?.map .number
  | text s => s.map .text
  | list xs => (values? xs).map .list
  | mapping ms => (entries? ms).map fun es => .mapping (Entries.ofList es)

/-- The values of the elements of a list. -/
def values? : List Document → Option (List Value)
  | [] => some []
  | x :: xs =>
      match value? x, values? xs with
      | some v, some vs => some (v :: vs)
      | _, _ => none

/-- The values of the members of a mapping, in the order of the text. -/
def entries? : List (String × Document) → Option (List (String × Value))
  | [] => some []
  | (k, x) :: rest =>
      match value? x, entries? rest with
      | some v, some vs => some ((k, v) :: vs)
      | _, _ => none

end

end Document

/-- The value written by a whole JSON text. -/
def read? (s : String) : Option Value := (Document.parse? s).bind Document.value?

end Json
end Rulebook
