import Rulebook.Coercion
import Rulebook.Identity.SchemaId
import Rulebook.Pattern
import Rulebook.Rule.Basic
import Rulebook.Sorting

/-!
# Programs

A compiled rule is a program: a list of steps, each of which checks a value or
changes it.  Programs refer to each other only through links, which are bound to
programs elsewhere, so that rules may refer to themselves and to rules that come
later.

Steps are written over the type `γ` of what they call.  In a program these are
callees, which are reached through links.
-/

namespace Rulebook

/-- A reference to a program that is bound to it later.  The number tells links
apart; the name is for messages. -/
structure Link where
  number : Nat
  name : String
deriving DecidableEq

/-- A rule as it is called from another. -/
inductive Callee where
  /-- The empty rule, which passes every value. -/
  | pass
  | link (l : Link)
deriving DecidableEq

/-- A declared entry of a mapping. -/
structure Entry (γ : Type) where
  key : String
  /-- The key of the result. -/
  output : String
  /-- Further keys, which are looked for first. -/
  synonyms : List String
  callee : γ
  default : Option Substitute
  required : Bool

/-- A rule for the keys that match a pattern. -/
structure PatternEntry (γ : Type) where
  pattern : Pattern
  /-- The key of the result, when it differs from the key of the input. -/
  rename : Option String
  callee : γ

/-- Rules for keys and values that are not declared. -/
structure OpenRule (γ : Type) where
  keys : Option γ
  values : Option γ

/-- What a rule says about the members of a mapping. -/
structure MappingItems (γ : Type) where
  /-- Declared entries, in the order of their keys. -/
  entries : List (Entry γ)
  /-- Pattern entries, in the order in which they are tried. -/
  patterns : List (PatternEntry γ)
  openRule : Option (OpenRule γ)
  policy : UnknownKeys

/-- What a rule says about the elements of a list. -/
structure SequenceItems (γ : Type) where
  openRule : OpenRule γ

/-- What a rule says about the members of containers, by the kind of container. -/
structure Structure (γ : Type) where
  mapping : Option (MappingItems γ)
  sequence : Option (SequenceItems γ)

/-- A step that calls no other rule. -/
inductive Check where
  /-- Null ends the program, with a substitute. -/
  | nullable (fallback : Option Substitute) (post : Option Coercer)
  | kind (k : Kind)
  | coerce (c : Coercer)
  | pattern (p : Pattern)
  | remap (r : Remap)
  | allowed (e : Enumeration)
  | min (bound : Value)
  | max (bound : Value)
  | minLen (bound : Nat)
  | maxLen (bound : Nat)
  | postCoerce (c : Coercer)

/-- One step of a program. -/
inductive Step (γ : Type) where
  | check (c : Check)
  | members (s : Structure γ)
  | anyOf (branches : List γ)
  | oneOf (branches : List γ)
  /-- The whole rule is another one. -/
  | refer (target : γ)

/-- A compiled rule.  The number tells programs apart, also those that do the
same. -/
structure Program where
  number : Nat
  id : SchemaId
  label : String
  /-- Meeting a value under way satisfies the rule. -/
  breakLoops : Bool
  steps : List (Step Callee)

/-- Programs by the number of the link that is bound to them, latest first. -/
abbrev Bindings := List (Nat × Program)

variable {γ : Type}

/-- An entry under a key, with what the rule it holds says about it. -/
def Entry.ofTerms (key : String) (terms : EntryTerms) (callee : γ) (requireAll : Bool) :
    Entry γ where
  key
  output := terms.rename.getD key
  synonyms := terms.synonyms
  callee
  default := terms.default
  required := terms.required.getD requireAll

namespace MappingItems

/-- The order in which patterns are tried: longer sources first, and sources of
one length by their text. -/
def patternBefore (a b : PatternEntry γ) : Bool :=
  let m := a.pattern.source.utf8ByteSize
  let n := b.pattern.source.utf8ByteSize
  decide (n < m) || (m == n && decide (a.pattern.source ≤ b.pattern.source))

/-- Items with entries and patterns put in order. -/
def make (entries : List (Entry γ)) (patterns : List (PatternEntry γ))
    (openRule : Option (OpenRule γ)) (policy : UnknownKeys) : MappingItems γ where
  entries := Sorting.sort (fun a b => decide (a.key ≤ b.key)) entries
  patterns := Sorting.sort patternBefore patterns
  openRule
  policy

/-- Whether a key is declared, as a key or as a synonym of one. -/
def declares (m : MappingItems γ) (key : String) : Bool :=
  m.entries.any fun e => e.key == key || e.synonyms.contains key

end MappingItems

end Rulebook
