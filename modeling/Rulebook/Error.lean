import Rulebook.Json.Text
import Rulebook.Kind

/-!
# Failures

Two kinds of failure leave the library.  A `ValidationError` is an ordinary
answer about a value: a violated constraint and the path of the value that
violates it.  A `SchemaError` is about the rules themselves; it refuses a whole
batch.  Both hold causes; their wording is in `detail`, `render` and `message`.
-/

namespace Rulebook

/-! ## Validation -/

/-- One step from a container to a member. -/
inductive PathSegment where
  | key (k : String)
  | index (i : Nat)
deriving DecidableEq

/-- The text of a step. -/
def PathSegment.text : PathSegment → String
  | key k => "." ++ k
  | index i => "[" ++ toString i ++ "]"

/-- A violated constraint. -/
inductive Failure where
  | wrongKind (demanded : Kind)
  | notContainer
  | notCoercible (name : String) (reason : Option String)
  | noMatch (pattern : String)
  | notListed (allowed : List Value)
  | belowBound (bound : Value)
  | aboveBound (bound : Value)
  | tooShort (bound : Nat)
  | tooLong (bound : Nat)
  | missing
  | unknownKeys (keys : List String)
  | missingParameter (name : String)
  /-- No branch passed; the report of each. -/
  | noneOf (reports : List String)
  /-- Not exactly one branch passed; the report of each that failed. -/
  | notOneOf (reports : List (Option String))
  | undefinedSchema (name : String)
  | reentered (name : String)
deriving DecidableEq

/-- A text whose lines after the first are indented. -/
def indentLines (s : String) : String :=
  String.ofList (s.toList.flatMap fun c => if c = '\n' then ['\n', ' ', ' '] else [c])

/-- Numbered reports, each on lines of its own. -/
def numbered (first : Nat) : List String → String
  | [] => ""
  | r :: rest => "\n" ++ toString first ++ ": " ++ r ++ numbered (first + 1) rest

/-- The wording of a violated constraint. -/
def Failure.detail : Failure → String
  | wrongKind k => "type must be " ++ k.tag
  | notContainer => "type must be dict or list"
  | notCoercible name none => "is not coercible to " ++ name
  | notCoercible name (some reason) => "is not coercible to " ++ name ++ ": " ++ reason
  | noMatch p => "must match regex: " ++ p
  | notListed allowed => "must be one of " ++ Json.write (.list allowed)
  | belowBound b => "must be at least " ++ Json.write b
  | aboveBound b => "must be at most " ++ Json.write b
  | tooShort n => "length must be at least " ++ toString n
  | tooLong n => "length must be at most " ++ toString n
  | missing => "is required"
  | unknownKeys keys => "must not contain keys: " ++ ", ".intercalate keys
  | missingParameter name => "requires context parameter " ++ name
  | noneOf reports =>
      "must satisfy any of " ++ toString reports.length ++ " rules:" ++
        numbered 1 (reports.map indentLines)
  | notOneOf reports =>
      "must satisfy exactly one of " ++ toString reports.length ++ " rules:" ++
        numbered 1 (reports.map fun r => (r.map indentLines).getD "ok")
  | undefinedSchema name => "schema " ++ name ++ " was not defined"
  | reentered name => "re-entered schema " ++ name ++ " on the same value"

/-- A violated constraint and where it is violated. -/
structure ValidationError where
  path : List PathSegment
  failure : Failure
deriving DecidableEq

namespace ValidationError

/-- A failure at the value itself. -/
def here (f : Failure) : ValidationError := ⟨[], f⟩

/-- The same failure seen from the container of the value. -/
def within (segment : PathSegment) (e : ValidationError) : ValidationError :=
  ⟨segment :: e.path, e.failure⟩

/-- The text of the path. -/
def pathText (e : ValidationError) : String := String.join (e.path.map PathSegment.text)

/-- The failure as text, with a mark for the value at the root. -/
def render (e : ValidationError) (root : String) : String :=
  root ++ e.pathText ++ " " ++ e.failure.detail

/-- The failure as text about an input. -/
def message (e : ValidationError) : String := e.render "Input"

/-- The failure as text about the value of a combinator. -/
def report (e : ValidationError) : String := e.render "^"

end ValidationError

/-! ## Registration -/

/-- What the argument of a feature has to be. -/
inductive Expected where
  | text
  | boolean
  | count
  | list
  | textList
  | mapping
  | kindTag
  | knownKindTag
  | schemaName
  | remapTable
deriving DecidableEq

/-- The wording of an expectation. -/
def Expected.wording : Expected → String
  | text => "a string"
  | boolean => "a boolean"
  | count => "a non-negative integer"
  | list => "a list"
  | textList => "a list of strings"
  | mapping => "a mapping"
  | kindTag => "a type tag"
  | knownKindTag => "a known type tag"
  | schemaName => "a schema name"
  | remapTable => "a mapping or a list of pairs"

/-- Why a rule cannot be used. -/
inductive Flaw where
  | argument (feature : String) (expected : Expected)
  | remapPair
  | remapSource
  | baseNotMapping (name : String)
  | notRule
  | notSchema
  | notBatch
deriving DecidableEq

/-- The wording of a flaw. -/
def Flaw.detail : Flaw → String
  | argument feature expected => "'" ++ feature ++ "' must be " ++ expected.wording
  | remapPair => "'map' pairs must be [from, to]"
  | remapSource => "'map' sources must be scalars"
  | baseNotMapping name => "base schema '" ++ name ++ "' is not a rule mapping"
  | notRule => "a rule must be a mapping, a schema name, or null"
  | notSchema => "a schema must be a mapping, a schema name, or null"
  | notBatch => "schemas must be a mapping of names to rules"

/-- Why a batch is refused. -/
inductive SchemaError where
  /-- The batch is not what the schema of schemas demands. -/
  | invalidSchema (error : ValidationError)
  | malformed (rule : String) (flaw : Flaw)
  | invalidPattern (rule pattern : String)
  | unknownCoercion (rule name : String)
  | unknownBase (rule name : String)
  /-- The names of an inheritance chain that meets itself. -/
  | inheritanceCycle (chain : List String)
  | exampleRejected (rule : String) (candidate : Value) (error : ValidationError)
  | negativeExampleAccepted (rule : String) (candidate : Value)
  /-- The rule has no end: inherited rules unfold into themselves, or an example
  is followed beyond every depth. -/
  | endless (rule : String)
deriving DecidableEq

/-- The name under which the schema of schemas describes a batch. -/
def batchRoot : String := "schemas"

/-- The wording of a refusal. -/
def SchemaError.message : SchemaError → String
  | invalidSchema e => "invalid schema: " ++ e.render batchRoot
  | malformed rule flaw => "malformed rule '" ++ rule ++ "': " ++ flaw.detail
  | invalidPattern rule pattern => "invalid regex in rule '" ++ rule ++ "': " ++ pattern
  | unknownCoercion rule name => "rule '" ++ rule ++ "' uses unknown coercion '" ++ name ++ "'"
  | unknownBase rule name =>
      "rule '" ++ rule ++ "' inherits from undefined schema '" ++ name ++ "'"
  | inheritanceCycle chain => "inheritance cycle: " ++ " -> ".intercalate chain
  | exampleRejected rule candidate e =>
      "example " ++ Json.write candidate ++ " rejected by rule '" ++ rule ++ "': " ++ e.message
  | negativeExampleAccepted rule candidate =>
      "negative example " ++ Json.write candidate ++ " accepted by rule '" ++ rule ++ "'"
  | endless rule => "rule '" ++ rule ++ "' has no end"

end Rulebook
