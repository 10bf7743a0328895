import Rulebook.Compilation.Basic
import Rulebook.Evaluation

/-!
# The registry

A registry holds named schemas with their rules, the links of all names that
were ever mentioned, and the compiled rules by identity.  A batch is compiled
into a staging area and published as a whole; a batch that is refused leaves no
trace.

A validator is a handle on the link of a name.  It follows later redefinitions,
because what a link is bound to is looked up in the registry at each call.
-/

namespace Rulebook

/-- A registered schema. -/
structure SchemaEntry where
  /-- The rule in its one spelling. -/
  rule : Value
  /-- The options it was registered under. -/
  options : Options

/-- Named schemas and compiled rules. -/
structure Registry where
  /-- The options of batches that bring none of their own. -/
  options : Options
  coercions : CoercionTable
  digest : Digest
  schemas : Entries SchemaEntry
  nameLinks : Entries Link
  /-- The links of compiled rules, by identity. -/
  cache : List (SchemaId × Link)
  bindings : Bindings
  nextLink : Nat
  nextProgram : Nat

/-- A handle on a name. -/
structure Validator where
  name : String
  link : Link

namespace Registry

/-- A registry without schemas. -/
def empty (options : Options) (coercions : CoercionTable) (digest : Digest) : Registry where
  options
  coercions
  digest
  schemas := []
  nameLinks := []
  cache := []
  bindings := []
  nextLink := 0
  nextProgram := 0

/-! ## Registration -/

/-- The feature wrapped around a schema that is a bare mapping of entry rules. -/
def wrapEntries (rule : Value) : Value :=
  .mapping [("items", rule), ("type", .text Kind.dict.tag)]

/-- The rules of submitted schemas in their one spelling. -/
def prepare (submitted : Entries Value) (options : Options) : Entries Value :=
  Entries.mapValues
    (fun rule => Rule.spell (if options.loadAsJsonSchema then wrapEntries rule else rule))
    submitted

/-- What a batch is compiled from. -/
def source (r : Registry) (batch : Entries Value) (options : Options) : Source where
  batch
  options
  registered := Entries.mapValues SchemaEntry.rule r.schemas
  nameLinks := r.nameLinks
  cache := r.cache
  bindings := r.bindings
  coercions := r.coercions
  digest := r.digest

/-- Compile a batch into a staging area. -/
def stage (r : Registry) (batch : Entries Value) (options : Options) :
    Except SchemaError Staging := do
  let ((), st) ←
    (r.source batch options).compileBatch.run
      { nextLink := r.nextLink, nextProgram := r.nextProgram }
  pure st

/-- Bind links, one after the other, to the programs that are staged for them. -/
def bindAll (staged : Bindings) (links : List Link) (slots : Bindings) : Bindings :=
  links.foldl
    (fun slots l =>
      match staged.lookup l.number with
      | some p => (l.number, p) :: slots
      | none => slots)
    slots

/-- Publish what was staged for a batch. -/
def publish (r : Registry) (batch : Entries Value) (options : Options) (st : Staging) :
    Registry :=
  { r with
    schemas := Entries.overlay (Entries.mapValues (fun rule => ⟨rule, options⟩) batch) r.schemas
    nameLinks := Entries.overlay st.nameLinks r.nameLinks
    cache := st.cache ++ r.cache
    bindings := bindAll st.bindings st.bound r.bindings
    nextLink := st.nextLink
    nextProgram := st.nextProgram }

/-- What the outcome of an example that has to pass says about its batch. -/
def judgePositive (c : ExampleCase) (candidate : Value) :
    Option (Except ValidationError Value) → Except SchemaError Unit
  | some (.ok _) => .ok ()
  | some (.error e) => .error (.exampleRejected c.label candidate e)
  | none => .error (.endless c.label)

/-- What the outcome of an example that must not pass says about its batch. -/
def judgeNegative (c : ExampleCase) (candidate : Value) :
    Option (Except ValidationError Value) → Except SchemaError Unit
  | some (.ok _) => .error (.negativeExampleAccepted c.label candidate)
  | some (.error _) => .ok ()
  | none => .error (.endless c.label)

/-- Replay the examples of one compiled rule, with calls followed to a given depth. -/
def checkCase (depth : Nat) (bindings : Bindings) (c : ExampleCase) :
    Except SchemaError Unit := do
  c.positive.forM fun v => judgePositive c v (evaluate depth bindings none c.link v)
  c.negative.forM fun v => judgeNegative c v (evaluate depth bindings none c.link v)

/-- Replay the examples of a staged batch against its own programs, which are looked
for before those that are published. -/
def replay (r : Registry) (depth : Nat) (st : Staging) : Except SchemaError Unit :=
  st.examples.forM (checkCase depth (st.bindings ++ r.bindings))

/-! ## Inspection -/

/-- Whether a schema is registered. -/
def contains (r : Registry) (name : String) : Bool := Entries.hasKey r.schemas name

/-- The handle on a registered schema. -/
def get? (r : Registry) (name : String) : Option Validator :=
  if r.contains name then
    (Entries.lookup name r.nameLinks).map fun link => ⟨name, link⟩
  else none

/-- The names of the registered schemas, in order. -/
def names (r : Registry) : List String := Entries.keys r.schemas

/-- The rule a schema was registered with, in its one spelling. -/
def rule? (r : Registry) (name : String) : Option Value :=
  (Entries.lookup name r.schemas).map SchemaEntry.rule

/-- The options a schema was registered under. -/
def schemaOptions? (r : Registry) (name : String) : Option Options :=
  (Entries.lookup name r.schemas).map SchemaEntry.options

/-- The number of compiled rules. -/
def artifactCount (r : Registry) : Nat := r.cache.length

/-! ## Validation -/

/-- The program a handle stands for at present. -/
def program? (r : Registry) (v : Validator) : Option Program := r.bindings.lookup v.link.number

/-- The identity of the program a handle stands for. -/
def identity? (r : Registry) (v : Validator) : Option SchemaId :=
  (r.program? v).map Program.id

/-- Whether two handles stand for one and the same program. -/
def sameArtifact (r : Registry) (v w : Validator) : Bool :=
  match r.program? v, r.program? w with
  | some p, some q => p.number == q.number
  | _, _ => false

/-- The outcome of checking a value with calls followed to a given depth: its
normalized form or a failure; `none` if the rules go beyond that depth. -/
def validateWithin (r : Registry) (depth : Nat) (v : Validator) (value : Value)
    (context : Option Context) : Option (Except ValidationError Value) :=
  evaluate depth r.bindings context v.link value

/-- The outcome of checking a value. -/
def validate (r : Registry) (v : Validator) (value : Value) (context : Option Context) :
    Option (Except ValidationError Value) :=
  r.validateWithin depthLimit v value context

end Registry

end Rulebook
