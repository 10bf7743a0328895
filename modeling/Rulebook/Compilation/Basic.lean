import Rulebook.Compilation.Form
import Rulebook.Structure

/-!
# Compilation

The rules of a batch are compiled into a staging area; what they are compiled
from is not changed.  A rule inside a rule is a name, which becomes the link of
the name whether or not it is defined; or empty; or a rule of its own, which is
looked up by its identity and, if it is new, put on a worklist under a new link.
So each identity is compiled once, and rules that refer to themselves or to each
other are compiled like all others.
-/

namespace Rulebook

/-- A rule that waits to be compiled. -/
structure Task where
  id : SchemaId
  link : Link
  features : Entries Value
  /-- The form that was identified. -/
  form : Value
  options : Options
  label : String

/-- The examples of one compiled rule. -/
structure ExampleCase where
  label : String
  link : Link
  positive : List Value
  negative : List Value

/-- What a batch adds. -/
structure Staging where
  /-- Links of names that were not known before. -/
  nameLinks : Entries Link := []
  /-- Links of rules compiled for the first time, latest first. -/
  cache : List (SchemaId × Link) := []
  /-- Programs by link, latest first. -/
  bindings : Bindings := []
  /-- Links to be bound when the batch is published, in order. -/
  bound : List Link := []
  /-- Rules that wait to be compiled, in order. -/
  todo : List Task := []
  /-- Links of names with the links of the rules they stand for, in order. -/
  named : List (Link × Link) := []
  examples : List ExampleCase := []
  nextLink : Nat
  nextProgram : Nat

/-- A step of a compilation. -/
abbrev Compile (α : Type) := StateT Staging (Except SchemaError) α

/-- What a rule inside a rule turned out to be. -/
inductive Resolved where
  | empty
  /-- A name, with the rule it stands for, if one is known. -/
  | named (link : Link) (rule : Option Rule)
  | inline (link : Link) (rule : Rule)

namespace Rule

/-- The rule for keys and values that are not declared. -/
def openRule {γ : Type} (rule : Rule) (keys values : Option γ) : Option (OpenRule γ) :=
  if rule.keys.isSome || rule.values.isSome then some ⟨keys, values⟩ else none

/-- Whether lists are checked. -/
def checksLists (rule : Rule) : Bool :=
  match rule.kind with
  | some .list => true
  | some .dict => false
  | _ => rule.keys.isSome || rule.values.isSome

/-- What is said about the elements of lists. -/
def sequenceItems {γ : Type} (rule : Rule) (openRule : Option (OpenRule γ)) :
    Option (SequenceItems γ) :=
  if rule.checksLists then some ⟨openRule.getD ⟨none, none⟩⟩ else none

/-- The checks against listed values and bounds. -/
def bounds (rule : Rule) : List Check :=
  (rule.allowed.map fun vs => Check.allowed (Enumeration.ofList vs)).toList ++
    (rule.min.map Check.min).toList ++ (rule.max.map Check.max).toList ++
    (rule.minLen.map Check.minLen).toList ++ (rule.maxLen.map Check.maxLen).toList

end Rule

namespace Resolved

/-- How the rule is called. -/
def callee : Resolved → Callee
  | empty => .pass
  | named link _ | inline link _ => .link link

/-- What the rule says about an entry that holds it; nothing, if it is not known. -/
def terms : Resolved → EntryTerms
  | empty => {}
  | named _ r => (r.map Rule.terms).getD {}
  | inline _ r => r.terms

end Resolved

namespace Source

-- A sum starts at the core library's zero, whatever else is imported.
attribute [local instance (high)] Zero.ofOfNat0

/-- A new link. -/
def newLink (name : String) : Compile Link := do
  let st ← get
  set { st with nextLink := st.nextLink + 1 }
  pure ⟨st.nextLink, name⟩

/-- A new program. -/
def newProgram (id : SchemaId) (label : String) (breakLoops : Bool) (steps : List (Step Callee)) :
    Compile Program := do
  let st ← get
  set { st with nextProgram := st.nextProgram + 1 }
  pure ⟨st.nextProgram, id, label, breakLoops, steps⟩

/-- Bind a program to a link. -/
def bind (link : Link) (p : Program) : Compile Unit :=
  modify fun st =>
    { st with bindings := (link.number, p) :: st.bindings, bound := st.bound ++ [link] }

/-- The link of a name. -/
def linkOfName (s : Source) (name : String) : Compile Link := do
  match Entries.lookup name s.nameLinks with
  | some link => pure link
  | none =>
      let st ← get
      match Entries.lookup name st.nameLinks with
      | some link => pure link
      | none => do
          let link ← newLink name
          modify fun st => { st with nameLinks := Entries.insert name link st.nameLinks }
          pure link

/-- The link of a rule, which is put on the worklist if it is new. -/
def schedule (s : Source) (features : Entries Value) (options : Options) (label : String) :
    Compile Link := do
  let form ← s.form features label
  let id := SchemaId.of s.digest form options
  let st ← get
  match (s.cache.lookup id).or (st.cache.lookup id) with
  | some link => pure link
  | none => do
      let link ← newLink label
      modify fun st =>
        { st with
          cache := (id, link) :: st.cache
          todo := st.todo ++ [⟨id, link, features, form, options, label⟩] }
      pure link

/-- Resolve a rule inside a rule. -/
def resolve (s : Source) (rule : Value) (options : Options) (label : String) :
    Compile Resolved :=
  match rule with
  | .null => pure .empty
  | .text name => do
      let link ← s.linkOfName name
      match s.lookup name with
      | some (.mapping features) => do
          let flat ← s.flatten features name
          let r ← Rule.read flat name
          pure (.named link (some r))
      | _ => pure (.named link none)
  | .mapping features => do
      let flat ← s.flatten features label
      if flat.isEmpty then pure .empty
      else do
        let r ← Rule.read flat label
        let link ← s.schedule flat options label
        pure (.inline link r)
  | _ => throw (.malformed label .notRule)

/-- The coercion that a rule names. -/
def coercer (s : Source) (name label : String) : Compile Coercer :=
  match s.coercions.resolve? name with
  | some c => pure c
  | none => throw (.unknownCoercion label name)

/-- The pattern with a source. -/
def pattern (source label : String) : Compile Pattern :=
  match Pattern.ofSource? .estimate source with
  | some p => pure p
  | none => throw (.invalidPattern label source)

/-- The step that a feature adds, if the rule has it. -/
def stepOf {α : Type} (argument : Option α) (make : α → Compile (Step Callee)) :
    Compile (List (Step Callee)) :=
  match argument with
  | none => pure []
  | some a => do
      let step ← make a
      pure [step]

/-- The callees of listed rules. -/
def branches (s : Source) (options : Options) (label feature : String) (rules : List Value) :
    Compile (List Callee) :=
  rules.zipIdx.mapM fun e => do
    let r ← s.resolve e.1 options (label ++ "." ++ feature ++ "[" ++ toString e.2 ++ "]")
    pure r.callee

/-- The callee of a rule for keys or for values. -/
def openCallee (s : Source) (rule : Option Value) (options : Options) (label : String) :
    Compile (Option Callee) :=
  match rule with
  | none => pure none
  | some v => do
      let r ← s.resolve v options label
      pure (some r.callee)

/-- A declared entry with what its rule says about it. -/
def entry (s : Source) (options : Options) (label : String) (e : String × Value) :
    Compile (Entry Callee) := do
  let r ← s.resolve e.2 options (label ++ "." ++ e.1)
  pure (Entry.ofTerms e.1 r.terms r.callee options.requireAll)

/-- A pattern entry with what its rule says about it. -/
def patternEntry (s : Source) (options : Options) (label : String) (e : String × Value) :
    Compile (PatternEntry Callee) := do
  let r ← s.resolve e.2 options (label ++ "." ++ e.1)
  let p ← pattern e.1 label
  pure { pattern := p, rename := r.terms.rename, callee := r.callee }

/-- The step for the members of containers.  A rule that demands lists says
nothing about mappings, and the other way round; without a demand lists are
checked only if there is a rule for keys or values. -/
def structureOf (s : Source) (rule : Rule) (options : Options) (label : String) :
    Compile (Structure Callee) := do
  let keys ← s.openCallee rule.keys options (label ++ ".keys")
  let values ← s.openCallee rule.values options (label ++ ".values")
  let openRule := rule.openRule (keys.filter (· != .pass)) values
  let sequence := rule.sequenceItems openRule
  if rule.kind = some .list then pure ⟨none, sequence⟩
  else do
    let entries ← (rule.items.getD []).mapM (s.entry options label)
    let patterns ← (rule.patternItems.getD []).mapM (s.patternEntry options label)
    pure ⟨some (MappingItems.make entries patterns openRule options.unknownKeys), sequence⟩

/-- The table of a remap. -/
def remapOf (table : Value) (label : String) : Compile Remap :=
  match Remap.ofValue table with
  | .ok r => pure r
  | .error flaw => throw (.malformed label flaw)

/-- The step that ends a program at null, if the rule has one. -/
def nullableStep (s : Source) (rule : Rule) (label : String) :
    Compile (List (Step Callee)) :=
  if rule.nullable || rule.ifNull.isSome then
    match rule.postCoerce with
    | some name => do
        let c ← s.coercer name label
        pure [.check (.nullable rule.ifNull (some c))]
    | none => pure [.check (.nullable rule.ifNull none)]
  else pure []

/-- The step for the members of containers, if the rule says something about
them. -/
def memberStep (s : Source) (rule : Rule) (options : Options) (label : String) :
    Compile (List (Step Callee)) :=
  if rule.hasStructure then do
    let st ← s.structureOf rule options label
    pure [.members st]
  else pure []

/-- The steps of a rule, in the order in which they run. -/
def steps (s : Source) (rule : Rule) (options : Options) (label : String) :
    Compile (List (Step Callee)) := do
  let nullable ← s.nullableStep rule label
  let kind := (rule.kind.map fun k => Step.check (.kind k)).toList
  let coerce ← stepOf rule.coerce fun name => do
    let c ← s.coercer name label
    pure (.check (.coerce c))
  let regex ← stepOf rule.regex fun source => do
    let p ← pattern source label
    pure (.check (.pattern p))
  let members ← s.memberStep rule options label
  let remap ← stepOf rule.remap fun table => do
    let r ← remapOf table label
    pure (.check (.remap r))
  let anyOf ← stepOf rule.anyOf fun rules => do
    let bs ← s.branches options label "any_of" rules
    pure (.anyOf bs)
  let oneOf ← stepOf rule.oneOf fun rules => do
    let bs ← s.branches options label "one_of" rules
    pure (.oneOf bs)
  let postCoerce ← stepOf rule.postCoerce fun name => do
    let c ← s.coercer name label
    pure (.check (.postCoerce c))
  pure (nullable ++ kind ++ coerce ++ regex ++ members ++ remap ++
    rule.bounds.map Step.check ++ anyOf ++ oneOf ++ postCoerce)

/-- Compile a rule from the worklist. -/
def compile (s : Source) (task : Task) : Compile Program := do
  let rule ← Rule.read task.features task.label
  let steps ← s.steps rule (task.options.overriddenBy rule.overrides) task.label
  if !rule.positiveExamples.isEmpty || !rule.negativeExamples.isEmpty then
    modify fun st =>
      { st with
        examples := st.examples ++
          [⟨task.label, task.link, rule.positiveExamples, rule.negativeExamples⟩] }
  newProgram task.id task.label task.options.breakLoops steps

/-- Compile what is on the worklist, at most so many rules. -/
def drain (s : Source) : Nat → Compile Unit
  | 0 => do
      match (← get).todo with
      | [] => pure ()
      | task :: _ => throw (.endless task.label)
  | fuel + 1 => do
      let st ← get
      match st.todo with
      | [] => pure ()
      | task :: rest => do
          set { st with todo := rest }
          let p ← s.compile task
          bind task.link p
          s.drain fuel

/-- The number of rules that may have to be compiled: those inside a rule are
parts of its form. -/
def pending (st : Staging) : Nat := (st.todo.map fun task => task.form.nodes).sum

/-- Compile the whole worklist. -/
def drainAll (s : Source) : Compile Unit := do
  s.drain (pending (← get))

/-- Compile a rule of the batch.  A rule that is a name is a program of its own,
which is not shared. -/
def compileNamed (s : Source) (e : String × Value) : Compile Unit := do
  let link ← s.linkOfName e.1
  match e.2 with
  | .text name => do
      let target ← s.linkOfName name
      let p ← newProgram (SchemaId.of s.digest e.2 s.options) e.1 s.options.breakLoops
        [.refer (.link target)]
      bind link p
  | .null => do
      let target ← s.schedule [] s.options e.1
      modify fun st => { st with named := st.named ++ [(link, target)] }
      s.drainAll
  | .mapping features => do
      let flat ← s.flatten features e.1
      let target ← s.schedule flat s.options e.1
      modify fun st => { st with named := st.named ++ [(link, target)] }
      s.drainAll
  | _ => throw (.malformed e.1 .notSchema)

/-- Bind the link of a name to the program of the rule it stands for. -/
def bindName (s : Source) (pair : Link × Link) : Compile Unit := do
  let st ← get
  match (st.bindings.lookup pair.2.number).or (s.bindings.lookup pair.2.number) with
  | some p => bind pair.1 p
  | none => pure ()

/-- Compile all rules of the batch. -/
def compileBatch (s : Source) : Compile Unit := do
  s.batch.forM s.compileNamed
  s.drainAll
  (← get).named.forM s.bindName

end Source

end Rulebook
