import Rulebook.Compilation.Inheritance
import Rulebook.Rule.Spelling

/-!
# The form over which a rule is identified

Rules inside a rule are flattened, so that an identity covers what is inherited.
A mapping entry that names another rule takes up that rule's default, its
output key, its synonyms and whether it is required when it is compiled; the
form pairs the name with them.

Unfolding ends unless inherited rules contain each other.  Each unfolded rule is
a part of the given one or of a named one, so that a rule inside more rules than
there are parts has met itself.
-/

namespace Rulebook
namespace Source

/-- The features of a named rule that an entry naming it takes up. -/
def entryFeatures : List String := ["default", "rename", "required", "synonyms"]

/-- The key of the name in the form of an entry that names a rule. -/
def entryName : String := "$entry"

/-- The key of the features in the form of an entry that names a rule. -/
def entryTaken : String := "$captured"

/-- What an entry that names a rule takes up from it. -/
def taken (s : Source) (name : String) : Except SchemaError (Entries Value) :=
  match s.lookup name with
  | some (.mapping features) => do
      let flat ← s.flatten features name
      pure (flat.filter fun e => entryFeatures.contains e.1)
  | _ => .ok []

/-- The form of a mapping entry that names a rule. -/
def namedEntry (s : Source) (name : String) : Except SchemaError Value := do
  let taken ← s.taken name
  pure (.mapping [(entryTaken, .mapping taken), (entryName, .text name)])

/-- Replace the argument of a feature, if there is one. -/
def reform (feature : String) (change : Value → Except SchemaError Value)
    (form : Entries Value) : Except SchemaError (Entries Value) :=
  match Entries.lookup feature form with
  | none => .ok form
  | some argument => do
      let changed ← change argument
      pure (Entries.insert feature changed form)

/-- The form of an entry under a key. -/
def entryForm (s : Source) (sub : Value → Except SchemaError Value) (e : String × Value) :
    Except SchemaError (String × Value) := do
  let form ←
    match e.2 with
    | .text name => s.namedEntry name
    | v => sub v
  pure (e.1, form)

/-- The form of the argument of a feature that holds rules by key. -/
def ruleMapForm (s : Source) (sub : Value → Except SchemaError Value) :
    Value → Except SchemaError Value
  | .mapping es => do
      let forms ← es.mapM (s.entryForm sub)
      pure (.mapping forms)
  | v => pure v

/-- The form of the argument of a feature that lists rules. -/
def ruleListForm (sub : Value → Except SchemaError Value) : Value → Except SchemaError Value
  | .list rules => do
      let forms ← rules.mapM sub
      pure (.list forms)
  | v => pure v

/-- The form of a rule inside a rule, which is flattened first. -/
def subForm (flatten : Entries Value → Except SchemaError (Entries Value))
    (form : Entries Value → Except SchemaError Value) : Value → Except SchemaError Value
  | .mapping es => do
      let flat ← flatten es
      form flat
  | v => pure v

/-- The form of features whose inner rules have the given forms. -/
def formWith (s : Source) (sub : Value → Except SchemaError Value) (features : Entries Value) :
    Except SchemaError (Entries Value) := do
  let form ← reform "items" (s.ruleMapForm sub) features
  let form ← reform "pattern_items" (s.ruleMapForm sub) form
  let form ← reform "keys" sub form
  let form ← reform "values" sub form
  let form ← reform "any_of" (ruleListForm sub) form
  reform "one_of" (ruleListForm sub) form

/-- The form of flattened features, with rules unfolded to the given depth by a
way of flattening them. -/
def formOf (s : Source) (flatten : Entries Value → Except SchemaError (Entries Value))
    (label : String) : Nat → Entries Value → Except SchemaError Value
  | 0, _ => .error (.endless label)
  | fuel + 1, features => do
      let form ← s.formWith (subForm flatten (s.formOf flatten label fuel)) features
      pure (.mapping form)

/-- The depth to which flattened features are unfolded. -/
def formDepth (s : Source) (features : Entries Value) : Nat :=
  s.nodes + Value.nodesEntries features + 2

/-- The form over which flattened features are identified. -/
def form (s : Source) (features : Entries Value) (label : String) : Except SchemaError Value :=
  s.formOf (fun es => s.flatten es label) label (s.formDepth features) features

end Source
end Rulebook
