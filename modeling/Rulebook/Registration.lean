import Rulebook.SchemaOfSchemas

/-!
# Registration

A batch of schemas is brought into one spelling, checked against the schema of
schemas, compiled, tried on its own examples, and published.  The first step
that fails refuses the batch, and the registry stays as it was.  The check and the
trial follow calls to a depth that is given with the batch; a batch for which they
would have to go deeper is refused as endless.
-/

namespace Rulebook
namespace Registry

/-- The name by which messages refer to a batch as a whole. -/
def batchLabel : String := "<batch>"

/-- Check and compile a batch in its one spelling, with calls followed to a given
depth. -/
def accept (r : Registry) (depth : Nat) (batch : Entries Value) (options : Options) :
    Except SchemaError Staging := do
  if options.validateSchemas then SchemaOfSchemas.check depth batch
  let st ← r.stage batch options
  if options.validateSchemas then r.replay depth st
  pure st

/-- The registry after a batch of schemas under the given options, with calls followed
to a given depth. -/
def registerWithin (r : Registry) (depth : Nat) (schemas : Value) (options : Options) :
    Except SchemaError Registry :=
  match schemas with
  | .mapping submitted => do
      let batch := prepare submitted options
      let st ← r.accept depth batch options
      pure (r.publish batch options st)
  | _ => .error (.malformed batchLabel .notBatch)

/-- The registry after a batch of schemas under the given options. -/
def registerWith (r : Registry) (schemas : Value) (options : Options) :
    Except SchemaError Registry :=
  r.registerWithin depthLimit schemas options

/-- The registry after a batch of schemas under its own options. -/
def register (r : Registry) (schemas : Value) : Except SchemaError Registry :=
  r.registerWith schemas r.options

/-- The registry after a single schema under its own options. -/
def insert (r : Registry) (name : String) (rule : Value) : Except SchemaError Registry :=
  r.register (.mapping [(name, rule)])

end Registry
end Rulebook
