/-!
# Options

The switches that hold for a registered batch.  A rule may override the three
structural ones for itself and for everything nested in it; the result is a new
snapshot.
-/

namespace Rulebook

/-- What happens to keys of a mapping that no structural rule claims. -/
inductive UnknownKeys where
  /-- The input is refused, with the offending keys listed. -/
  | forbid
  /-- They are left out of the result. -/
  | purge
  /-- They are kept as they are. -/
  | allow
deriving DecidableEq

/-- The switches of a batch. -/
structure Options where
  /-- Keys that no structural rule claims are permitted. -/
  allowUnknown : Bool := true
  /-- Permitted unknown keys are left out of the result. -/
  purgeUnknown : Bool := false
  /-- Declared entries are required unless they say otherwise. -/
  requireAll : Bool := false
  /-- A validator that meets a value it is already checking is satisfied;
  otherwise the meeting is a failure. -/
  breakLoops : Bool := true
  /-- Submitted schemas are checked against the schema of schemas, and their
  examples are replayed. -/
  validateSchemas : Bool := true
  /-- Each submitted schema is a bare mapping of entry rules. -/
  loadAsJsonSchema : Bool := false
deriving DecidableEq

/-- The structural switches that a rule sets for itself. -/
structure OptionsOverride where
  allowUnknown : Option Bool := none
  purgeUnknown : Option Bool := none
  requireAll : Option Bool := none
deriving DecidableEq

namespace Options

/-- The snapshot in force inside a rule with the given overrides. -/
def overriddenBy (o : Options) (overrides : OptionsOverride) : Options :=
  { o with
    allowUnknown := overrides.allowUnknown.getD o.allowUnknown
    purgeUnknown := overrides.purgeUnknown.getD o.purgeUnknown
    requireAll := overrides.requireAll.getD o.requireAll }

/-- The policy for unclaimed keys; forbidding takes precedence over purging. -/
def unknownKeys (o : Options) : UnknownKeys :=
  if !o.allowUnknown then .forbid else if o.purgeUnknown then .purge else .allow

end Options

end Rulebook
