import Rulebook.Compilation.Source

/-!
# Inheritance

A rule may inherit from a named one, which may inherit in turn.  Flattening lays
each rule over the one it inherits from, so that of several arguments for a
feature the nearest one counts.  A chain must not meet a name twice; the label
of the rule counts as its first name.
-/

namespace Rulebook
namespace Source

/-- The feature that names the rule to inherit from. -/
def baseFeature : String := "rules"

/-- Flatten features whose chain of names so far is given, to at most so many
further bases. -/
def flattenFrom (s : Source) (label : String) :
    Nat → List String → Entries Value → Except SchemaError (Entries Value)
  | 0, _, _ => .error (.endless label)
  | fuel + 1, chain, features =>
      let own := Entries.erase baseFeature features
      match Entries.lookup baseFeature features with
      | none | some .null => .ok own
      | some (.text name) =>
          if name ∈ chain then .error (.inheritanceCycle (chain ++ [name]))
          else
            match s.lookup name with
            | some (.mapping base) =>
                flattenFrom s label fuel (chain ++ [name]) (Entries.overlay own base)
            | some _ => .error (.malformed label (.baseNotMapping name))
            | none => .error (.unknownBase label name)
      | some _ => .error (.malformed label (.argument baseFeature .schemaName))

/-- The features of a rule together with those it inherits.  Every base but the
label has a name of its own, so that no chain is longer than there are rules. -/
def flatten (s : Source) (features : Entries Value) (label : String) :
    Except SchemaError (Entries Value) :=
  s.flattenFrom label (s.ruleCount + 2) [label] features

end Source
end Rulebook
