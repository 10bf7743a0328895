import Rulebook.Registry

/-!
# The schema of schemas

The rules that rules have to follow, written as rules.  A batch is checked
against them after its spelling has been settled, so they need to know only one
name for each feature and each kind.  They are compiled once, into a registry of
their own, where they are not checked against themselves; its identities are
never shown, and the canonical bytes serve as they are.
-/

namespace Rulebook
namespace SchemaOfSchemas

/-- A mapping from pairs in any order. -/
def mapping (pairs : List (String × Value)) : Value := .mapping (Entries.ofList pairs)

/-- A rule that demands a kind. -/
def ofKind (k : Kind) (more : List (String × Value)) : Value :=
  mapping (("type", .text k.tag) :: more)

/-- The rule that passes everything. -/
def anything : Value := .mapping []

/-- A table of substitutions: a mapping, or a list of pairs. -/
def remapTable : Value :=
  let pair := ofKind .list [("min_len", Value.ofNat 2), ("max_len", Value.ofNat 2)]
  mapping [("any_of", .list [ofKind .dict [], ofKind .list [("values", pair)]])]

/-- The features of a rule, each with the rule of its argument. -/
def features : List (String × Value) := [
  ("title", anything),
  ("description", anything),
  ("type", ofKind .str [("enum", .list (Kind.all.map fun k => .text k.tag))]),
  ("coerce", .text "str"),
  ("post_coerce", .text "str"),
  ("nullable", .text "bool"),
  ("if_null", anything),
  ("default", anything),
  ("required", .text "bool"),
  ("require_all", .text "bool"),
  ("allow_unknown", .text "bool"),
  ("purge_unknown", .text "bool"),
  ("rename", .text "str"),
  ("synonyms", .text "names"),
  ("regex", .text "str"),
  ("enum", ofKind .list []),
  ("map", remapTable),
  ("min", anything),
  ("max", anything),
  ("min_len", .text "count"),
  ("max_len", .text "count"),
  ("items", .text "rule_map"),
  ("pattern_items", .text "rule_map"),
  ("keys", .text "rule_ref"),
  ("values", .text "rule_ref"),
  ("any_of", .text "rule_list"),
  ("one_of", .text "rule_list"),
  ("rules", .text "str"),
  ("examples", ofKind .list []),
  ("negative_examples", ofKind .list [])]

/-- The schemas, by name. -/
def schemas : Entries Value := Entries.ofList [
  (batchRoot, ofKind .dict [("values", .text "rule_ref")]),
  ("rule_ref",
    mapping [("any_of", .list [ofKind .null [], .text "str", .text "rule"])]),
  ("rule_map", ofKind .dict [("values", .text "rule_ref")]),
  ("rule_list", ofKind .list [("values", .text "rule_ref")]),
  ("str", ofKind .str []),
  ("bool", ofKind .bool []),
  ("count", ofKind .int [("min", Value.ofNat 0)]),
  ("names", ofKind .list [("values", .text "str")]),
  ("rule",
    ofKind .dict [("allow_unknown", .bool false), ("items", mapping features)])]

/-- The options under which the schemas are compiled. -/
def options : Options := { validateSchemas := false }

/-- The schemas, compiled. -/
def registry : Except SchemaError Registry :=
  let start := Registry.empty options ⟨[]⟩ id
  let batch := Registry.prepare schemas options
  (start.stage batch options).map (start.publish batch options)

/-- What the outcome of the check says about a batch. -/
def judge : Option (Except ValidationError Value) → Except SchemaError Unit
  | some (.ok _) => .ok ()
  | some (.error e) => .error (.invalidSchema e)
  | none => .error (.endless batchRoot)

/-- Check a batch in its one spelling, with calls followed to a given depth. -/
def check (depth : Nat) (batch : Entries Value) : Except SchemaError Unit := do
  let r ← registry
  match r.get? batchRoot with
  | none => .error (.endless batchRoot)
  | some v => judge (r.validateWithin depth v (.mapping batch) none)

end SchemaOfSchemas
end Rulebook
