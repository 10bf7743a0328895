import Rulebook.Kind

/-!
# Spelling of rules

A rule may be written with other names for features and for kinds.  Before it is
identified or compiled it is brought into one spelling, in every position that
holds a rule: aliases become the feature they stand for, synonyms of a kind
become its tag, and the rule null becomes the empty mapping.  Names of schemas
and shapes that are no rules are left as they are.
-/

namespace Rulebook
namespace Rule

/-- Other names of features. -/
def aliases : List (String × String) := [
  ("schema", "items"),
  ("properties", "items"),
  ("valuesrules", "values"),
  ("keysrules", "keys"),
  ("anyof", "any_of"),
  ("anyOf", "any_of"),
  ("oneof", "one_of"),
  ("oneOf", "one_of"),
  ("allowed", "enum"),
  ("pattern", "regex"),
  ("minlength", "min_len"),
  ("minLength", "min_len"),
  ("maxlength", "max_len"),
  ("maxLength", "max_len"),
  ("allow_unkown", "allow_unknown"),
  ("purge_unkown", "purge_unknown")]

/-- The feature that a name stands for. -/
def featureName (name : String) : String := (aliases.lookup name).getD name

/-- The kind that a tag or a synonym of one stands for. -/
def kindOfWord? (word : String) : Option Kind :=
  if word ∈ ["dict", "object", "mapping"] then some .dict
  else if word ∈ ["list", "array", "sequence"] then some .list
  else if word ∈ ["str", "string", "text"] then some .str
  else if word ∈ ["int", "integer"] then some .int
  else if word ∈ ["float", "floating-point"] then some .float
  else if word ∈ ["number", "numeric"] then some .number
  else if word ∈ ["bool", "boolean"] then some .bool
  else if word ∈ ["null", "None"] then some .null
  else none

/-- A tag in its one spelling; an unknown tag is left as it is. -/
def spellKind : Value → Value
  | .null => .text Kind.null.tag
  | .text word =>
      match kindOfWord? word with
      | some k => .text k.tag
      | none => .text word
  | v => v

/-- What the argument of a feature holds. -/
inductive Role where
  /-- A kind. -/
  | kind
  /-- A rule. -/
  | rule
  /-- A rule for each key of a mapping. -/
  | ruleMap
  /-- A list of rules. -/
  | ruleList
  /-- Neither a kind nor rules. -/
  | plain
deriving DecidableEq

/-- What the argument of a feature holds. -/
def role (feature : String) : Role :=
  if feature = "type" then .kind
  else if feature = "items" ∨ feature = "pattern_items" then .ruleMap
  else if feature = "keys" ∨ feature = "values" then .rule
  else if feature = "any_of" ∨ feature = "one_of" then .ruleList
  else .plain

/-- Whether a feature is written under its own name or is absent under it. -/
def isHeard (all : List (String × Value)) (name : String) : Bool :=
  featureName name == name || !Entries.hasKey all (featureName name)

mutual

/-- A rule in its one spelling. -/
def spell : Value → Value
  | .null => .mapping []
  | .mapping es => .mapping (Entries.ofList (spellFeatures es es))
  | v => v

/-- The features of a rule in their one spelling.  A feature written under its
own name silences its aliases. -/
def spellFeatures (all : List (String × Value)) : List (String × Value) → List (String × Value)
  | [] => []
  | (name, v) :: rest =>
      let more := spellFeatures all rest
      if isHeard all name then
        (featureName name, spellArgument (role (featureName name)) v) :: more
      else more

/-- The argument of a feature in its one spelling. -/
def spellArgument (r : Role) : Value → Value
  | .mapping es =>
      match r with
      | .ruleMap => .mapping (spellEntries es)
      | .rule => .mapping (Entries.ofList (spellFeatures es es))
      | _ => .mapping es
  | .list rules =>
      match r with
      | .ruleList => .list (spellList rules)
      | _ => .list rules
  | .null =>
      match r with
      | .kind => .text Kind.null.tag
      | .rule => .mapping []
      | _ => .null
  | .text s =>
      match r with
      | .kind => spellKind (.text s)
      | _ => .text s
  | v => v

/-- Rules under keys in their one spelling. -/
def spellEntries : List (String × Value) → List (String × Value)
  | [] => []
  | (k, v) :: rest => (k, spell v) :: spellEntries rest

/-- Listed rules in their one spelling. -/
def spellList : List Value → List Value
  | [] => []
  | v :: rest => spell v :: spellList rest

end

end Rule
end Rulebook
