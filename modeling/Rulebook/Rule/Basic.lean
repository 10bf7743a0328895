import Rulebook.Error
import Rulebook.Options
import Rulebook.Value.Table

/-!
# Rules

A `Rule` is the typed view of the features of one rule, after its spelling has
been settled and what it inherits has been laid under it.  Rules inside it stay
values, since whether one is a name, empty or a rule of its own is decided where
it is used.  A feature whose argument is null counts as absent, except for the
kind and for substitutes.
-/

namespace Rulebook

/-- A value to be used in place of another. -/
inductive Substitute where
  /-- The value as it is written. -/
  | literal (v : Value)
  /-- A parameter of the call. -/
  | parameter (name : String)

/-- The substitute that a value describes: text in braces names a parameter. -/
def Substitute.ofValue (v : Value) : Substitute :=
  match v with
  | .text s =>
      match s.toList with
      | '\x7b' :: c :: rest =>
          if (c :: rest).getLast? == some '\x7d' ∧ rest ≠ [] then
            .parameter (String.ofList (c :: rest).dropLast)
          else .literal v
      | _ => .literal v
  | _ => .literal v

/-- What a rule says about an entry of a mapping that holds it. -/
structure EntryTerms where
  /-- The key of the result. -/
  rename : Option String := none
  synonyms : List String := []
  default : Option Substitute := none
  required : Option Bool := none

/-- The features of a rule. -/
structure Rule where
  kind : Option Kind
  coerce : Option String
  postCoerce : Option String
  nullable : Bool
  ifNull : Option Substitute
  default : Option Substitute
  required : Option Bool
  rename : Option String
  synonyms : List String
  regex : Option String
  allowed : Option (List Value)
  remap : Option Value
  min : Option Value
  max : Option Value
  minLen : Option Nat
  maxLen : Option Nat
  items : Option (Entries Value)
  patternItems : Option (Entries Value)
  keys : Option Value
  values : Option Value
  anyOf : Option (List Value)
  oneOf : Option (List Value)
  overrides : OptionsOverride
  positiveExamples : List Value
  negativeExamples : List Value

namespace Rule

/-- The argument of a feature, unless it is null. -/
def argument? (features : Entries Value) (feature : String) : Option Value :=
  match Entries.lookup feature features with
  | some .null => none
  | found => found

/-- The refusal of an argument. -/
def refuse {α : Type} (label feature : String) (expected : Expected) : Except SchemaError α :=
  .error (.malformed label (.argument feature expected))

/-- The kind that a rule demands. -/
def readKind (features : Entries Value) (label : String) : Except SchemaError (Option Kind) :=
  match Entries.lookup "type" features with
  | none => .ok none
  | some (.text tag) =>
      match Kind.ofTag? tag with
      | some k => .ok (some k)
      | none => refuse label "type" .knownKindTag
  | some _ => refuse label "type" .kindTag

/-- A feature whose argument is text. -/
def readText (features : Entries Value) (label feature : String) :
    Except SchemaError (Option String) :=
  match argument? features feature with
  | none => .ok none
  | some (.text s) => .ok (some s)
  | some _ => refuse label feature .text

/-- A feature whose argument is a boolean. -/
def readBool (features : Entries Value) (label feature : String) :
    Except SchemaError (Option Bool) :=
  match argument? features feature with
  | none => .ok none
  | some (.bool b) => .ok (some b)
  | some _ => refuse label feature .boolean

/-- A feature whose argument is a count. -/
def readCount (features : Entries Value) (label feature : String) :
    Except SchemaError (Option Nat) :=
  match argument? features feature with
  | none => .ok none
  | some (.number (.integer i)) =>
      if 0 ≤ i.val then .ok (some i.val.toNat) else refuse label feature .count
  | some _ => refuse label feature .count

/-- A feature whose argument is a list. -/
def readList (features : Entries Value) (label feature : String) :
    Except SchemaError (Option (List Value)) :=
  match argument? features feature with
  | none => .ok none
  | some (.list xs) => .ok (some xs)
  | some _ => refuse label feature .list

/-- A feature whose argument is a list of texts. -/
def readTexts (features : Entries Value) (label feature : String) :
    Except SchemaError (List String) :=
  match readList features label feature with
  | .error e => .error e
  | .ok none => .ok []
  | .ok (some xs) =>
      match xs.mapM Value.text? with
      | some texts => .ok texts
      | none => refuse label feature .textList

/-- A feature whose argument is a mapping. -/
def readMapping (features : Entries Value) (label feature : String) :
    Except SchemaError (Option (Entries Value)) :=
  match argument? features feature with
  | none => .ok none
  | some (.mapping es) => .ok (some es)
  | some _ => refuse label feature .mapping

/-- Read the features of a rule.  The first unfit argument in the order of the
fields is the one that is reported; unknown features are passed over. -/
def read (features : Entries Value) (label : String) : Except SchemaError Rule := do
  let kind ← readKind features label
  let coerce ← readText features label "coerce"
  let postCoerce ← readText features label "post_coerce"
  let nullable ← readBool features label "nullable"
  let required ← readBool features label "required"
  let rename ← readText features label "rename"
  let synonyms ← readTexts features label "synonyms"
  let regex ← readText features label "regex"
  let allowed ← readList features label "enum"
  let minLen ← readCount features label "min_len"
  let maxLen ← readCount features label "max_len"
  let items ← readMapping features label "items"
  let patternItems ← readMapping features label "pattern_items"
  let anyOf ← readList features label "any_of"
  let oneOf ← readList features label "one_of"
  let allowUnknown ← readBool features label "allow_unknown"
  let purgeUnknown ← readBool features label "purge_unknown"
  let requireAll ← readBool features label "require_all"
  let positiveExamples ← readList features label "examples"
  let negativeExamples ← readList features label "negative_examples"
  pure {
    kind, coerce, postCoerce, required, rename, synonyms, regex, allowed
    minLen, maxLen, items, patternItems, anyOf, oneOf
    nullable := nullable.getD false
    ifNull := (Entries.lookup "if_null" features).map Substitute.ofValue
    default := (Entries.lookup "default" features).map Substitute.ofValue
    remap := argument? features "map"
    min := argument? features "min"
    max := argument? features "max"
    keys := Entries.lookup "keys" features
    values := Entries.lookup "values" features
    overrides := ⟨allowUnknown, purgeUnknown, requireAll⟩
    positiveExamples := positiveExamples.getD []
    negativeExamples := negativeExamples.getD [] }

/-- What the rule says about an entry that holds it. -/
def terms (r : Rule) : EntryTerms := ⟨r.rename, r.synonyms, r.default, r.required⟩

/-- Whether the rule says something about the members of containers. -/
def hasStructure (r : Rule) : Bool :=
  r.items.isSome || r.patternItems.isSome || r.keys.isSome || r.values.isSome

end Rule

namespace Remap

/-- The pairs of a table written as a list; a pair with the source null gives
the fallback. -/
def readPairs : List Value → Except Flaw Remap
  | [] => .ok ⟨[], none⟩
  | .list [source, target] :: rest =>
      if source.isNull then
        match readPairs rest with
        | .ok r => .ok ⟨r.table, r.fallback.or (some target)⟩
        | .error e => .error e
      else
        match ScalarKey.of? source with
        | none => .error .remapSource
        | some key =>
            match readPairs rest with
            | .ok r => .ok ⟨(key, target) :: r.table, r.fallback⟩
            | .error e => .error e
  | _ :: _ => .error .remapPair

/-- The table that a value describes: a mapping from text, or a list of pairs. -/
def ofValue : Value → Except Flaw Remap
  | .mapping es => .ok ⟨es.map fun e => (.text e.1, e.2), none⟩
  | .list pairs => readPairs pairs
  | _ => .error (.argument "map" .remapTable)

end Remap

end Rulebook
