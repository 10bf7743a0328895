import Rulebook.Kind

/-!
# The grammar of rules

Which values are rules: null, names, and mappings that have only known features with
arguments of the shape which the feature asks for.  Rules stand inside rules as arguments
of some features, at any depth.

A rule that is well formed need not be one that can be compiled.  What is said here is said
without the programs that check it.
-/

namespace Rulebook
namespace Rule

/-- The shapes of arguments. -/
inductive Shape where
  | anything
  /-- The tag of a kind. -/
  | tag
  | text
  | switch
  /-- A list of texts. -/
  | texts
  | list
  /-- Substitutions: a mapping, or a list of pairs. -/
  | table
  /-- A whole number that is not negative. -/
  | count
  /-- A mapping of rules. -/
  | rules
  | rule
  /-- A list of rules. -/
  | branches
deriving DecidableEq

/-- The features of rules, each with the shape of its argument. -/
def shapes : List (String × Shape) := [
  ("title", .anything), ("description", .anything), ("if_null", .anything),
  ("default", .anything), ("min", .anything), ("max", .anything),
  ("type", .tag),
  ("coerce", .text), ("post_coerce", .text), ("rename", .text), ("regex", .text),
  ("rules", .text),
  ("nullable", .switch), ("required", .switch), ("require_all", .switch),
  ("allow_unknown", .switch), ("purge_unknown", .switch),
  ("synonyms", .texts),
  ("enum", .list), ("examples", .list), ("negative_examples", .list),
  ("map", .table),
  ("min_len", .count), ("max_len", .count),
  ("items", .rules), ("pattern_items", .rules),
  ("keys", .rule), ("values", .rule),
  ("any_of", .branches), ("one_of", .branches)]

mutual

/-- The value is a rule: null, a name, or a mapping from features to arguments. -/
inductive WellFormed : Value → Prop where
  | null : WellFormed .null
  | name (n : String) : WellFormed (.text n)
  | mapping {fs : Entries Value}
      (hkeys : ∀ e ∈ fs, (shapes.lookup e.1).isSome)
      (harguments : ∀ key v shape, Entries.lookup key fs = some v →
        shapes.lookup key = some shape → Fits shape v) :
      WellFormed (.mapping fs)

/-- The value is of a shape. -/
inductive Fits : Shape → Value → Prop where
  | anything (v : Value) : Fits .anything v
  | tag (k : Kind) : Fits .tag (.text k.tag)
  | text (t : String) : Fits .text (.text t)
  | switch (b : Bool) : Fits .switch (.bool b)
  | texts {vs : List Value} (h : ∀ v ∈ vs, ∃ t, v = .text t) : Fits .texts (.list vs)
  | list (vs : List Value) : Fits .list (.list vs)
  | entries (es : Entries Value) : Fits .table (.mapping es)
  | pairs {vs : List Value} (h : ∀ v ∈ vs, ∃ source target, v = .list [source, target]) :
      Fits .table (.list vs)
  | count {i : WordInt} (h : 0 ≤ i.val) : Fits .count (.number (.integer i))
  | rules {es : Entries Value} (h : ∀ e ∈ es, WellFormed e.2) : Fits .rules (.mapping es)
  | rule {v : Value} (h : WellFormed v) : Fits .rule v
  | branches {vs : List Value} (h : ∀ v ∈ vs, WellFormed v) : Fits .branches (.list vs)

end

variable {v : Value}

/-- What the values of each shape are. -/
theorem fits_iff {shape : Shape} : Fits shape v ↔
    match shape with
    | .anything => True
    | .tag => ∃ k : Kind, v = .text k.tag
    | .text => ∃ t, v = .text t
    | .switch => ∃ b, v = .bool b
    | .texts => ∃ vs, v = .list vs ∧ ∀ w ∈ vs, ∃ t, w = .text t
    | .list => ∃ vs, v = .list vs
    | .table => (∃ es, v = .mapping es) ∨
        ∃ vs, v = .list vs ∧ ∀ w ∈ vs, ∃ source target, w = .list [source, target]
    | .count => ∃ i : WordInt, v = .number (.integer i) ∧ 0 ≤ i.val
    | .rules => ∃ es, v = .mapping es ∧ ∀ e ∈ es, WellFormed e.2
    | .rule => WellFormed v
    | .branches => ∃ vs, v = .list vs ∧ ∀ w ∈ vs, WellFormed w := by
  constructor
  · intro h
    cases h with
    | anything v => trivial
    | tag k => exact ⟨k, rfl⟩
    | text t => exact ⟨t, rfl⟩
    | switch b => exact ⟨b, rfl⟩
    | texts h => exact ⟨_, rfl, h⟩
    | list vs => exact ⟨vs, rfl⟩
    | entries es => exact Or.inl ⟨es, rfl⟩
    | pairs h => exact Or.inr ⟨_, rfl, h⟩
    | count h => exact ⟨_, rfl, h⟩
    | rules h => exact ⟨_, rfl, h⟩
    | rule h => exact h
    | branches h => exact ⟨_, rfl, h⟩
  · intro h
    cases shape with
    | anything => exact .anything v
    | tag =>
      obtain ⟨k, rfl⟩ := h
      exact .tag k
    | text =>
      obtain ⟨t, rfl⟩ := h
      exact .text t
    | switch =>
      obtain ⟨b, rfl⟩ := h
      exact .switch b
    | texts =>
      obtain ⟨vs, rfl, h⟩ := h
      exact .texts h
    | list =>
      obtain ⟨vs, rfl⟩ := h
      exact .list vs
    | table =>
      obtain ⟨es, rfl⟩ | ⟨vs, rfl, h⟩ := h
      · exact .entries es
      · exact .pairs h
    | count =>
      obtain ⟨i, rfl, h⟩ := h
      exact .count h
    | rules =>
      obtain ⟨es, rfl, h⟩ := h
      exact .rules h
    | rule => exact .rule h
    | branches =>
      obtain ⟨vs, rfl, h⟩ := h
      exact .branches h

/-- The arguments of features are of their shapes. -/
def ArgumentsFit (fs : Entries Value) : Prop :=
  ∀ key v shape, Entries.lookup key fs = some v → shapes.lookup key = some shape → Fits shape v

/-- The features of a mapping are known, with arguments of their shapes. -/
structure FeaturesFit (fs : Entries Value) : Prop where
  keys : ∀ e ∈ fs, (shapes.lookup e.1).isSome
  arguments : ArgumentsFit fs

theorem wellFormed_mapping_iff {fs : Entries Value} :
    WellFormed (.mapping fs) ↔ FeaturesFit fs := by
  constructor
  · intro h
    cases h with
    | mapping hkeys harguments => exact ⟨hkeys, harguments⟩
  · rintro ⟨hkeys, harguments⟩
    exact .mapping hkeys harguments

theorem wellFormed_iff : WellFormed v ↔
    v = .null ∨ (∃ n, v = .text n) ∨ ∃ fs, v = .mapping fs ∧ FeaturesFit fs := by
  constructor
  · intro h
    cases h with
    | null => exact Or.inl rfl
    | name n => exact Or.inr (Or.inl ⟨n, rfl⟩)
    | mapping hkeys harguments => exact Or.inr (Or.inr ⟨_, rfl, hkeys, harguments⟩)
  · rintro (rfl | ⟨n, rfl⟩ | ⟨fs, rfl, hfit⟩)
    · exact .null
    · exact .name n
    · exact wellFormed_mapping_iff.2 hfit

end Rule
end Rulebook
