import Rulebook.Proofs.Compilation.Yields

/-!
# What a rule is read from

Each field of a rule is read from the argument of one feature, and the label is
used for refusals only.  `Reads` says so field by field; it is what a successful
`Rule.read` amounts to.
-/

namespace Rulebook
namespace Rule

variable {features features' : Entries Value} {label : String}

/-! ## Readers depend on one argument -/

section

variable {feature : String}
  (h : Entries.lookup feature features = Entries.lookup feature features')
include h

theorem argument?_congr : argument? features feature = argument? features' feature := by
  rw [argument?, argument?, h]

theorem readText_congr {a : Option String} (ha : readText features label feature = .ok a)
    (label' : String) : readText features' label' feature = .ok a := by
  rw [readText, argument?_congr h] at ha
  rw [readText]
  split at ha <;> first | exact ha | cases ha

theorem readBool_congr {a : Option Bool} (ha : readBool features label feature = .ok a)
    (label' : String) : readBool features' label' feature = .ok a := by
  rw [readBool, argument?_congr h] at ha
  rw [readBool]
  split at ha <;> first | exact ha | cases ha

theorem readCount_congr {a : Option Nat} (ha : readCount features label feature = .ok a)
    (label' : String) : readCount features' label' feature = .ok a := by
  rw [readCount, argument?_congr h] at ha
  rw [readCount]
  split at ha
  · exact ha
  · split at ha
    · rename_i hnonneg
      rw [if_pos hnonneg]
      exact ha
    · cases ha
  · cases ha

theorem readList_congr {a : Option (List Value)} (ha : readList features label feature = .ok a)
    (label' : String) : readList features' label' feature = .ok a := by
  rw [readList, argument?_congr h] at ha
  rw [readList]
  split at ha <;> first | exact ha | cases ha

theorem readMapping_congr {a : Option (Entries Value)}
    (ha : readMapping features label feature = .ok a) (label' : String) :
    readMapping features' label' feature = .ok a := by
  rw [readMapping, argument?_congr h] at ha
  rw [readMapping]
  split at ha <;> first | exact ha | cases ha

theorem readTexts_congr {a : List String} (ha : readTexts features label feature = .ok a)
    (label' : String) : readTexts features' label' feature = .ok a := by
  rw [readTexts] at ha ⊢
  cases hlist : readList features label feature with
  | error e =>
    rw [hlist] at ha
    cases ha
  | ok xs =>
    rw [hlist] at ha
    rw [readList_congr h hlist label']
    cases xs with
    | none => exact ha
    | some xs =>
      dsimp only at ha ⊢
      split at ha
      · exact ha
      · cases ha

end

theorem readKind_congr (h : Entries.lookup "type" features = Entries.lookup "type" features')
    {a : Option Kind} (ha : readKind features label = .ok a) (label' : String) :
    readKind features' label' = .ok a := by
  rw [readKind, h] at ha
  rw [readKind]
  split at ha
  · exact ha
  · split at ha
    · exact ha
    · cases ha
  · cases ha

/-! ## Rules and their features -/

/-- A rule says what its features say. -/
structure Reads (features : Entries Value) (label : String) (r : Rule) : Prop where
  kind : readKind features label = .ok r.kind
  coerce : readText features label "coerce" = .ok r.coerce
  postCoerce : readText features label "post_coerce" = .ok r.postCoerce
  nullable : ∃ b, readBool features label "nullable" = .ok b ∧ b.getD false = r.nullable
  ifNull : (Entries.lookup "if_null" features).map Substitute.ofValue = r.ifNull
  default : (Entries.lookup "default" features).map Substitute.ofValue = r.default
  required : readBool features label "required" = .ok r.required
  rename : readText features label "rename" = .ok r.rename
  synonyms : readTexts features label "synonyms" = .ok r.synonyms
  regex : readText features label "regex" = .ok r.regex
  allowed : readList features label "enum" = .ok r.allowed
  remap : argument? features "map" = r.remap
  min : argument? features "min" = r.min
  max : argument? features "max" = r.max
  minLen : readCount features label "min_len" = .ok r.minLen
  maxLen : readCount features label "max_len" = .ok r.maxLen
  items : readMapping features label "items" = .ok r.items
  patternItems : readMapping features label "pattern_items" = .ok r.patternItems
  keys : Entries.lookup "keys" features = r.keys
  values : Entries.lookup "values" features = r.values
  anyOf : readList features label "any_of" = .ok r.anyOf
  oneOf : readList features label "one_of" = .ok r.oneOf
  allowUnknown : readBool features label "allow_unknown" = .ok r.overrides.allowUnknown
  purgeUnknown : readBool features label "purge_unknown" = .ok r.overrides.purgeUnknown
  requireAll : readBool features label "require_all" = .ok r.overrides.requireAll
  positiveExamples : ∃ xs, readList features label "examples" = .ok xs ∧
    xs.getD [] = r.positiveExamples
  negativeExamples : ∃ xs, readList features label "negative_examples" = .ok xs ∧
    xs.getD [] = r.negativeExamples

theorem read_eq_ok_iff {r : Rule} : Rule.read features label = .ok r ↔ Reads features label r := by
  constructor
  · intro h
    simp only [Rule.read, Except.bind_eq_ok_iff] at h
    obtain ⟨kind, hkind, coerce, hcoerce, postCoerce, hpostCoerce, nullable, hnullable,
      required, hrequired, rename, hrename, synonyms, hsynonyms, regex, hregex,
      allowed, hallowed, minLen, hminLen, maxLen, hmaxLen, items, hitems,
      patternItems, hpatternItems, anyOf, hanyOf, oneOf, honeOf,
      allowUnknown, hallowUnknown, purgeUnknown, hpurgeUnknown, requireAll, hrequireAll,
      positive, hpositive, negative, hnegative, h⟩ := h
    cases h
    exact ⟨hkind, hcoerce, hpostCoerce, ⟨_, hnullable, rfl⟩, rfl, rfl, hrequired, hrename,
      hsynonyms, hregex, hallowed, rfl, rfl, rfl, hminLen, hmaxLen, hitems, hpatternItems,
      rfl, rfl, hanyOf, honeOf, hallowUnknown, hpurgeUnknown, hrequireAll,
      ⟨_, hpositive, rfl⟩, ⟨_, hnegative, rfl⟩⟩
  · intro h
    obtain ⟨nullable, hnullable, hnullable'⟩ := h.nullable
    obtain ⟨positive, hpositive, hpositive'⟩ := h.positiveExamples
    obtain ⟨negative, hnegative, hnegative'⟩ := h.negativeExamples
    simp only [Rule.read, Except.bind_eq_ok_iff]
    refine ⟨_, h.kind, _, h.coerce, _, h.postCoerce, _, hnullable, _, h.required, _, h.rename,
      _, h.synonyms, _, h.regex, _, h.allowed, _, h.minLen, _, h.maxLen, _, h.items,
      _, h.patternItems, _, h.anyOf, _, h.oneOf, _, h.allowUnknown, _, h.purgeUnknown,
      _, h.requireAll, _, hpositive, _, hnegative, ?_⟩
    rw [hnullable', hpositive', hnegative', h.ifNull, h.default, h.remap, h.min, h.max, h.keys,
      h.values]
    rfl

/-- The label is used for refusals only. -/
theorem read_label {r : Rule} (h : Rule.read features label = .ok r) (label' : String) :
    Rule.read features label' = .ok r := by
  rw [read_eq_ok_iff] at h ⊢
  obtain ⟨nullable, hnullable, hnullable'⟩ := h.nullable
  obtain ⟨positive, hpositive, hpositive'⟩ := h.positiveExamples
  obtain ⟨negative, hnegative, hnegative'⟩ := h.negativeExamples
  exact {
    kind := readKind_congr rfl h.kind label'
    coerce := readText_congr rfl h.coerce label'
    postCoerce := readText_congr rfl h.postCoerce label'
    nullable := ⟨nullable, readBool_congr rfl hnullable label', hnullable'⟩
    ifNull := h.ifNull
    default := h.default
    required := readBool_congr rfl h.required label'
    rename := readText_congr rfl h.rename label'
    synonyms := readTexts_congr rfl h.synonyms label'
    regex := readText_congr rfl h.regex label'
    allowed := readList_congr rfl h.allowed label'
    remap := h.remap
    min := h.min
    max := h.max
    minLen := readCount_congr rfl h.minLen label'
    maxLen := readCount_congr rfl h.maxLen label'
    items := readMapping_congr rfl h.items label'
    patternItems := readMapping_congr rfl h.patternItems label'
    keys := h.keys
    values := h.values
    anyOf := readList_congr rfl h.anyOf label'
    oneOf := readList_congr rfl h.oneOf label'
    allowUnknown := readBool_congr rfl h.allowUnknown label'
    purgeUnknown := readBool_congr rfl h.purgeUnknown label'
    requireAll := readBool_congr rfl h.requireAll label'
    positiveExamples := ⟨positive, readList_congr rfl hpositive label', hpositive'⟩
    negativeExamples := ⟨negative, readList_congr rfl hnegative label', hnegative'⟩ }

/-- What features say about an entry that holds their rule.  No other feature plays
a part in it. -/
def termsOf (features : Entries Value) : EntryTerms where
  rename := (readText features "" "rename").toOption.getD none
  synonyms := (readTexts features "" "synonyms").toOption.getD []
  default := (Entries.lookup "default" features).map Substitute.ofValue
  required := (readBool features "" "required").toOption.getD none

theorem terms_eq_of_read {r : Rule} (h : Rule.read features label = .ok r) :
    r.terms = termsOf features := by
  have hreads := read_eq_ok_iff.1 (read_label h "")
  rw [terms, termsOf, hreads.rename, hreads.synonyms, hreads.required, hreads.default]
  rfl

/-- The rule that features make up, if they do. -/
def read? (features : Entries Value) : Option Rule := (Rule.read features "").toOption

theorem read?_of_read {r : Rule} (h : Rule.read features label = .ok r) :
    read? features = some r := by
  rw [read?, read_label h ""]
  rfl

theorem read_of_read? {r : Rule} (h : read? features = some r) :
    Rule.read features label = .ok r := by
  rw [read?] at h
  cases hread : Rule.read features "" with
  | error e =>
    rw [hread] at h
    cases h
  | ok r' =>
    rw [hread] at h
    rw [read_label hread label, ← Option.some.inj h]

end Rule
end Rulebook
