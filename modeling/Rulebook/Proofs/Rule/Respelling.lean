import Rulebook.Proofs.Rule.Inside
import Rulebook.Proofs.Value.Ordered
import Rulebook.Registration

/-!
# Spellings of one rule

A rule is respelled by writing other names for its features, other words for the
kinds it demands, and null for the rule that demands nothing, in any of the
positions that hold a rule.  Names of schemas, keys of entries, sources of
patterns and arguments that hold neither a kind nor rules stay as they are.

The features of a mapping may come in another order once they are renamed.  A
mapping has to name each feature once, because a feature under its own name
silences its aliases and of two aliases the last one is heard.

All spellings of a rule are brought into the same one, so that registration
cannot tell them apart.
-/

namespace Rulebook
namespace Rule

/-! ## Respelled rules -/

/-- The kind that the argument of a type feature names. -/
def namedKind? : Value → Option Kind
  | .null => some .null
  | .text word => kindOfWord? word
  | _ => none

/-- No feature is named twice. -/
def NamesOnce (features : List (String × Value)) : Prop :=
  (features.map fun e => featureName e.1).Nodup

mutual

/-- The two are spellings of one rule. -/
inductive Respelled : Value → Value → Prop
  | same (v : Value) : Respelled v v
  | ofNull : Respelled .null (.mapping [])
  | toNull : Respelled (.mapping []) .null
  | features {es fs gs : List (String × Value)} (h : FeaturesRespelled es fs)
      (hperm : fs.Perm gs) (hes : NamesOnce es) (hgs : NamesOnce gs) :
      Respelled (.mapping es) (.mapping gs)

/-- The two are spellings of one argument, of a feature of the given role. -/
inductive ArgumentRespelled : Role → Value → Value → Prop
  | same (r : Role) (v : Value) : ArgumentRespelled r v v
  | kind {v w : Value} {k : Kind} (hv : namedKind? v = some k) (hw : namedKind? w = some k) :
      ArgumentRespelled .kind v w
  | rule {v w : Value} (h : Respelled v w) : ArgumentRespelled .rule v w
  | ruleMap {es fs : List (String × Value)} (h : EntriesRespelled es fs) :
      ArgumentRespelled .ruleMap (.mapping es) (.mapping fs)
  | ruleList {vs ws : List Value} (h : ListRespelled vs ws) :
      ArgumentRespelled .ruleList (.list vs) (.list ws)

/-- The two name the same features one by one, with spellings of one argument. -/
inductive FeaturesRespelled : List (String × Value) → List (String × Value) → Prop
  | nil : FeaturesRespelled [] []
  | cons {name other : String} {v w : Value} {es fs : List (String × Value)}
      (hname : featureName name = featureName other)
      (h : ArgumentRespelled (role (featureName name)) v w) (hrest : FeaturesRespelled es fs) :
      FeaturesRespelled ((name, v) :: es) ((other, w) :: fs)

/-- The two have spellings of one rule under each key. -/
inductive EntriesRespelled : List (String × Value) → List (String × Value) → Prop
  | nil : EntriesRespelled [] []
  | cons (key : String) {v w : Value} {es fs : List (String × Value)} (h : Respelled v w)
      (hrest : EntriesRespelled es fs) : EntriesRespelled ((key, v) :: es) ((key, w) :: fs)

/-- The two have spellings of one rule in each place. -/
inductive ListRespelled : List Value → List Value → Prop
  | nil : ListRespelled [] []
  | cons {v w : Value} {vs ws : List Value} (h : Respelled v w) (hrest : ListRespelled vs ws) :
      ListRespelled (v :: vs) (w :: ws)

end

/-! ## Names of features -/

theorem lookup_aliases_target : ∀ e ∈ aliases, aliases.lookup e.2 = none := by
  decide

/-- No name stands for an alias. -/
theorem lookup_aliases_featureName (name : String) : aliases.lookup (featureName name) = none := by
  unfold featureName
  cases hname : aliases.lookup name with
  | none => exact hname
  | some feature =>
    obtain ⟨l₁, l₂, hsplit, -⟩ := List.lookup_eq_some_iff.1 hname
    have hmem : (name, feature) ∈ aliases := by
      rw [hsplit]
      simp
    exact lookup_aliases_target _ hmem

theorem featureName_of_named {name : String} (h : aliases.lookup name = none) :
    featureName name = name := by
  rw [featureName, h, Option.getD_none]

/-- What a name stands for stands for itself. -/
theorem featureName_featureName (name : String) :
    featureName (featureName name) = featureName name :=
  featureName_of_named (lookup_aliases_featureName name)

/-- A feature that is named once is heard under any name. -/
theorem isHeard_of_namesOnce {all : List (String × Value)} (hall : NamesOnce all)
    {e : String × Value} (he : e ∈ all) : isHeard all e.1 = true := by
  by_cases hname : featureName e.1 = e.1
  · rw [isHeard, beq_iff_eq.2 hname, Bool.true_or]
  · have habsent : Entries.lookup (featureName e.1) all = none := by
      cases hlookup : Entries.lookup (featureName e.1) all with
      | none => rfl
      | some v =>
        -- The name and its alias would be two entries for one feature.
        have hmem := Entries.mem_of_lookup hlookup
        have heq : (featureName e.1, v) = e :=
          List.inj_on_of_nodup_map hall hmem he (featureName_featureName e.1)
        exact absurd (congrArg Prod.fst heq) hname
    rw [isHeard, Entries.hasKey, habsent]
    exact Bool.or_true _

/-- The features of a mapping that names each once, all in their one spelling. -/
theorem spellFeatures_of_namesOnce {all : List (String × Value)} (hall : NamesOnce all) :
    spellFeatures all all =
      all.map fun e => (featureName e.1, spellArgument (role (featureName e.1)) e.2) := by
  have hsuffix : ∀ es : List (String × Value), (∀ e ∈ es, e ∈ all) →
      spellFeatures all es =
        es.map fun e => (featureName e.1, spellArgument (role (featureName e.1)) e.2) := by
    intro es
    induction es with
    | nil =>
      intro _
      rw [spellFeatures, List.map_nil]
    | cons e es ih =>
      intro hes
      obtain ⟨name, v⟩ := e
      have hheard := isHeard_of_namesOnce hall (hes _ (List.mem_cons_self ..))
      rw [spellFeatures, if_pos hheard, ih fun f hf => hes f (List.mem_cons_of_mem _ hf),
        List.map_cons]
  exact hsuffix all fun _ he => he

/-! ## The one spelling -/

theorem spellKind_of_namedKind {v : Value} {k : Kind} (h : namedKind? v = some k) :
    spellArgument .kind v = .text k.tag := by
  cases v with
  | null =>
    rw [namedKind?] at h
    rw [spellArgument, Option.some.inj h]
  | text word =>
    rw [namedKind?] at h
    rw [spellArgument, spellKind, h]
  | _ => cases h

mutual

/-- All spellings of a rule are brought into the same one. -/
theorem Respelled.spell_eq {v w : Value} : Respelled v w → spell v = spell w
  | .same _ => rfl
  | .ofNull => rfl
  | .toNull => rfl
  | @Respelled.features es fs gs h hperm hes hgs => by
    have hmap := FeaturesRespelled.map_eq h
    have hspelled : (spellFeatures es es).Perm (spellFeatures gs gs) := by
      rw [spellFeatures_of_namesOnce hes, spellFeatures_of_namesOnce hgs, hmap]
      exact hperm.map _
    have hkeys : (Entries.keys (spellFeatures gs gs)).Nodup := by
      rw [spellFeatures_of_namesOnce hgs, Entries.keys, List.map_map]
      exact hgs
    rw [spell, spell, Entries.ofList_eq_ofList_of_perm hkeys hspelled]

theorem ArgumentRespelled.spell_eq {r : Role} {v w : Value} :
    ArgumentRespelled r v w → spellArgument r v = spellArgument r w
  | .same _ _ => rfl
  | .kind hv hw => by rw [spellKind_of_namedKind hv, spellKind_of_namedKind hw]
  | .rule h => by rw [spellArgument_rule, spellArgument_rule, Respelled.spell_eq h]
  | .ruleMap h => by rw [spellArgument, spellArgument, EntriesRespelled.spell_eq h]
  | .ruleList h => by rw [spellArgument, spellArgument, ListRespelled.spell_eq h]

theorem FeaturesRespelled.map_eq {es fs : List (String × Value)} : FeaturesRespelled es fs →
    (es.map fun e => (featureName e.1, spellArgument (role (featureName e.1)) e.2)) =
      fs.map fun e => (featureName e.1, spellArgument (role (featureName e.1)) e.2)
  | .nil => rfl
  | .cons hname h hrest => by
    rw [List.map_cons, List.map_cons, FeaturesRespelled.map_eq hrest,
      ArgumentRespelled.spell_eq h, hname]

theorem EntriesRespelled.spell_eq {es fs : List (String × Value)} :
    EntriesRespelled es fs → spellEntries es = spellEntries fs
  | .nil => rfl
  | .cons key h hrest => by
    rw [spellEntries, spellEntries, Respelled.spell_eq h, EntriesRespelled.spell_eq hrest]

theorem ListRespelled.spell_eq {vs ws : List Value} :
    ListRespelled vs ws → spellList vs = spellList ws
  | .nil => rfl
  | .cons h hrest => by
    rw [spellList, spellList, Respelled.spell_eq h, ListRespelled.spell_eq hrest]

end

end Rule

/-! ## Registration -/

namespace Registry

open Rule

theorem prepare_respelled {submitted other : Entries Value}
    (h : EntriesRespelled submitted other) {options : Options}
    (hplain : options.loadAsJsonSchema = false) :
    prepare submitted options = prepare other options := by
  have hspell : ∀ es : Entries Value, prepare es options = spellEntries es := by
    intro es
    induction es with
    | nil => rw [spellEntries, prepare, Entries.mapValues, List.map_nil]
    | cons e es ih =>
      obtain ⟨name, rule⟩ := e
      rw [spellEntries, ← ih]
      simp only [prepare, Entries.mapValues, List.map_cons, hplain, Bool.false_eq_true, if_false]
  rw [hspell, hspell, h.spell_eq]

/-- Spellings of one rule are brought into the same spelling, and a batch ends the
same in every registry whichever of them it brings, to whatever depth calls are
followed: down to each identity, each program and each rule that is kept. -/
theorem spelling_unobservable {v w : Value} (h : Respelled v w) :
    spell v = spell w ∧
      ∀ (r : Registry) (depth : Nat) (options : Options) (name : String)
        (before after : Entries Value), options.loadAsJsonSchema = false →
        r.registerWithin depth (.mapping (before ++ (name, v) :: after)) options =
          r.registerWithin depth (.mapping (before ++ (name, w) :: after)) options := by
  refine ⟨h.spell_eq, ?_⟩
  intro r depth options name before after hplain
  have hrest : ∀ es : Entries Value, EntriesRespelled es es := by
    intro es
    induction es with
    | nil => exact .nil
    | cons e es ih => exact .cons e.1 (.same e.2) ih
  have hbatch : EntriesRespelled (before ++ (name, v) :: after) (before ++ (name, w) :: after) := by
    induction before with
    | nil => exact .cons name h (hrest after)
    | cons e before ih => exact .cons e.1 (.same e.2) ih
  rw [registerWithin, registerWithin, prepare_respelled hbatch hplain]

/-- A rule for crates.  The entry `anyOf` is no feature. -/
def crate : Value :=
  .mapping [
    ("schema", .mapping [
      ("anyOf", .null),
      ("lid", .mapping [("default", .null), ("enum", .list [.null]), ("type", .null)])]),
    ("type", .text "object"),
    ("valuesrules", .mapping [])]

/-- The same rule in other words.  The feature `allowed` comes before `default`,
and `enum` after it. -/
def crateInOtherWords : Value :=
  .mapping [
    ("items", .mapping [
      ("anyOf", .mapping []),
      ("lid", .mapping [("allowed", .list [.null]), ("default", .null), ("type", .text "None")])]),
    ("type", .text "mapping"),
    ("values", .null)]

theorem respelled_crate : Respelled crate crateInOtherWords := by
  have hlid : FeaturesRespelled
      [("default", .null), ("enum", .list [.null]), ("type", .null)]
      [("default", .null), ("allowed", .list [.null]), ("type", .text "None")] :=
    .cons rfl (.same _ _) (.cons rfl (.same _ _) (.cons rfl (.kind rfl rfl) .nil))
  have hitems : ArgumentRespelled .ruleMap
      (.mapping [
        ("anyOf", .null),
        ("lid", .mapping [("default", .null), ("enum", .list [.null]), ("type", .null)])])
      (.mapping [
        ("anyOf", .mapping []),
        ("lid", .mapping
          [("allowed", .list [.null]), ("default", .null), ("type", .text "None")])]) := by
    refine .ruleMap (.cons "anyOf" .ofNull (.cons "lid" ?_ .nil))
    refine .features hlid (.swap _ _ _) ?_ ?_ <;> unfold NamesOnce <;> decide
  have hfeatures : FeaturesRespelled
      [("schema", _), ("type", .text "object"), ("valuesrules", .mapping [])]
      [("items", _), ("type", .text "mapping"), ("values", .null)] :=
    .cons rfl hitems (.cons rfl (.kind rfl rfl) (.cons rfl (.rule .toNull) .nil))
  refine .features hfeatures (.refl _) ?_ ?_ <;> unfold NamesOnce <;> decide

theorem spelling_unobservable_crate : spell crate = spell crateInOtherWords ∧
    (Registry.empty {} ⟨[]⟩ id).registerWith (.mapping [("crate", crate)]) {} =
      (Registry.empty {} ⟨[]⟩ id).registerWith (.mapping [("crate", crateInOtherWords)]) {} := by
  obtain ⟨hspell, hregister⟩ := spelling_unobservable respelled_crate
  exact ⟨hspell, hregister _ depthLimit {} "crate" [] [] rfl⟩

end Registry
end Rulebook
