import Rulebook.Proofs.Compilation.Testing
import Rulebook.Proofs.Registry.Isolation
import Rulebook.Proofs.Registry.Meaning
import Rulebook.Proofs.Registry.Termination

/-!
# Checking alone changes nothing

In a registry whose batches had only rules that check, and options that leave out no unknown
keys, all programs only test.  A value that passes such a schema is returned as it is: with
the same keys, the same elements in the same order, and the same numbers.
-/

namespace Rulebook
namespace Registry

open Source

variable {r : Registry} {submitted batch : Entries Value} {options : Options} {st : Staging}

/-! ## Registries whose rules only check -/

/-- No rule of the batch, be it named or inside another one, changes values, and neither the
rules nor the options leave out unknown keys. -/
def ChecksOnly (_ : Registry) (submitted : Entries Value) (options : Options) : Prop :=
  (∀ fs, Rule.Part (prepare submitted options) (.mapping fs) → Rule.OnlyChecks fs) ∧
    options.purgeUnknown = false

/-- Registries that have come about by accepted batches of such rules. -/
abbrev ReachableByChecks : Registry → Prop := ReachableBy ChecksOnly

/-- The rules of all registered schemas. -/
def rules (r : Registry) : Entries Value := Entries.mapValues SchemaEntry.rule r.schemas

theorem rules_publish_subset : (r.publish batch options st).rules ⊆ batch ++ r.rules := by
  intro e he
  obtain ⟨f, hf, rfl⟩ := List.mem_map.1 he
  rcases Entries.mem_of_mem_overlay hf with hf | hf
  · obtain ⟨g, hg, rfl⟩ := List.mem_map.1 hf
    exact List.mem_append_left _ hg
  · exact List.mem_append_right _ (List.mem_map_of_mem hf)

/-- The registered rules are in their one spelling. -/
theorem ReachableBy.rules_spelled {meets : Registry → Entries Value → Options → Prop}
    (hr : ReachableBy meets r) : ∀ e ∈ r.rules, Rule.Spelled e.2 := by
  induction hr with
  | empty options coercions digest => exact fun e he => absurd he List.not_mem_nil
  | batch _ _ hregister ih =>
    obtain ⟨st, -, rfl⟩ := registerWithin_eq_ok_iff.1 hregister
    intro e he
    rcases List.mem_append.1 (rules_publish_subset he) with he | he
    · exact spelled_of_mem_prepare he
    · exact ih e he

/-- All rules that a further batch is compiled from are in their one spelling. -/
theorem ReachableBy.source_spelled {meets : Registry → Entries Value → Options → Prop}
    (hr : ReachableBy meets r) :
    ∀ e ∈ (r.source (prepare submitted options) options).batch ++
      (r.source (prepare submitted options) options).registered, Rule.Spelled e.2 := by
  intro e he
  rcases List.mem_append.1 he with he | he
  · exact spelled_of_mem_prepare he
  · exact hr.rules_spelled e he

/-- The registered rules only check. -/
theorem ReachableBy.rules_onlyCheck (hr : ReachableByChecks r) :
    ∀ fs, Rule.Part r.rules (.mapping fs) → Rule.OnlyChecks fs := by
  induction hr with
  | empty options coercions digest =>
    intro fs hpart
    exfalso
    generalize Value.mapping fs = v at hpart
    induction hpart with
    | named hmem => cases hmem
    | inner _ _ ih => exact ih
  | @batch r r' _ submitted options hr hmeets hregister ih =>
    obtain ⟨st, -, rfl⟩ := registerWithin_eq_ok_iff.1 hregister
    intro fs hpart
    rcases (hpart.mono rules_publish_subset).of_append with hpart | hpart
    · exact hmeets.1 fs hpart
    · exact ih fs hpart

/-- What a further batch of such rules is compiled from. -/
theorem ReachableBy.source_onlyChecks (hr : ReachableByChecks r)
    (hmeets : ChecksOnly r submitted options) :
    (r.source (prepare submitted options) options).OnlyChecks where
  rules := by
    intro fs hpart
    rcases Rule.Part.of_append hpart with hpart | hpart
    · exact hmeets.1 fs hpart
    · exact hr.rules_onlyCheck fs hpart
  spelled := hr.source_spelled
  purge := hmeets.2

/-- All programs of the registry only test. -/
theorem ReachableBy.onlyTest (hr : ReachableByChecks r) : r.bindings.OnlyTest := by
  have hpublished : r.linkage.Published Source.OnlyChecks :=
    (hr.sound_published fun _ _ _ hq hmeets => hq.source_onlyChecks hmeets).2
  intro k p hp
  exact (hpublished k p (Linkage.mem_of_lookup hp)).onlyTests

/-! ## Validation -/

/-- Where rules only check, a value that passes is returned as it is, whether or not the
schemas break loops. -/
theorem validate_returns_input (hr : ReachableByChecks r) (handle : Validator) {v w : Value}
    (hv : v.Ordered) (context : Option Context) :
    (r.validate handle v context = some (.ok w) → w = v) ∧
      ∀ depth, r.validateWithin depth handle v context = some (.ok w) → w = v := by
  have hwithin : ∀ depth, r.validateWithin depth handle v context = some (.ok w) → w = v :=
    fun _ h => hr.onlyTest.eq_of_passes hv h
  exact ⟨hwithin depthLimit, hwithin⟩

/-! ## Folders -/

/-- The rule for labels. -/
def labelFeatures : Entries Value := [("max_len", .number (.ofIndex 8)), ("type", .text "str")]

/-- The rule for names. -/
def nameFeatures : Entries Value := [("min_len", .number (.ofIndex 1))]

/-- A rule for mappings with a label and any number of named nodes. -/
def folderFeatures : Entries Value :=
  [("items", .mapping [("label", .mapping labelFeatures)]), ("keys", .mapping nameFeatures),
    ("type", .text "dict"), ("values", .text "node")]

/-- The rule for whole numbers. -/
def sizeFeatures : Entries Value := [("type", .text "int")]

/-- A rule for folders and whole numbers. -/
def nodeFeatures : Entries Value :=
  [("any_of", .list [.text "folder", .mapping sizeFeatures])]

/-- Rules for folders, which may contain each other. -/
def folderRules : Entries Value :=
  [("folder", .mapping folderFeatures), ("node", .mapping nodeFeatures)]

/-- Options under which loops are failures. -/
def strict : Options := { validateSchemas := false, breakLoops := false }

set_option maxRecDepth 100000 in
/-- A registry for folders. -/
@[irreducible]
def folders : Registry :=
  accepted ((Registry.empty strict ⟨[]⟩ id).registerWith (.mapping folderRules) strict)
    (by decide +kernel)

/-- The rules for folders and the rules inside them. -/
def folderParts : List (Entries Value) :=
  [folderFeatures, nodeFeatures, labelFeatures, nameFeatures, sizeFeatures]

theorem inside_folder {features : Entries Value} {v : Value} (hfeatures : features ∈ folderParts)
    (h : Rule.Inside features v) : (∃ n, v = .text n) ∨ ∃ fs ∈ folderParts, v = .mapping fs := by
  simp only [folderParts, List.mem_cons, List.not_mem_nil, or_false] at hfeatures
  rcases hfeatures with rfl | rfl | rfl | rfl | rfl
  · rcases h with ⟨rfl | rfl, hlookup, hmem⟩ | ⟨rfl | rfl, hlookup⟩ | ⟨rfl | rfl, hlookup, -⟩
    · cases hlookup
      exact Or.inr ⟨labelFeatures, by decide, congrArg Prod.snd (List.mem_singleton.1 hmem)⟩
    · cases hlookup
    · cases hlookup
      exact Or.inr ⟨nameFeatures, by decide, rfl⟩
    · cases hlookup
      exact Or.inl ⟨"node", rfl⟩
    all_goals cases hlookup
  · rcases h with ⟨rfl | rfl, hlookup, -⟩ | ⟨rfl | rfl, hlookup⟩ | ⟨rfl | rfl, hlookup, hmem⟩
    case branch.inl =>
      cases hlookup
      rcases List.mem_pair.1 hmem with hmem | hmem
      · exact Or.inl ⟨"folder", hmem⟩
      · exact Or.inr ⟨sizeFeatures, by decide, hmem⟩
    all_goals cases hlookup
  all_goals
    rcases h with ⟨rfl | rfl, hlookup, -⟩ | ⟨rfl | rfl, hlookup⟩ | ⟨rfl | rfl, hlookup, -⟩ <;>
      cases hlookup

theorem part_folder {v : Value} (h : Rule.Part folderRules v) :
    (∃ n, v = .text n) ∨ ∃ fs ∈ folderParts, v = .mapping fs := by
  induction h with
  | named hmem =>
    rcases List.mem_pair.1 hmem with hmem | hmem
    · exact Or.inr ⟨folderFeatures, by decide, congrArg Prod.snd hmem⟩
    · exact Or.inr ⟨nodeFeatures, by decide, congrArg Prod.snd hmem⟩
  | inner _ hinside ih =>
    obtain ⟨n, hn⟩ | ⟨features, hfeatures, heq⟩ := ih
    · cases hn
    · cases heq
      exact inside_folder hfeatures hinside

theorem folders_checksOnly : ChecksOnly (Registry.empty strict ⟨[]⟩ id) folderRules strict := by
  have hparts : ∀ fs ∈ folderParts,
      (∀ f ∈ Rule.changingFeatures, Entries.lookup f fs = none) ∧
        Entries.lookup "purge_unknown" fs ≠ some (.bool true) := by
    decide
  constructor
  · intro fs hpart
    obtain ⟨n, hn⟩ | ⟨features, hfeatures, heq⟩ := part_folder hpart
    · cases hn
    · cases heq
      exact ⟨(hparts fs hfeatures).1, (hparts fs hfeatures).2⟩
  · rfl

theorem folders_reachable : folders.ReachableByChecks := by
  have hregister : (Registry.empty strict ⟨[]⟩ id).registerWith (.mapping folderRules) strict =
      .ok folders := by
    unfold folders
    exact eq_ok_accepted _
  exact .batch (.empty strict ⟨[]⟩ id) folders_checksOnly hregister

/-- A folder with a label, which contains another one. -/
def folder : Value :=
  .mapping [("inner", .mapping [("size", .number (.ofIndex 3))]), ("label", .text "outer")]

theorem folder_ordered : folder.Ordered := by
  have hinner : Value.Ordered (.mapping [("size", .number (.ofIndex 3))]) :=
    Value.ordered_mapping.2 ⟨List.pairwise_singleton _ _, by simp [Value.Ordered]⟩
  refine Value.ordered_mapping.2 ⟨?_, ?_⟩
  · change ["inner", "label"].Pairwise (· < ·)
    decide
  · intro e he
    rcases List.mem_pair.1 he with rfl | rfl
    · exact hinner
    · trivial

set_option maxRecDepth 100000 in
/-- A folder that passes is returned as it is. -/
theorem validate_returns_folder : ∃ handle w, folders.get? "folder" = some handle ∧
    folders.validate handle folder none = some (.ok w) ∧ w = folder := by
  have hpasses : ((folders.get? "folder").bind fun handle =>
      folders.validate handle folder none).map Except.toBool = some true := by
    decide +kernel
  obtain ⟨o, houtcome, htrue⟩ := Option.map_eq_some_iff.1 hpasses
  obtain ⟨handle, hhandle, ho⟩ := Option.bind_eq_some_iff.1 houtcome
  cases o with
  | error e => cases htrue
  | ok w =>
    exact ⟨handle, w, hhandle, ho, (validate_returns_input folders_reachable handle folder_ordered
      none).1 ho⟩

end Registry
end Rulebook
