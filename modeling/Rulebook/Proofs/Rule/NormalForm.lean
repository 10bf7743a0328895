import Rulebook.Proofs.Rule.Respelling
import Rulebook.Proofs.Value.Parts

/-!
# The one spelling of a rule

The values at which a rule has rules are those that spelling goes on to.  A rule is
in its one spelling if and only if nothing is left to spell at any of them: no null
stands for a rule, no feature has another name, and no kind has another word.
Spelling a rule brings it there, so that spelling it once more changes nothing.  The
argument of a feature that has its own name is never that of an alias.

Arguments of other shapes are no rules, and are kept as they are.
-/

namespace Rulebook
namespace Rule

/-- What the features of a rule have where there should be rules. -/
inductive Holds (features : List (String × Value)) (v : Value) : Prop where
  | entry {name k : String} {es : List (String × Value)}
      (hrole : role (featureName name) = .ruleMap) (hfeature : (name, .mapping es) ∈ features)
      (hmem : (k, v) ∈ es)
  | argument {name : String} (hrole : role (featureName name) = .rule)
      (hfeature : (name, v) ∈ features)
  | branch {name : String} {vs : List Value} (hrole : role (featureName name) = .ruleList)
      (hfeature : (name, .list vs) ∈ features) (hmem : v ∈ vs)

/-- What stands where there should be a rule, at any depth. -/
inductive Subrule (root : Value) : Value → Prop where
  | self : Subrule root root
  | inner {fs : List (String × Value)} {v : Value} (houter : Subrule root (.mapping fs))
      (hv : Holds fs v) : Subrule root v

/-- Features that leave nothing to spell. -/
structure NormalFeatures (features : List (String × Value)) : Prop where
  /-- They are in the order of their names. -/
  sorted : Entries.Sorted features
  /-- None is named by an alias. -/
  named : ∀ e ∈ features, aliases.lookup e.1 = none
  /-- A kind is named by its tag. -/
  tagged : ∀ {v : Value} {k : Kind}, ("type", v) ∈ features → namedKind? v = some k →
    v = .text k.tag

/-- A rule that leaves nothing to spell, apart from the rules inside it. -/
def Normal : Value → Prop
  | .null => False
  | .mapping features => NormalFeatures features
  | _ => True

/-! ## Where rules stand -/

theorem Holds.nodes_lt {fs : List (String × Value)} {v : Value} (h : Holds fs v) :
    v.nodes < (Value.mapping fs).nodes := by
  cases h with
  | entry _ hfeature hmem =>
    exact Nat.lt_trans (Value.nodes_lt_mapping hmem) (Value.nodes_lt_mapping hfeature)
  | argument _ hfeature => exact Value.nodes_lt_mapping hfeature
  | branch _ hfeature hmem =>
    exact Nat.lt_trans (Value.nodes_lt_list hmem) (Value.nodes_lt_mapping hfeature)

theorem Holds.ordered {fs : List (String × Value)} {v : Value} (h : Holds fs v)
    (hfs : (Value.mapping fs).Ordered) : v.Ordered := by
  have hmembers := (Value.ordered_mapping.1 hfs).2
  cases h with
  | entry _ hfeature hmem => exact (Value.ordered_mapping.1 (hmembers _ hfeature)).2 _ hmem
  | argument _ hfeature => exact hmembers _ hfeature
  | branch _ hfeature hmem => exact Value.ordered_list.1 (hmembers _ hfeature) _ hmem

theorem Subrule.trans {u v w : Value} (huv : Subrule u v) (hvw : Subrule v w) : Subrule u w := by
  induction hvw with
  | self => exact huv
  | inner _ hv ih => exact .inner ih hv

theorem Subrule.ordered {root v : Value} (h : Subrule root v) (hroot : root.Ordered) :
    v.Ordered := by
  induction h with
  | self => exact hroot
  | inner _ hv ih => exact hv.ordered ih

/-! ## What spelling leaves -/

theorem kindOfWord?_tag (k : Kind) : kindOfWord? k.tag = some k := by
  cases k <;> decide

theorem tagged_spellKind {v : Value} {k : Kind}
    (h : namedKind? (spellArgument .kind v) = some k) : spellArgument .kind v = .text k.tag := by
  cases v with
  | null =>
    rw [spellArgument, namedKind?, kindOfWord?_tag] at h
    rw [spellArgument, Option.some.inj h]
  | text word =>
    rw [spellArgument, spellKind] at h ⊢
    cases hword : kindOfWord? word with
    | none =>
      rw [hword] at h
      cases hword.symm.trans h
    | some other =>
      rw [hword] at h
      rw [← Option.some.inj ((kindOfWord?_tag other).symm.trans h)]
  | _ => cases h

theorem normal_spell (v : Value) : Normal (spell v) := by
  cases v with
  | null =>
    rw [spell]
    exact ⟨Entries.sorted_nil, fun e he => (nomatch he), fun h => (nomatch h)⟩
  | mapping es =>
    rw [spell]
    have hspelled : ∀ {e}, e ∈ Entries.ofList (spellFeatures es es) →
        ∃ name v, e.1 = featureName name ∧ e.2 = spellArgument (role e.1) v := by
      intro e he
      rcases Entries.mem_of_mem_overlay he with he | he
      · obtain ⟨name, v, -, -, hname, hargument⟩ := mem_spellFeatures.1 he
        exact ⟨name, v, hname, hargument⟩
      · cases he
    refine ⟨Entries.sorted_ofList _, ?_, ?_⟩
    · intro e he
      obtain ⟨name, -, hname, -⟩ := hspelled he
      rw [hname]
      exact lookup_aliases_featureName name
    · intro v k hmem hkind
      obtain ⟨-, w, -, hargument⟩ := hspelled hmem
      have hv : v = spellArgument .kind w := hargument
      rw [hv] at hkind ⊢
      exact tagged_spellKind hkind
  | _ => exact trivial

/-- What a spelled rule has where there should be rules is spelled as well. -/
theorem Holds.of_spell {es : List (String × Value)} {v : Value}
    (h : Holds (Entries.ofList (spellFeatures es es)) v) : ∃ w, Holds es w ∧ v = spell w := by
  have hfeature : ∀ {name argument}, (name, argument) ∈ Entries.ofList (spellFeatures es es) →
      ∃ other w, (other, w) ∈ es ∧ featureName name = featureName other ∧
        argument = spellArgument (role (featureName name)) w := by
    intro name argument hmem
    rcases Entries.mem_of_mem_overlay hmem with hmem | hmem
    · obtain ⟨other, w, hw, -, rfl, hargument⟩ := mem_spellFeatures.1 hmem
      refine ⟨other, w, hw, featureName_featureName other, ?_⟩
      rw [featureName_featureName]
      exact hargument
    · cases hmem
  cases h with
  | entry hrole hmem hv =>
    obtain ⟨other, w, hw, hname, hargument⟩ := hfeature hmem
    rw [hrole] at hargument
    cases w with
    | mapping ws =>
      rw [spellArgument, spellEntries_eq_map] at hargument
      rw [Value.mapping.inj hargument] at hv
      obtain ⟨e, he, heq⟩ := List.mem_map.1 hv
      exact ⟨e.2, .entry (hname ▸ hrole) hw he, (Prod.mk.inj heq).2.symm⟩
    | _ => cases hargument
  | argument hrole hmem =>
    obtain ⟨other, w, hw, hname, hargument⟩ := hfeature hmem
    rw [hrole, spellArgument_rule] at hargument
    exact ⟨w, .argument (hname ▸ hrole) hw, hargument⟩
  | branch hrole hmem hv =>
    obtain ⟨other, w, hw, hname, hargument⟩ := hfeature hmem
    rw [hrole] at hargument
    cases w with
    | list ws =>
      rw [spellArgument, spellList_eq_map] at hargument
      rw [Value.list.inj hargument] at hv
      obtain ⟨u, hu, rfl⟩ := List.mem_map.1 hv
      exact ⟨u, .branch (hname ▸ hrole) hw hu, rfl⟩
    | _ => cases hargument

/-- Where a spelled rule has rules, the rule has them, and they are spelled. -/
theorem Subrule.of_spell {root v : Value} (h : Subrule (spell root) v) :
    ∃ w, Subrule root w ∧ v = spell w := by
  induction h with
  | self => exact ⟨root, .self, rfl⟩
  | inner _ hv ih =>
    obtain ⟨w, hw, hspell⟩ := ih
    cases w with
    | null =>
      rw [spell] at hspell
      rw [Value.mapping.inj hspell] at hv
      rcases hv with ⟨-, hmem, -⟩ | ⟨-, hmem⟩ | ⟨-, hmem, -⟩ <;> cases hmem
    | mapping es =>
      rw [spell] at hspell
      rw [Value.mapping.inj hspell] at hv
      obtain ⟨u, hu, heq⟩ := hv.of_spell
      exact ⟨u, .inner hw hu, heq⟩
    | _ => cases hspell

/-! ## Nothing left to spell -/

theorem map_eq_self {α : Type} {f : α → α} {xs : List α} (h : ∀ x ∈ xs, f x = x) :
    xs.map f = xs := by
  rw [List.map_congr_left h, List.map_id']

/-- An argument is left as it is if the rules in it are. -/
theorem spellArgument_eq_self {features : List (String × Value)} (hnormal : NormalFeatures features)
    (hinner : ∀ v, Holds features v → spell v = v) {e : String × Value} (he : e ∈ features) :
    spellArgument (role e.1) e.2 = e.2 := by
  obtain ⟨name, v⟩ := e
  have hname : featureName name = name := featureName_of_named (hnormal.named _ he)
  cases hrole : role name with
  | kind =>
    have htype : name = "type" := by
      by_contra hne
      rw [role, if_neg hne] at hrole
      split_ifs at hrole
    subst htype
    cases v with
    | null => cases hnormal.tagged he rfl
    | text word =>
      rw [spellArgument, spellKind]
      cases hword : kindOfWord? word with
      | none => rfl
      | some k => exact (hnormal.tagged he hword).symm
    | _ => rfl
  | rule =>
    rw [spellArgument_rule]
    exact hinner v (.argument (hname.symm ▸ hrole) he)
  | ruleMap =>
    cases v with
    | mapping es =>
      rw [spellArgument, spellEntries_eq_map]
      refine congrArg Value.mapping (map_eq_self ?_)
      rintro ⟨k, u⟩ hu
      rw [hinner u (.entry (hname.symm ▸ hrole) he hu)]
    | _ => rfl
  | ruleList =>
    cases v with
    | list vs =>
      rw [spellArgument, spellList_eq_map]
      refine congrArg Value.list (map_eq_self ?_)
      intro u hu
      exact hinner u (.branch (hname.symm ▸ hrole) he hu)
    | _ => rfl
  | plain => cases v <;> rfl

/-- Normal features name each feature once, and in order. -/
theorem NormalFeatures.namesOnce {features : List (String × Value)} (h : NormalFeatures features) :
    NamesOnce features := by
  have hnames : (features.map fun e => featureName e.1) = Entries.keys features :=
    List.map_congr_left fun e he => featureName_of_named (h.named e he)
  rw [NamesOnce, hnames]
  exact Entries.nodup_keys h.sorted

theorem spell_mapping_eq_self {features : List (String × Value)} (hnormal : NormalFeatures features)
    (hinner : ∀ v, Holds features v → spell v = v) : spell (.mapping features) = .mapping features := by
  rw [spell, spellFeatures_of_namesOnce hnormal.namesOnce]
  have hmap : (features.map fun e => (featureName e.1, spellArgument (role (featureName e.1)) e.2)) =
      features := by
    refine map_eq_self fun e he => ?_
    rw [featureName_of_named (hnormal.named e he), spellArgument_eq_self hnormal hinner he]
  rw [hmap, Entries.ofList_eq_of_perm hnormal.sorted (.refl _)]

/-- Spelling leaves a rule as it is if and only if there is nothing to spell in it. -/
theorem spell_eq_self_iff {v : Value} : spell v = v ↔ ∀ w, Subrule v w → Normal w := by
  constructor
  · intro hspell w hw
    rw [← hspell] at hw
    obtain ⟨u, -, rfl⟩ := hw.of_spell
    exact normal_spell u
  · intro hnormal
    -- The rules inside a rule have fewer nodes.
    induction hsize : v.nodes using Nat.strong_induction_on generalizing v with
    | _ n ih =>
      cases v with
      | null => exact (hnormal _ .self).elim
      | mapping fs =>
        refine spell_mapping_eq_self (hnormal _ .self) fun w hw => ?_
        exact ih w.nodes (hsize ▸ hw.nodes_lt)
          (fun u hu => hnormal u ((Subrule.inner .self hw).trans hu)) rfl
      | _ => rfl

/-- The argument of a feature that has its own name is spelled, whatever aliases of
the feature there are. -/
theorem lookup_spellFeatures {es : List (String × Value)} (hes : Entries.Sorted es)
    {feature : String} {v : Value} (hname : aliases.lookup feature = none)
    (hlookup : Entries.lookup feature es = some v) :
    Entries.lookup feature (Entries.ofList (spellFeatures es es)) =
      some (spellArgument (role feature) v) := by
  have hfeature : feature = featureName feature := (featureName_of_named hname).symm
  have hown : isHeard es feature = true := by
    rw [isHeard, ← hfeature, beq_self_eq_true, Bool.true_or]
  refine Entries.lookup_ofList_of_unique
    (mem_spellFeatures.2 ⟨feature, v, Entries.mem_of_lookup hlookup, hown, hfeature, rfl⟩) ?_
  intro argument hmem
  obtain ⟨name, w, hw, hheard, rfl, rfl⟩ := mem_spellFeatures.1 hmem
  have hhas : Entries.hasKey es (featureName name) = true := by
    rw [Entries.hasKey, hlookup]
    rfl
  rw [isHeard, hhas, Bool.not_true, Bool.or_false, beq_iff_eq] at hheard
  rw [hheard] at hlookup
  rw [Option.some.inj (((Entries.lookup_eq_some_iff hes).2 hw).symm.trans hlookup)]

/-- Spelling is a normal form.  A spelled rule is spelled as itself; wherever it has
rules, nothing is left to spell, and it has them where the rule had those that they
are spelled from.  Where a rule names a feature by its own name, the argument that the
feature keeps is the one under that name. -/
theorem spell_isNormalForm (r : Value) :
    spell (spell r) = spell r ∧
      (∀ v, Subrule (spell r) v → Normal v ∧ ∃ w, Subrule r w ∧ v = spell w) ∧
      (r.Ordered → ∀ es, Subrule r (.mapping es) → ∀ feature v,
        aliases.lookup feature = none → Entries.lookup feature es = some v →
        ∃ fs, spell (.mapping es) = .mapping fs ∧
          Entries.lookup feature fs = some (spellArgument (role feature) v)) := by
  have hspelled : ∀ v, Subrule (spell r) v → Normal v ∧ ∃ w, Subrule r w ∧ v = spell w := by
    intro v hv
    obtain ⟨w, hw, rfl⟩ := hv.of_spell
    exact ⟨normal_spell w, w, hw, rfl⟩
  refine ⟨spell_eq_self_iff.2 fun v hv => (hspelled v hv).1, hspelled, ?_⟩
  intro hr es hes feature v hname hlookup
  have hsorted : Entries.Sorted es := (Value.ordered_mapping.1 (hes.ordered hr)).1
  exact ⟨_, by rw [spell], lookup_spellFeatures hsorted hname hlookup⟩

/-- The features of a book.  Its items are named twice. -/
def bookFeatures : List (String × Value) :=
  [("items", .mapping [("cover", .null)]), ("schema", .mapping [("page", .null)]),
    ("type", .text "object")]

/-- A rule for shelves of books. -/
def shelf : Value := .mapping [("properties", .mapping [("book", .mapping bookFeatures)])]

theorem ordered_shelf : shelf.Ordered := by
  have hsorted : Entries.Sorted bookFeatures := by
    change ["items", "schema", "type"].Pairwise (· < ·)
    decide
  have hbook : Value.Ordered (.mapping bookFeatures) := by
    refine Value.ordered_mapping.2 ⟨hsorted, ?_⟩
    simp [bookFeatures, Value.Ordered, Value.OrderedEntries, Entries.Sorted, Entries.keys]
  have hbooks : Value.Ordered (.mapping [("book", .mapping bookFeatures)]) :=
    Value.ordered_mapping.2 ⟨List.pairwise_singleton _ _, fun e he =>
      List.mem_singleton.1 he ▸ hbook⟩
  exact Value.ordered_mapping.2 ⟨List.pairwise_singleton _ _, fun e he =>
    List.mem_singleton.1 he ▸ hbooks⟩

theorem subrule_shelf : Subrule shelf (.mapping bookFeatures) :=
  .inner .self (.entry rfl (List.mem_singleton_self _) (List.mem_singleton_self _))

/-- The items that the books of a shelf keep are those under the name of the feature. -/
theorem spell_isNormalForm_shelf :
    spell shelf = .mapping [("items", .mapping [("book", .mapping
      [("items", .mapping [("cover", .mapping [])]), ("type", .text "dict")])])] ∧
    spell (spell shelf) = spell shelf ∧
    ∃ fs, spell (.mapping bookFeatures) = .mapping fs ∧
      Entries.lookup "items" fs = some (.mapping [("cover", .mapping [])]) := by
  obtain ⟨hspell, -, hown⟩ := spell_isNormalForm shelf
  exact ⟨rfl, hspell, hown ordered_shelf bookFeatures subrule_shelf "items" _ rfl rfl⟩

end Rule
end Rulebook
