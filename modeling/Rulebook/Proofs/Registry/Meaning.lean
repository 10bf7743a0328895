import Rulebook.Proofs.Compilation.Inherited
import Rulebook.Proofs.Interpretation.Refinement
import Rulebook.Proofs.Registry.History

/-!
# What registered schemas mean

A schema that was registered with a first batch, under validation, does what its
rule does when it is interpreted as it is written.  This holds to every depth, so
that the one ends if and only if the other does, and with the same outcome.

Two rules of the batch with one identity are taken to have one form and the same
options: this is what the identity is a digest of.
-/

namespace Rulebook
namespace Registry

open Source

variable {r : Registry} {depth : Nat} {submitted batch : Entries Value}
  {options : Options} {st : Staging}

/-- A registry in which nothing has been registered. -/
structure Bare (r : Registry) : Prop where
  schemas : r.schemas = []
  bindings : r.bindings = []
  sound : ∀ good, r.Sound good

theorem bare_empty (base : Options) (coercions : CoercionTable) (digest : Digest) :
    (Registry.empty base coercions digest).Bare :=
  ⟨rfl, rfl, fun _ => sound_empty base coercions digest⟩

/-- The compilation of a first batch is complete. -/
theorem Bare.complete (h : r.Bare) (hbatch : Entries.Sorted batch)
    (haccepts : r.Accepts depth batch options st) : (r.source batch options).Complete st := by
  have hregistered : (r.source batch options).registered = [] := by
    rw [source, h.schemas]
    rfl
  exact compileBatch_complete ((h.sound _).start batch options) (ready_start batch options) rfl
    haccepts.compile hbatch hregistered h.bindings

theorem Bare.mem_of_contains (h : r.Bare) (hbatch : Entries.Sorted batch) {n : String}
    (hcontains : (r.publish batch options st).contains n = true) : ∃ v, (n, v) ∈ batch := by
  rw [contains, Entries.hasKey, publish] at hcontains
  dsimp only at hcontains
  rw [h.schemas, Entries.lookup_overlay (Entries.sorted_mapValues hbatch _),
    Entries.lookup_mapValues] at hcontains
  cases hlookup : Entries.lookup n batch with
  | none =>
    rw [hlookup] at hcontains
    cases hcontains
  | some v => exact ⟨v, Entries.mem_of_lookup hlookup⟩

theorem spelled_of_mem_prepare {e : String × Value} (he : e ∈ prepare submitted options) :
    Rule.Spelled e.2 := by
  obtain ⟨f, -, rfl⟩ := List.mem_map.1 he
  exact ⟨_, rfl⟩

/-- The schemas of a first batch are followed as they are interpreted. -/
theorem Bare.follow_eq_interpret (h : r.Bare) (hbatch : Entries.Sorted batch)
    (hspelled : ∀ e ∈ batch, Rule.Spelled e.2) (hbreak : options.breakLoops = true)
    (hvalidate : options.validateSchemas = true) (haccepts : r.Accepts depth batch options st)
    (hidentified : (r.source batch options).Identified) {n : String}
    (hcontains : (r.publish batch options st).contains n = true) :
    ∃ l, (r.publish batch options st).get? n = some ⟨n, l⟩ ∧ ∀ context v depth,
      follow (r.publish batch options st).bindings context depth [] l v =
        (r.source batch options).interpret context depth [] (.name n) v := by
  have hcomplete := h.complete hbatch haccepts
  have hregistered : (r.source batch options).registered = [] := hcomplete.fresh
  obtain ⟨v, hmem⟩ := h.mem_of_contains hbatch hcontains
  obtain ⟨l, hl⟩ := hcomplete.exists_link hmem
  refine ⟨l, get?_publish hbatch hcomplete.sound hmem hl, ?_⟩
  intro context w depth
  rw [follow_publish r batch options haccepts.tracked]
  refine hcomplete.follow_eq_interpret hidentified ?_ hbreak context depth .nil (.name hl) w
  intro features options' hoccurs
  exact hoccurs.plainEntries hspelled hregistered (haccepts.check hvalidate)

/-- The schemas of a first batch do what their rules say, whatever depth the batch was checked
to. -/
theorem validate_eq_interpret {base : Options} {coercions : CoercionTable} {digest : Digest}
    (hsubmitted : Entries.Sorted submitted) (hbreak : options.breakLoops = true)
    (hvalidate : options.validateSchemas = true)
    (hregister : (Registry.empty base coercions digest).registerWithin depth (.mapping submitted)
      options = .ok r)
    (hidentified : ((Registry.empty base coercions digest).source (prepare submitted options)
      options).Identified) {n : String} (hcontains : r.contains n = true) :
    ∃ handle, r.get? n = some handle ∧ ∀ context v,
      (∀ depth, follow r.bindings context depth [] handle.link v =
        ((Registry.empty base coercions digest).source (prepare submitted options)
          options).interpret context depth [] (.name n) v) ∧
      r.validate handle v context =
        (((Registry.empty base coercions digest).source (prepare submitted options)
          options).interpret context depthLimit [] (.name n) v).run := by
  have hbare := bare_empty base coercions digest
  generalize Registry.empty base coercions digest = fresh at hbare hregister hidentified ⊢
  obtain ⟨st, haccepts, rfl⟩ := registerWithin_eq_ok_iff.1 hregister
  obtain ⟨l, hget, hfollow⟩ := hbare.follow_eq_interpret (prepare_sorted hsubmitted options)
    (fun e he => spelled_of_mem_prepare he) hbreak hvalidate haccepts hidentified hcontains
  refine ⟨⟨n, l⟩, hget, ?_⟩
  intro context v
  refine ⟨hfollow context v, ?_⟩
  rw [← hfollow context v depthLimit]
  rfl

/-- A rule for lists of forests. -/
def treesFeatures : Entries Value := [("type", .text "list"), ("values", .text "forest")]

/-- A rule for mappings whose values are lists of such mappings. -/
def forestFeatures : Entries Value := [("type", .text "dict"), ("values", .mapping treesFeatures)]

/-- What a batch with the rule for forests is compiled from. -/
def forest : Source :=
  (Registry.empty {} ⟨[]⟩ id).source (prepare [("forest", .mapping forestFeatures)] {}) {}

theorem forest_occurs {features : Entries Value} {options' : Options}
    (h : forest.Occurs features options') :
    options' = {} ∧ (features = forestFeatures ∨ features = treesFeatures) := by
  induction h with
  | named hmem hflat =>
    obtain ⟨rfl, rfl⟩ := Prod.mk.inj (List.mem_singleton.1 hmem)
    cases hflat with
    | mapping h => exact ⟨rfl, Or.inl (Except.ok.inj h).symm⟩
  | inner _ hread hmem hflat ih =>
    obtain ⟨⟨fs, rfl, hfs⟩, -⟩ := hflat
    obtain ⟨rfl, rfl | rfl⟩ := ih
    · rw [← Option.some.inj hread] at hmem ⊢
      have hvalue := List.mem_singleton.1 hmem
      cases hvalue
      exact ⟨rfl, Or.inr (Except.ok.inj hfs).symm⟩
    · rw [← Option.some.inj hread] at hmem
      have hvalue := List.mem_singleton.1 hmem
      cases hvalue

theorem forest_identified : forest.Identified := by
  have hforest : forest.FormIs forestFeatures (.mapping forestFeatures) := ⟨3, rfl⟩
  have htrees : forest.FormIs treesFeatures (.mapping treesFeatures) := ⟨3, rfl⟩
  have hdistinct : ∀ f ∈ [.mapping forestFeatures, .mapping treesFeatures],
      ∀ g ∈ [.mapping forestFeatures, .mapping treesFeatures],
        SchemaId.of id f {} = SchemaId.of id g {} → f = g := by
    decide +kernel
  refine identified_of_forms (fun h hform => ?_) hdistinct
  obtain ⟨rfl, rfl | rfl⟩ := forest_occurs h
  · rw [hform.unique hforest]
    exact ⟨rfl, List.mem_cons_self ..⟩
  · rw [hform.unique htrees]
    exact ⟨rfl, List.mem_cons_of_mem _ (List.mem_singleton_self _)⟩

set_option maxRecDepth 100000 in
theorem registerWith_forest : ((Registry.empty {} ⟨[]⟩ id).registerWith
    (.mapping [("forest", .mapping forestFeatures)]) {}).toBool = true := by
  decide +kernel

set_option maxRecDepth 10000 in
theorem interpret_forest : (forest.interpret none 3 [] (.name "forest")
    (.mapping [("oak", .list [.mapping []])])).run =
      some (.ok (.mapping [("oak", .list [.mapping []])])) := rfl

/-- A registered rule for forests is followed as it is interpreted. -/
theorem follow_forest : ∃ r handle, (Registry.empty {} ⟨[]⟩ id).registerWith
    (.mapping [("forest", .mapping forestFeatures)]) {} = .ok r ∧
      r.get? "forest" = some handle ∧
      (follow r.bindings none 3 [] handle.link (.mapping [("oak", .list [.mapping []])])).run =
        some (.ok (.mapping [("oak", .list [.mapping []])])) := by
  cases hregister : (Registry.empty {} ⟨[]⟩ id).registerWith
      (.mapping [("forest", .mapping forestFeatures)]) {} with
  | error e =>
    have hok := registerWith_forest
    rw [hregister] at hok
    cases hok
  | ok r =>
    have hsorted : Entries.Sorted [("forest", Value.mapping forestFeatures)] :=
      List.pairwise_singleton _ _
    have hcontains : r.contains "forest" = true := by
      obtain ⟨st, -, rfl⟩ := registerWithin_eq_ok_iff.1 hregister
      rfl
    obtain ⟨handle, hget, hfollow⟩ :=
      validate_eq_interpret hsorted rfl rfl hregister forest_identified hcontains
    refine ⟨r, handle, rfl, hget, ?_⟩
    rw [(hfollow none _).1 3]
    exact interpret_forest

end Registry
end Rulebook
