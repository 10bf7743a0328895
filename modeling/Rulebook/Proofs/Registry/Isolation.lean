import Rulebook.Proofs.Compilation.Origin
import Rulebook.Proofs.Registry.Guard
import Rulebook.Proofs.Value.Ordered

/-!
# Schemas that a batch does not reach

A batch binds the links of its own names and of rules that are new.  So a schema
from which no name of the batch is reached does afterwards what it did before,
also where rules of the batch share programs with it.
-/

namespace Rulebook
namespace Registry

open Source

variable {r r' : Registry} {depth : Nat} {submitted batch : Entries Value}
  {options : Options} {st : Staging}

/-! ## Origins -/

/-- Where every batch was compiled from a source in order, the registry is sound, and its
programs have an origin, with respect to such sources. -/
theorem ReachableBy.sound_published {meets : Registry → Entries Value → Options → Prop}
    {good : Source → Prop}
    (hgood : ∀ q submitted options, ReachableBy meets q → meets q submitted options →
      good (q.source (prepare submitted options) options)) (h : ReachableBy meets r) :
    r.Sound good ∧ r.linkage.Published good := by
  induction h with
  | empty options coercions digest =>
    refine ⟨sound_empty options coercions digest, ?_⟩
    intro k p hk
    cases hk
  | @batch r r' _ submitted options hr hmeets hregister ih =>
    obtain ⟨hsound, hpublished⟩ := ih
    have hsource := hgood r submitted options hr hmeets
    obtain ⟨st, haccepts, rfl⟩ := registerWithin_eq_ok_iff.1 hregister
    refine ⟨hsound.publish hsource haccepts, ?_⟩
    have hstart : ((r.source (prepare submitted options) options).linkage r.start).Published
        good := by
      rw [linkage_start]
      exact hpublished
    have hagrees := hsound.agrees hsource haccepts
    intro k p hk
    rw [hagrees.links]
    exact published_moves hsource (hsound.start _ options) haccepts.moves hstart k p
      (hagrees.subset hk)

/-- Every program of the registry has an origin. -/
theorem Reachable.published (h : r.Reachable) : r.linkage.Published fun _ => True :=
  (ReachableBy.sound_published (fun _ _ _ _ _ => trivial) h).2

/-- Registration changes no coercions. -/
theorem coercions_of_registerWithin {submitted : Entries Value} {options : Options} {r' : Registry}
    (h : r.registerWithin depth (.mapping submitted) options = .ok r') :
    r'.coercions = r.coercions := by
  obtain ⟨st, -, rfl⟩ := registerWithin_eq_ok_iff.1 h
  rfl

/-- All batches were compiled with the coercions that the registry was made with. -/
theorem Reachable.by_coercions (h : r.Reachable) :
    ReachableBy (fun q _ _ => q.coercions = r.coercions) r := by
  induction h with
  | empty options coercions digest => exact .empty options coercions digest
  | @batch q r' _ submitted options hq _ hregister ih =>
    obtain ⟨st, -, rfl⟩ := registerWithin_eq_ok_iff.1 hregister
    exact .batch ih rfl hregister

theorem Reachable.published_coercions (h : r.Reachable) :
    r.linkage.Published fun s => s.coercions = r.coercions :=
  (ReachableBy.sound_published (fun _ _ _ _ hmeets => hmeets) h.by_coercions).2

/-- What a program of the registry calls is the link of a name or of an identity. -/
theorem Reachable.exists_target (h : r.Reachable) {l l' : Link} (hcalls : r.bindings.Calls l l') :
    ∃ a, r.linkage.links.link a = some l' := by
  obtain ⟨p, hp, hmentions⟩ := hcalls
  exact (h.published _ _ (Linkage.mem_of_lookup hp)).mentions hmentions

/-! ## What a batch binds -/

theorem name_start (batch : Entries Value) (options : Options) (n : String) :
    ((r.source batch options).links r.start).name n = Entries.lookup n r.nameLinks :=
  congrArg (fun L => L.links.name n) (linkage_start (r := r) batch options)

theorem rule_start (batch : Entries Value) (options : Options) (i : SchemaId) :
    ((r.source batch options).links r.start).rule i = r.cache.lookup i :=
  congrArg (fun L => L.links.rule i) (linkage_start (r := r) batch options)

/-- A batch binds the links of its own names only. -/
theorem mem_keys_of_staged (hr : r.Sound fun _ => True)
    (haccepts : r.Accepts depth batch options st) {n : String} {l : Link}
    (hl : ((r.source batch options).links st).name n = some l) {p : Program}
    (hp : st.bindings.lookup l.number = some p) : n ∈ Entries.keys batch := by
  obtain ⟨-, hnames, -⟩ := compileBatch_sound trivial (hr.start batch options)
    (ready_start batch options) rfl haccepts.compile
  obtain ⟨v, hmem⟩ := (hnames _ _ (Linkage.mem_of_lookup hp) n l hl rfl).exists_mem
  exact List.mem_map.2 ⟨_, hmem, rfl⟩

/-- A batch binds no link of a name that is not its own. -/
theorem lookup_staged_of_outside (hr : r.Sound fun _ => True)
    (haccepts : r.Accepts depth batch options st) {n : String} {l : Link}
    (hl : Entries.lookup n r.nameLinks = some l) (hn : n ∉ Entries.keys batch) :
    st.bindings.lookup l.number = none := by
  have hl' := haccepts.moves.links_within.name ((name_start batch options n).trans hl)
  cases hp : st.bindings.lookup l.number with
  | none => rfl
  | some p => exact absurd (mem_keys_of_staged hr haccepts hl' hp) hn

/-- A batch leaves the links of identities as they are bound. -/
theorem lookup_published_rule (hr : r.Sound fun _ => True)
    (haccepts : r.Accepts depth batch options st) {i : SchemaId} {l : Link}
    (hl : r.cache.lookup i = some l) :
    (r.publish batch options st).bindings.lookup l.number = r.bindings.lookup l.number := by
  rw [lookup_publish r batch options haccepts.tracked]
  obtain ⟨p, hp, -⟩ | ⟨_, htask, -⟩ := hr.compiled.built (i := i) hl
  · have hkept : (st.bindings ++ r.bindings).lookup l.number = some p :=
      (hr.start batch options).bound_rule_moves trivial haccepts.moves
        ((rule_start batch options i).trans hl) hp
    exact hkept.trans hp.symm
  · cases htask

/-- A batch leaves the links of names that are not its own as they are bound. -/
theorem lookup_published_name (hr : r.Sound fun _ => True)
    (haccepts : r.Accepts depth batch options st) {n : String} {l : Link}
    (hl : Entries.lookup n r.nameLinks = some l) (hn : n ∉ Entries.keys batch) :
    (r.publish batch options st).bindings.lookup l.number = r.bindings.lookup l.number := by
  rw [lookup_publish r batch options haccepts.tracked, List.lookup_append,
    lookup_staged_of_outside hr haccepts hl hn, Option.none_or]

/-- A batch keeps the links that there are. -/
theorem within_publish (hr : r.Sound fun _ => True) (haccepts : r.Accepts depth batch options st) :
    r.linkage.links.Within (r.publish batch options st).linkage.links := by
  rw [links_publish (hr.accepts trivial haccepts), ← linkage_start (r := r) batch options]
  exact haccepts.moves.links_within

/-- Nothing that is reached from a name is bound anew, if no name of the batch is. -/
theorem lookup_publish_of_unreached (hr : r.Reachable) (haccepts : r.Accepts depth batch options st)
    {n : String} {l l' : Link} (hl : Entries.lookup n r.nameLinks = some l)
    (hn : n ∉ Entries.keys batch)
    (hunreached : ∀ m ∈ Entries.keys batch, ∀ k, Entries.lookup m r.nameLinks = some k →
      ¬ Relation.TransGen r.bindings.Calls l k)
    (hreaches : r.bindings.Reaches l l') :
    (r.publish batch options st).bindings.lookup l'.number = r.bindings.lookup l'.number := by
  rcases Relation.reflTransGen_iff_eq_or_transGen.1 hreaches with rfl | htrans
  · exact lookup_published_name hr.sound haccepts hl hn
  · obtain ⟨k, -, hcalls⟩ := Relation.TransGen.tail'_iff.1 htrans
    obtain ⟨a, ha⟩ := hr.exists_target hcalls
    cases a with
    | name m =>
      exact lookup_published_name hr.sound haccepts ha fun hm => hunreached m hm l' ha htrans
    | rule i => exact lookup_published_rule hr.sound haccepts ha

/-! ## Schemas outside a batch -/

theorem get?_eq_some_iff {n : String} {handle : Validator} : r.get? n = some handle ↔
    r.contains n = true ∧ Entries.lookup n r.nameLinks = some handle.link ∧ handle.name = n := by
  rw [get?]
  constructor
  · intro h
    split at h
    · rename_i hcontains
      obtain ⟨l, hl, rfl⟩ := Option.map_eq_some_iff.1 h
      exact ⟨hcontains, hl, rfl⟩
    · cases h
  · rintro ⟨hcontains, hl, rfl⟩
    rw [if_pos hcontains, hl]
    rfl

theorem contains_publish_of_outside {n : String} (hn : n ∉ Entries.keys batch) :
    (r.publish batch options st).contains n = r.contains n := by
  rw [contains, contains, Entries.hasKey, Entries.hasKey, publish]
  dsimp only
  rw [Entries.lookup_overlay_of_not_mem]
  rw [Entries.keys_mapValues]
  exact hn

/-- The handle on a schema outside the batch is the same as before. -/
theorem get?_publish_of_outside (hr : r.Sound fun _ => True)
    (haccepts : r.Accepts depth batch options st) {n : String} {handle : Validator}
    (hget : r.get? n = some handle) (hn : n ∉ Entries.keys batch) :
    (r.publish batch options st).get? n = some handle := by
  obtain ⟨hregistered, hl, rfl⟩ := get?_eq_some_iff.1 hget
  exact get?_eq_some_iff.2 ⟨(contains_publish_of_outside hn).trans hregistered,
    (within_publish hr haccepts).name hl, rfl⟩

/-- A schema outside a batch from which no name of the batch is reached keeps its
handle and its identity, and checks every value as it did before. -/
theorem validate_of_unreached (hr : r.Reachable)
    (hregister : r.registerWithin depth (.mapping submitted) options = .ok r') {n : String}
    {handle : Validator} (hget : r.get? n = some handle) (hn : n ∉ Entries.keys submitted)
    (hunreached : ∀ m ∈ Entries.keys submitted, ∀ l, Entries.lookup m r.nameLinks = some l →
      ¬ Relation.TransGen r.bindings.Calls handle.link l) :
    r'.get? n = some handle ∧ r'.identity? handle = r.identity? handle ∧
      ∀ context v, r'.validate handle v context = r.validate handle v context ∧
        ∀ depth, follow r'.bindings context depth [] handle.link v =
          follow r.bindings context depth [] handle.link v := by
  obtain ⟨st, haccepts, rfl⟩ := registerWithin_eq_ok_iff.1 hregister
  have hkeys : Entries.keys submitted = Entries.keys (prepare submitted options) :=
    (Entries.keys_mapValues _ _).symm
  rw [hkeys] at hn hunreached
  obtain ⟨-, hl, -⟩ := get?_eq_some_iff.1 hget
  have hbound : ∀ l, r.bindings.Reaches handle.link l →
      (r.publish (prepare submitted options) options st).bindings.lookup l.number =
        r.bindings.lookup l.number := fun _ hreaches =>
    lookup_publish_of_unreached hr haccepts hl hn hunreached hreaches
  have hfollow : ∀ context v depth,
      follow (r.publish (prepare submitted options) options st).bindings context depth []
          handle.link v =
        follow r.bindings context depth [] handle.link v := fun context v depth =>
    follow_congr context depth [] hbound v
  refine ⟨get?_publish_of_outside hr.sound haccepts hget hn, ?_, fun context v => ⟨?_, ?_⟩⟩
  · exact congrArg (Option.map Program.id) (hbound _ .refl)
  · exact congrArg ExceptT.run (hfollow context v depthLimit)
  · exact hfollow context v

/-- Rules for nested mappings and for lists of words, where no rule for words is
there yet. -/
def sentenceRules : Entries Value :=
  [("nesting", nestingRule), ("sentence", .mapping [("type", .text "list"), ("values", .text "word")])]

/-- A registry in which a rule names one that is not registered. -/
@[irreducible]
def sentences : Registry :=
  ((Registry.empty unchecked ⟨[]⟩ id).register (.mapping sentenceRules)).toOption.getD
    (Registry.empty unchecked ⟨[]⟩ id)

set_option maxRecDepth 100000 in
theorem register_sentences : ((Registry.empty unchecked ⟨[]⟩ id).register
    (.mapping sentenceRules)).toBool = true := by
  decide +kernel

theorem sentences_reachable : sentences.Reachable := by
  have hregister : (Registry.empty unchecked ⟨[]⟩ id).register (.mapping sentenceRules) =
      .ok sentences := by
    unfold sentences
    exact eq_ok_of_toBool register_sentences _
  exact .batch (.empty _ _ _) trivial hregister

/-- A rule for words, and once more the rule for nested mappings. -/
def wordRules : Entries Value := [("copy", nestingRule), ("word", .mapping [("type", .text "str")])]

set_option maxRecDepth 100000 in
/-- The rule for nested mappings calls only itself. -/
theorem calls_nesting {l : Link} (h : sentences.bindings.Calls ⟨0, "nesting"⟩ l) :
    l = ⟨0, "nesting"⟩ := by
  obtain ⟨p, hp, step, hstep, hcallee⟩ := h
  have hcallees : (sentences.bindings.lookup 0).map (fun p => p.steps.flatMap Step.callees) =
      some [.link ⟨0, "nesting"⟩] := by
    decide +kernel
  rw [hp, Option.map_some] at hcallees
  have hmem := List.mem_flatMap.2 ⟨step, hstep, hcallee⟩
  rw [Option.some.inj hcallees] at hmem
  exact Callee.link.inj (List.mem_singleton.1 hmem)

theorem reached_nesting {l : Link}
    (h : Relation.TransGen sentences.bindings.Calls ⟨0, "nesting"⟩ l) : l = ⟨0, "nesting"⟩ := by
  induction h with
  | single hcalls => exact calls_nesting hcalls
  | tail _ hcalls ih =>
    rw [ih] at hcalls
    exact calls_nesting hcalls

set_option maxRecDepth 100000 in
/-- A rule for words does not change what is said of nested mappings. -/
theorem validate_nesting_of_words : ∃ r,
    sentences.registerWith (.mapping wordRules) unchecked = .ok r ∧
      r.get? "nesting" = some ⟨"nesting", ⟨0, "nesting"⟩⟩ ∧
      ∀ v, r.validate ⟨"nesting", ⟨0, "nesting"⟩⟩ v none =
        sentences.validate ⟨"nesting", ⟨0, "nesting"⟩⟩ v none := by
  have hok : (sentences.registerWith (.mapping wordRules) unchecked).toBool = true := by
    decide +kernel
  have hget : sentences.get? "nesting" = some ⟨"nesting", ⟨0, "nesting"⟩⟩ :=
    get?_eq_some_iff.2 ⟨by decide +kernel, by decide +kernel, rfl⟩
  have hlinks : ∀ m ∈ Entries.keys wordRules,
      Entries.lookup m sentences.nameLinks ≠ some ⟨0, "nesting"⟩ := by
    decide +kernel
  have hregister := eq_ok_of_toBool hok sentences
  obtain ⟨hget', -, hvalidate⟩ := validate_of_unreached sentences_reachable hregister hget
    (by decide) fun m hm l hl hreached => by
      rw [reached_nesting hreached] at hl
      exact hlinks m hm hl
  exact ⟨_, hregister, hget', fun v => (hvalidate none v).1⟩

end Registry
end Rulebook
