import Rulebook.Proofs.Evaluation.Order
import Rulebook.Proofs.Rule.Reading
import Rulebook.Proofs.Sorting

/-!
# The stages of a rule

The stages of a rule are its steps before anything is linked: what they call are
the rules inside the rule, as they are written.  They are a function of the rule,
of the options in force inside it, and of two things about each inner rule, what
it says about an entry that holds it and whether it passes everything.

Rules that differ in their inner rules only have stages that differ in what they
call only.
-/

namespace Rulebook

/-- What the stages of a rule need to know about the rules inside it. -/
structure Outlook where
  /-- What a rule says about an entry that holds it. -/
  terms : Value → EntryTerms
  /-- Whether a rule is empty. -/
  passes : Value → Bool

namespace Rule

/-- The rules inside a rule. -/
def subRules (r : Rule) : List Value :=
  (r.items.getD []).map (·.2) ++ (r.patternItems.getD []).map (·.2) ++ r.keys.toList ++
    r.values.toList ++ r.anyOf.getD [] ++ r.oneOf.getD []

/-- Something holds of the rules inside a rule if it does under each of the features that
have rules. -/
theorem forall_mem_subRules {r : Rule} {P : Value → Prop} : (∀ v ∈ r.subRules, P v) ↔
    (∀ v ∈ (r.items.getD []).map (·.2), P v) ∧
      (∀ v ∈ (r.patternItems.getD []).map (·.2), P v) ∧ (∀ v ∈ r.keys.toList, P v) ∧
      (∀ v ∈ r.values.toList, P v) ∧ (∀ v ∈ r.anyOf.getD [], P v) ∧
      ∀ v ∈ r.oneOf.getD [], P v := by
  simp only [subRules, List.forall_mem_append, and_assoc]

/-- An entry of `pattern_items`, if its pattern can be read. -/
def patternOf? (look : Outlook) (e : String × Value) : Option (PatternEntry Value) :=
  (Pattern.ofSource? .estimate e.1).map fun p => ⟨p, (look.terms e.2).rename, e.2⟩

/-- The stage for the members of containers. -/
def structure? (r : Rule) (look : Outlook) (options : Options) : Option (Structure Value) :=
  let openRule := r.openRule (r.keys.filter fun v => !look.passes v) r.values
  let sequence := r.sequenceItems openRule
  if r.kind = some .list then some ⟨none, sequence⟩
  else do
    let patterns ← (r.patternItems.getD []).mapM (patternOf? look)
    let entries := (r.items.getD []).map fun e =>
      Entry.ofTerms e.1 (look.terms e.2) e.2 options.requireAll
    pure ⟨some (MappingItems.make entries patterns openRule options.unknownKeys),
      sequence⟩

/-- The stage that a feature adds, if the rule has it. -/
def stageOf {α γ : Type} (argument : Option α) (make : α → Option (Step γ)) :
    Option (List (Step γ)) :=
  match argument with
  | none => some []
  | some a => (make a).map fun s => [s]

/-- The stage that ends at null. -/
def nullableStage (r : Rule) (coercions : CoercionTable) : Option (List (Step Value)) :=
  if r.nullable || r.ifNull.isSome then
    match r.postCoerce with
    | some name =>
        (coercions.resolve? name).map fun c => [.check (.nullable r.ifNull (some c))]
    | none => some [.check (.nullable r.ifNull none)]
  else some []

/-- The stage for the members of containers, if the rule says something about
them. -/
def memberStage (r : Rule) (look : Outlook) (options : Options) : Option (List (Step Value)) :=
  if r.hasStructure then (r.structure? look options).map fun s => [.members s]
  else some []

/-- The stages of a rule in their order, if its coercions, patterns and tables can
be read. -/
def stages (r : Rule) (coercions : CoercionTable) (look : Outlook) (options : Options) :
    Option (List (Step Value)) := do
  let nullable ← r.nullableStage coercions
  let kind := (r.kind.map fun k => Step.check (.kind k)).toList
  let coerce ← stageOf r.coerce fun name =>
    (coercions.resolve? name).map fun c => .check (.coerce c)
  let regex ← stageOf r.regex fun source =>
    (Pattern.ofSource? .estimate source).map fun p => .check (.pattern p)
  let members ← r.memberStage look options
  let remap ← stageOf r.remap fun table =>
    (Remap.ofValue table).toOption.map fun t => .check (.remap t)
  let anyOf ← stageOf r.anyOf fun rules => some (.anyOf rules)
  let oneOf ← stageOf r.oneOf fun rules => some (.oneOf rules)
  let postCoerce ← stageOf r.postCoerce fun name =>
    (coercions.resolve? name).map fun c => .check (.postCoerce c)
  pure (nullable ++ kind ++ coerce ++ regex ++ members ++ remap ++ r.bounds.map Step.check ++
    anyOf ++ oneOf ++ postCoerce)

/-! ## The kinds of stages -/

/-- The stages that come before the one for the members of containers. -/
inductive Opening (r : Rule) (coercions : CoercionTable) : Step Value → Prop where
  | nullable {post : Option Coercer}
      (hpost : Option.Rel (fun name c => coercions.resolve? name = some c) r.postCoerce post) :
      Opening r coercions (.check (.nullable r.ifNull post))
  | kind {k : Kind} (hk : r.kind = some k) : Opening r coercions (.check (.kind k))
  | coerce {name : String} {c : Coercer} (hname : r.coerce = some name)
      (hc : coercions.resolve? name = some c) : Opening r coercions (.check (.coerce c))
  | pattern {source : String} {p : Pattern} (hsource : r.regex = some source)
      (hp : Pattern.ofSource? .estimate source = some p) :
      Opening r coercions (.check (.pattern p))

/-- The stages that come after it. -/
inductive Closing (r : Rule) (coercions : CoercionTable) : Step Value → Prop where
  | remap {table : Value} {t : Remap} (htable : r.remap = some table)
      (ht : (Remap.ofValue table).toOption = some t) : Closing r coercions (.check (.remap t))
  | bound {c : Check} (hc : c ∈ r.bounds) : Closing r coercions (.check c)
  | anyOf {rules : List Value} (hrules : r.anyOf = some rules) :
      Closing r coercions (.anyOf rules)
  | oneOf {rules : List Value} (hrules : r.oneOf = some rules) :
      Closing r coercions (.oneOf rules)
  | postCoerce {name : String} {c : Coercer} (hname : r.postCoerce = some name)
      (hc : coercions.resolve? name = some c) : Closing r coercions (.check (.postCoerce c))

section

variable {α β γ : Type} {r : Rule} {coercions : CoercionTable} {look : Outlook} {options : Options}

theorem of_mem_stageOf {argument : Option α} {make : α → Option (Step γ)} {ss : List (Step γ)}
    (h : stageOf argument make = some ss) {step : Step γ} (hmem : step ∈ ss) :
    ∃ a, argument = some a ∧ make a = some step := by
  cases argument with
  | none =>
    cases h
    cases hmem
  | some a =>
    obtain ⟨step', hmake, rfl⟩ := Option.map_eq_some_iff.1 h
    rw [List.mem_singleton.1 hmem]
    exact ⟨a, rfl, hmake⟩

theorem check_of_mem_stageOf {argument : Option α} {resolve : α → Option β} {make : β → Check}
    {ss : List (Step γ)}
    (h : stageOf argument (fun a => (resolve a).map fun b => .check (make b)) = some ss)
    {step : Step γ} (hmem : step ∈ ss) :
    ∃ a b, argument = some a ∧ resolve a = some b ∧ step = .check (make b) := by
  obtain ⟨a, ha, hmake⟩ := of_mem_stageOf h hmem
  obtain ⟨b, hb, rfl⟩ := Option.map_eq_some_iff.1 hmake
  exact ⟨a, b, ha, hb, rfl⟩

theorem opening_of_mem_nullableStage {ss : List (Step Value)}
    (h : r.nullableStage coercions = some ss) {step : Step Value} (hmem : step ∈ ss) :
    r.Opening coercions step := by
  rw [nullableStage] at h
  split at h
  · split at h
    · rename_i name hname
      obtain ⟨c, hc, rfl⟩ := Option.map_eq_some_iff.1 h
      rw [List.mem_singleton.1 hmem]
      apply Opening.nullable
      rw [hname]
      exact .some hc
    · rename_i hname
      cases h
      rw [List.mem_singleton.1 hmem]
      apply Opening.nullable
      rw [hname]
      exact .none
  · cases h
    cases hmem

theorem of_mem_memberStage {ss : List (Step Value)} (h : r.memberStage look options = some ss)
    {step : Step Value} (hmem : step ∈ ss) :
    ∃ st, r.structure? look options = some st ∧ ss = [.members st] ∧ step = .members st := by
  rw [memberStage] at h
  split at h
  · obtain ⟨st, hst, rfl⟩ := Option.map_eq_some_iff.1 h
    exact ⟨st, hst, rfl, List.mem_singleton.1 hmem⟩
  · cases h
    cases hmem

/-- The stage for the members of containers, if there is one, comes between the stages of
the two kinds. -/
theorem split_of_stages {plan : List (Step Value)}
    (h : r.stages coercions look options = some plan) :
    ∃ before members after, plan = before ++ members ++ after ∧
      (∀ step ∈ before, r.Opening coercions step) ∧
      r.memberStage look options = some members ∧
      ∀ step ∈ after, r.Closing coercions step := by
  simp only [stages, Option.bind_eq_bind, Option.bind_eq_some_iff] at h
  obtain ⟨nullable, hnullable, coerce, hcoerce, regex, hregex, members, hmembers, remap, hremap,
    anyOf, hanyOf, oneOf, honeOf, postCoerce, hpostCoerce, h⟩ := h
  refine ⟨nullable ++ (r.kind.map fun k => Step.check (.kind k)).toList ++ coerce ++ regex, members,
    remap ++ r.bounds.map Step.check ++ anyOf ++ oneOf ++ postCoerce, ?_, ?_, hmembers, ?_⟩
  · rw [← Option.some.inj h]
    simp only [List.append_assoc]
  · intro step hmem
    simp only [List.mem_append] at hmem
    rcases hmem with ((hmem | hmem) | hmem) | hmem
    · exact opening_of_mem_nullableStage hnullable hmem
    · obtain ⟨k, hk, rfl⟩ := Option.map_eq_some_iff.1 (Option.mem_toList.1 hmem)
      exact .kind hk
    · obtain ⟨name, c, hname, hc, rfl⟩ := check_of_mem_stageOf hcoerce hmem
      exact .coerce hname hc
    · obtain ⟨source, p, hsource, hp, rfl⟩ := check_of_mem_stageOf hregex hmem
      exact .pattern hsource hp
  · intro step hmem
    simp only [List.mem_append] at hmem
    rcases hmem with (((hmem | hmem) | hmem) | hmem) | hmem
    · obtain ⟨table, t, htable, ht, rfl⟩ := check_of_mem_stageOf hremap hmem
      exact .remap htable ht
    · obtain ⟨c, hc, rfl⟩ := List.mem_map.1 hmem
      exact .bound hc
    · obtain ⟨rules, hrules, hmake⟩ := of_mem_stageOf hanyOf hmem
      rw [← Option.some.inj hmake]
      exact .anyOf hrules
    · obtain ⟨rules, hrules, hmake⟩ := of_mem_stageOf honeOf hmem
      rw [← Option.some.inj hmake]
      exact .oneOf hrules
    · obtain ⟨name, c, hname, hc, rfl⟩ := check_of_mem_stageOf hpostCoerce hmem
      exact .postCoerce hname hc

/-- A stage is of one of the two kinds, or it is the one for the members of containers. -/
theorem of_mem_stages {plan : List (Step Value)}
    (h : r.stages coercions look options = some plan) {step : Step Value} (hmem : step ∈ plan) :
    r.Opening coercions step ∨
      (∃ st, r.structure? look options = some st ∧ step = .members st) ∨
      r.Closing coercions step := by
  obtain ⟨before, members, after, rfl, hbefore, hmembers, hafter⟩ := split_of_stages h
  rcases List.mem_append.1 hmem with hmem | hmem
  · rcases List.mem_append.1 hmem with hmem | hmem
    · exact Or.inl (hbefore _ hmem)
    · obtain ⟨st, hst, -, heq⟩ := of_mem_memberStage hmembers hmem
      exact Or.inr (Or.inl ⟨st, hst, heq⟩)
  · exact Or.inr (Or.inr (hafter _ hmem))

/-- No stage hands a value over to a whole other rule. -/
theorem ne_refer_of_mem_stages {plan : List (Step Value)}
    (h : r.stages coercions look options = some plan) {step : Step Value} (hmem : step ∈ plan)
    (w : Value) : step ≠ .refer w := by
  rintro rfl
  rcases of_mem_stages h hmem with hopening | ⟨st, -, heq⟩ | hclosing
  · cases hopening
  · cases heq
  · cases hclosing

end

/-! ## Rules that differ in their inner rules -/

/-- A rule without the rules inside it. -/
def bare (r : Rule) : Rule :=
  { r with
    items := none, patternItems := none, keys := none, values := none
    anyOf := none, oneOf := none }

/-- Rules that differ only in the rules inside them: those of entries are related
by `E` and all others by `Q`. -/
structure Rel (E Q : Value → Value → Prop) (r r' : Rule) : Prop where
  bare : r.bare = r'.bare
  items : Option.Rel (List.Forall₂ fun e f => e.1 = f.1 ∧ E e.2 f.2) r.items r'.items
  patternItems : Option.Rel (List.Forall₂ fun e f => e.1 = f.1 ∧ E e.2 f.2)
    r.patternItems r'.patternItems
  keys : Option.Rel Q r.keys r'.keys
  values : Option.Rel Q r.values r'.values
  anyOf : Option.Rel (List.Forall₂ Q) r.anyOf r'.anyOf
  oneOf : Option.Rel (List.Forall₂ Q) r.oneOf r'.oneOf

theorem forall₂_and_mem {α β : Type} {R : α → β → Prop} {as : List α} {bs : List β}
    (h : List.Forall₂ R as bs) : List.Forall₂ (fun a b => R a b ∧ b ∈ bs) as bs := by
  have hmem : ∀ {as bs'}, List.Forall₂ R as bs' → bs' ⊆ bs →
      List.Forall₂ (fun a b => R a b ∧ b ∈ bs) as bs' := by
    intro as bs' hab hsub
    induction hab with
    | nil => exact .nil
    | cons hR _ ih =>
      obtain ⟨hhead, htail⟩ := List.cons_subset.1 hsub
      exact .cons ⟨hR, hhead⟩ (ih htail)
  exact hmem h (List.Subset.refl _)

/-- The rules inside related rules are related as rules inside these. -/
theorem Rel.and_mem {E Q : Value → Value → Prop} {r r' : Rule} (h : Rel E Q r r') :
    Rel (fun v w => E v w ∧ w ∈ r'.subRules) (fun v w => Q v w ∧ w ∈ r'.subRules) r r' := by
  have hentries : ∀ {x y : Option (Entries Value)},
      Option.Rel (List.Forall₂ fun e f => e.1 = f.1 ∧ E e.2 f.2) x y →
      (∀ f ∈ y.getD [], f.2 ∈ r'.subRules) →
      Option.Rel (List.Forall₂ fun e f => e.1 = f.1 ∧ E e.2 f.2 ∧ f.2 ∈ r'.subRules) x y := by
    intro x y hxy hsub
    cases hxy with
    | none => exact .none
    | some hef =>
      exact .some ((forall₂_and_mem hef).imp fun e f ⟨⟨hkey, hE⟩, hmem⟩ =>
        ⟨hkey, hE, hsub f hmem⟩)
  have hbranches : ∀ {x y : Option (List Value)}, Option.Rel (List.Forall₂ Q) x y →
      (∀ w ∈ y.getD [], w ∈ r'.subRules) →
      Option.Rel (List.Forall₂ fun v w => Q v w ∧ w ∈ r'.subRules) x y := by
    intro x y hxy hsub
    cases hxy with
    | none => exact .none
    | some hvs =>
      exact .some ((forall₂_and_mem hvs).imp fun v w ⟨hQ, hmem⟩ => ⟨hQ, hsub w hmem⟩)
  have hargument : ∀ {x y : Option Value}, Option.Rel Q x y → (∀ w ∈ y, w ∈ r'.subRules) →
      Option.Rel (fun v w => Q v w ∧ w ∈ r'.subRules) x y := by
    intro x y hxy hsub
    cases hxy with
    | none => exact .none
    | some hQ => exact .some ⟨hQ, hsub _ rfl⟩
  obtain ⟨hitems, hpatternItems, hkeys, hvalues, hanyOf, honeOf⟩ :=
    forall_mem_subRules.1 fun w (hw : w ∈ r'.subRules) => hw
  refine ⟨h.bare, hentries h.items ?_, hentries h.patternItems ?_, hargument h.keys ?_,
    hargument h.values ?_, hbranches h.anyOf hanyOf, hbranches h.oneOf honeOf⟩
  · exact fun f hf => hitems _ (List.mem_map_of_mem hf)
  · exact fun f hf => hpatternItems _ (List.mem_map_of_mem hf)
  · exact fun w hw => hkeys w (Option.mem_toList.2 hw)
  · exact fun w hw => hvalues w (Option.mem_toList.2 hw)

section

variable {E Q : Value → Value → Prop} {r r' : Rule} {look look' : Outlook}
  {options options' : Options}

theorem bind_rel {α β γ δ : Type} {R : α → β → Prop} {S : γ → δ → Prop} {x : Option α}
    {y : Option β} {f : α → Option γ} {g : β → Option δ} (hxy : Option.Rel R x y)
    (hfg : ∀ a b, R a b → Option.Rel S (f a) (g b)) : Option.Rel S (x >>= f) (y >>= g) := by
  cases hxy with
  | none => exact .none
  | some hab => exact hfg _ _ hab

theorem map_rel {α β γ δ : Type} {R : α → β → Prop} {S : γ → δ → Prop} {x : Option α}
    {y : Option β} {f : α → γ} {g : β → δ} (hxy : Option.Rel R x y)
    (hfg : ∀ a b, R a b → S (f a) (g b)) : Option.Rel S (x.map f) (y.map g) := by
  cases hxy with
  | none => exact .none
  | some hab => exact .some (hfg _ _ hab)

theorem mapM_rel {α β γ δ : Type} {R : α → β → Prop} {S : γ → δ → Prop} {f : α → Option γ}
    {g : β → Option δ} (hfg : ∀ a b, R a b → Option.Rel S (f a) (g b)) {as : List α}
    {bs : List β} (h : List.Forall₂ R as bs) :
    Option.Rel (List.Forall₂ S) (as.mapM f) (bs.mapM g) := by
  induction h with
  | nil => exact .some .nil
  | cons hab _ ih =>
    rw [List.mapM_cons, List.mapM_cons]
    exact bind_rel (hfg _ _ hab) fun c d hcd => bind_rel ih fun cs ds hcs => .some (.cons hcd hcs)

theorem getD_nil_rel {α β : Type} {R : α → β → Prop} {x : Option (List α)} {y : Option (List β)}
    (h : Option.Rel (List.Forall₂ R) x y) : List.Forall₂ R (x.getD []) (y.getD []) := by
  cases h with
  | none => exact .nil
  | some h => exact h

theorem isSome_eq {α β : Type} {R : α → β → Prop} {x : Option α} {y : Option β}
    (h : Option.Rel R x y) : x.isSome = y.isSome := by
  cases h <;> rfl

/-- What depends on the rest of a rule only is the same. -/
theorem Rel.field {α : Type} (h : Rel E Q r r') (f : Rule → α) (hf : ∀ r : Rule, f r.bare = f r) :
    f r = f r' := by
  rw [← hf r, ← hf r', h.bare]

theorem openRule_rel {γ δ : Type} {R : γ → δ → Prop} (hkeys : r.keys.isSome = r'.keys.isSome)
    (hvalues : r.values.isSome = r'.values.isSome) {k v : Option γ} {k' v' : Option δ}
    (hk : Option.Rel R k k') (hv : Option.Rel R v v') :
    Option.Rel (OpenRule.Rel R) (r.openRule k v) (r'.openRule k' v') := by
  rw [openRule, openRule, hkeys, hvalues]
  split
  · exact .some ⟨hk, hv⟩
  · exact .none

theorem sequenceItems_rel {γ δ : Type} {R : γ → δ → Prop}
    (hchecks : r.checksLists = r'.checksLists) {o : Option (OpenRule γ)}
    {p : Option (OpenRule δ)} (hop : Option.Rel (OpenRule.Rel R) o p) :
    Option.Rel (fun a b => OpenRule.Rel R a.openRule b.openRule) (r.sequenceItems o)
      (r'.sequenceItems p) := by
  rw [sequenceItems, sequenceItems, hchecks]
  split
  · refine .some ?_
    cases hop with
    | none => exact ⟨.none, .none⟩
    | some hop => exact hop
  · exact .none

/-- Rules for keys that correspond to each other are left out alike. -/
theorem filter_rel {γ δ : Type} {R : γ → δ → Prop} {x : Option γ} {y : Option δ}
    {f : γ → Bool} {g : δ → Bool} (hxy : Option.Rel R x y) (hfg : ∀ c d, R c d → f c = g d) :
    Option.Rel R (x.filter f) (y.filter g) := by
  cases hxy with
  | none => exact .none
  | some hR =>
    rw [Option.filter_some, Option.filter_some, hfg _ _ hR]
    split
    · exact .some hR
    · exact .none

theorem checksLists_eq (h : Rel E Q r r') : r.checksLists = r'.checksLists := by
  have hkind : r.kind = r'.kind := h.field Rule.kind fun _ => rfl
  rw [checksLists, checksLists, hkind, isSome_eq h.keys, isSome_eq h.values]

theorem hasStructure_eq (h : Rel E Q r r') : r.hasStructure = r'.hasStructure := by
  rw [hasStructure, hasStructure, isSome_eq h.items, isSome_eq h.patternItems, isSome_eq h.keys,
    isSome_eq h.values]

/-- Entries and patterns that correspond to each other are put in order alike. -/
theorem make_rel {γ δ : Type} {R : γ → δ → Prop} {es : List (Entry γ)} {fs : List (Entry δ)}
    (hentries : List.Forall₂ (Entry.Rel R) es fs) {ps : List (PatternEntry γ)}
    {qs : List (PatternEntry δ)} (hpatterns : List.Forall₂ (PatternEntry.Rel R) ps qs)
    {o : Option (OpenRule γ)} {p : Option (OpenRule δ)}
    (hopen : Option.Rel (OpenRule.Rel R) o p) (policy : UnknownKeys) :
    MappingItems.Rel R (MappingItems.make es ps o policy) (MappingItems.make fs qs p policy) where
  entries := by
    refine Sorting.forall₂_sort (fun a b a' b' ha hb => ?_) hentries
    rw [ha.key, hb.key]
  patterns := by
    refine Sorting.forall₂_sort (fun a b a' b' ha hb => ?_) hpatterns
    rw [MappingItems.patternBefore, MappingItems.patternBefore, ha.pattern, hb.pattern]
  openRule := hopen
  policy := rfl

variable (h : Rel E Q r r') (hEQ : ∀ v w, E v w → Q v w)
  (hterms : ∀ v w, E v w → look.terms v = look'.terms w)
  (hpasses : ∀ v w, Q v w → look.passes v = look'.passes w)
  (hrequire : options.requireAll = options'.requireAll)
  (hunknown : options.unknownKeys = options'.unknownKeys)
include h hEQ hterms hpasses hrequire hunknown

theorem structure?_rel :
    Option.Rel (Structure.Rel Q) (r.structure? look options) (r'.structure? look' options') := by
  have hkind : r.kind = r'.kind := h.field Rule.kind fun _ => rfl
  have hopen : Option.Rel (OpenRule.Rel Q)
      (r.openRule (r.keys.filter fun v => !look.passes v) r.values)
      (r'.openRule (r'.keys.filter fun v => !look'.passes v) r'.values) := by
    refine openRule_rel (isSome_eq h.keys) (isSome_eq h.values) ?_ h.values
    exact filter_rel h.keys fun v w hvw => by rw [hpasses v w hvw]
  have hsequence := sequenceItems_rel (checksLists_eq h) hopen
  rw [structure?, structure?, hkind]
  dsimp only
  split
  · exact .some ⟨.none, hsequence⟩
  · have hpatterns : Option.Rel (List.Forall₂ (PatternEntry.Rel Q))
        ((r.patternItems.getD []).mapM (patternOf? look))
        ((r'.patternItems.getD []).mapM (patternOf? look')) := by
      refine mapM_rel (fun e f hef => ?_) (getD_nil_rel h.patternItems)
      rw [patternOf?, patternOf?, hef.1]
      refine map_rel (R := Eq) (Step.Rel.optionRefl (fun _ => rfl) _) fun p q hpq => ?_
      exact ⟨hpq, by rw [hterms _ _ hef.2], hEQ _ _ hef.2⟩
    refine bind_rel hpatterns fun ps qs hpq => .some ⟨.some ?_, hsequence⟩
    rw [hunknown]
    refine make_rel ?_ hpq hopen _
    rw [List.forall₂_map_left_iff, List.forall₂_map_right_iff]
    refine (getD_nil_rel h.items).imp fun e f hef => ?_
    rw [hef.1, hterms _ _ hef.2, hrequire]
    exact ⟨rfl, rfl, rfl, hEQ _ _ hef.2, rfl, rfl⟩

theorem memberStage_rel :
    Option.Rel (List.Forall₂ (Step.Rel Q)) (r.memberStage look options)
      (r'.memberStage look' options') := by
  rw [memberStage, memberStage, hasStructure_eq h]
  split
  · exact map_rel (structure?_rel h hEQ hterms hpasses hrequire hunknown)
      fun s t hst => .cons (.members hst) .nil
  · exact .some .nil

omit h hEQ hterms hpasses hrequire hunknown in
theorem stageOf_rel {α : Type} {argument : Option α} {make make' : α → Option (Step Value)}
    (hmake : ∀ a, Option.Rel (Step.Rel Q) (make a) (make' a)) :
    Option.Rel (List.Forall₂ (Step.Rel Q)) (stageOf argument make) (stageOf argument make') := by
  cases argument with
  | none => exact .some .nil
  | some a => exact map_rel (hmake a) fun s t hst => .cons hst .nil

omit h hEQ hterms hpasses hrequire hunknown in
theorem checks_rel {α : Type} (x : Option α) (make : α → Check) :
    Option.Rel (Step.Rel Q) (x.map fun a => Step.check (make a))
      (x.map fun a => Step.check (make a)) := by
  cases x with
  | none => exact .none
  | some a => exact .some (.check _)

omit h hEQ hterms hpasses hrequire hunknown in
theorem checkList_rel {γ δ : Type} {R : γ → δ → Prop} (cs : List Check) :
    List.Forall₂ (Step.Rel R) (cs.map Step.check) (cs.map Step.check) := by
  rw [List.forall₂_map_left_iff, List.forall₂_map_right_iff]
  exact List.forall₂_same.2 fun c _ => .check c

omit h hEQ hterms hpasses hrequire hunknown in
theorem kindStage_rel {γ δ : Type} {R : γ → δ → Prop} (kind : Option Kind) :
    List.Forall₂ (Step.Rel R) (kind.map fun k => Step.check (.kind k)).toList
      (kind.map fun k => Step.check (.kind k)).toList := by
  cases kind with
  | none => exact .nil
  | some k => exact .cons (.check _) .nil

omit hEQ hterms hpasses hrequire hunknown in
theorem nullableStage_rel (coercions : CoercionTable) :
    Option.Rel (List.Forall₂ (Step.Rel Q)) (r.nullableStage coercions)
      (r'.nullableStage coercions) := by
  have hnullable : r.nullable = r'.nullable := h.field Rule.nullable fun _ => rfl
  have hifNull : r.ifNull = r'.ifNull := h.field Rule.ifNull fun _ => rfl
  have hpost : r.postCoerce = r'.postCoerce := h.field Rule.postCoerce fun _ => rfl
  rw [nullableStage, nullableStage, hnullable, hifNull, hpost]
  split
  · split
    · exact map_rel (R := Eq) (Step.Rel.optionRefl (fun _ => rfl) _)
        fun c d hcd => .cons (hcd ▸ .check _) .nil
    · exact .some (.cons (.check _) .nil)
  · exact .some .nil

/-- Rules that differ in their inner rules have stages that differ in what they
call. -/
theorem stages_rel (coercions : CoercionTable) :
    Option.Rel (List.Forall₂ (Step.Rel Q)) (r.stages coercions look options)
      (r'.stages coercions look' options') := by
  have hkind : r.kind = r'.kind := h.field Rule.kind fun _ => rfl
  have hcoerce : r.coerce = r'.coerce := h.field Rule.coerce fun _ => rfl
  have hregex : r.regex = r'.regex := h.field Rule.regex fun _ => rfl
  have hremap : r.remap = r'.remap := h.field Rule.remap fun _ => rfl
  have hpost : r.postCoerce = r'.postCoerce := h.field Rule.postCoerce fun _ => rfl
  have hbounds : r.bounds = r'.bounds := h.field Rule.bounds fun _ => rfl
  have hbranches {x y : Option (List Value)} {make : List Value → Step Value}
      (hxy : Option.Rel (List.Forall₂ Q) x y)
      (hmake : ∀ vs ws, List.Forall₂ Q vs ws → Step.Rel Q (make vs) (make ws)) :
      Option.Rel (List.Forall₂ (Step.Rel Q)) (stageOf x fun vs => some (make vs))
        (stageOf y fun vs => some (make vs)) := by
    cases hxy with
    | none => exact .some .nil
    | some hvs => exact .some (.cons (hmake _ _ hvs) .nil)
  rw [stages, stages, hkind, hcoerce, hregex, hremap, hpost, hbounds]
  refine bind_rel (nullableStage_rel h coercions) fun _ _ hnullable => ?_
  refine bind_rel (stageOf_rel (Q := Q) fun _ => checks_rel _ _) fun _ _ hcoerce => ?_
  refine bind_rel (stageOf_rel (Q := Q) fun _ => checks_rel _ _) fun _ _ hregex => ?_
  refine bind_rel (memberStage_rel h hEQ hterms hpasses hrequire hunknown) fun _ _ hmembers => ?_
  refine bind_rel (stageOf_rel (Q := Q) fun _ => checks_rel _ _) fun _ _ hremap => ?_
  refine bind_rel (hbranches h.anyOf fun _ _ => .anyOf) fun _ _ hanyOf => ?_
  refine bind_rel (hbranches h.oneOf fun _ _ => .oneOf) fun _ _ honeOf => ?_
  refine bind_rel (stageOf_rel (Q := Q) fun _ => checks_rel _ _) fun _ _ hpost => .some ?_
  exact List.rel_append (List.rel_append (List.rel_append (List.rel_append (List.rel_append
    (List.rel_append (List.rel_append (List.rel_append (List.rel_append hnullable
    (kindStage_rel _))
    hcoerce) hregex) hmembers) hremap) (checkList_rel _)) hanyOf) honeOf) hpost

end

end Rule

end Rulebook
