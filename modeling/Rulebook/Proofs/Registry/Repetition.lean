import Rulebook.Proofs.Compilation.Known
import Rulebook.Proofs.Compilation.SameRules
import Rulebook.Proofs.Evaluation.Simulation
import Rulebook.Proofs.Registry.Isolation

/-!
# Registering a batch again

When a batch has been accepted, all its rules are known.  The same batch under the same
options is accepted again, although its rules are now looked up among themselves twice
over: nothing is compiled and no example is tried.  Only the names whose rule is a name
are bound to new programs, which do what the old ones did.
-/

namespace Rulebook

/-- Labels are those of the other linkage if all that is found is. -/
theorem Linkage.Labelled.of_agrees {L M : Linkage} (h : L.Agrees M) (hM : M.Labelled) :
    L.Labelled := by
  intro a l p c ha hp hsteps
  rw [h.links] at ha
  rw [h.lookup] at hp
  exact hM a l p c ha hp hsteps

namespace Registry

open Source

variable {r r' : Registry} {depth : Nat} {submitted batch : Entries Value}
  {options : Options} {st st' : Staging}

/-! ## What histories keep -/

/-- The schemas of a registry are in the order of their names. -/
theorem Reachable.sorted (hr : r.Reachable) : Entries.Sorted r.schemas := by
  induction hr with
  | empty options coercions digest => exact Entries.sorted_nil
  | batch _ _ hregister ih =>
    obtain ⟨st, -, rfl⟩ := registerWithin_eq_ok_iff.1 hregister
    exact Entries.sorted_overlay ih _

/-- A program that only refers to another is bound to the name that it is labelled with. -/
theorem Reachable.labelled (hr : r.Reachable) : r.linkage.Labelled := by
  induction hr with
  | empty options coercions digest =>
    intro a l p c ha
    cases a <;> cases ha
  | @batch r r' _ submitted options hr _ hregister ih =>
    obtain ⟨st, haccepts, rfl⟩ := registerWithin_eq_ok_iff.1 hregister
    have hsound := Reachable.sound hr
    refine .of_agrees (hsound.agrees trivial haccepts) ?_
    refine labelled_moves trivial (hsound.start _ options) haccepts.moves ?_
    rw [linkage_start]
    exact ih

/-! ## The batch is accepted again -/

/-- The names of the batch stand for the same rules when it has been published. -/
theorem sameRules_publish (r : Registry) (hbatch : Entries.Sorted batch) (options : Options)
    (st : Staging) :
    SameRules (r.source batch options) ((r.publish batch options st).source batch options) := by
  intro name
  simp only [Source.lookup, source, publish, Entries.lookup_mapValues,
    Entries.lookup_overlay (Entries.sorted_mapValues hbatch _)]
  cases Entries.lookup name batch <;> rfl

/-- A name of the batch whose rule is a name is published as one that refers to it. -/
theorem published_refer (hr : r.Sound fun _ => True) (hbatch : Entries.Sorted batch)
    (haccepts : r.Accepts depth batch options st) {n m : String} (hmem : (n, .text m) ∈ batch) :
    ∃ l t number, Entries.lookup n (r.publish batch options st).nameLinks = some l ∧
      Entries.lookup m (r.publish batch options st).nameLinks = some t ∧
      (r.publish batch options st).bindings.lookup l.number =
        some ((r.source batch options).aliasProgram n m number t) := by
  have hlinks := links_publish (hr.accepts trivial haccepts)
  obtain ⟨l, t, number, hl, ht, hp⟩ := compileBatch_refer trivial (hr.start batch options)
    (ready_start batch options) rfl haccepts.compile hbatch hmem
  rw [← hlinks] at hl ht
  exact ⟨l, t, number, hl, ht,
    (lookup_publish r batch options haccepts.tracked _).trans hp⟩

/-- Any other name of the batch is published with the program of its rule. -/
theorem published_rule (hr : r.Sound fun _ => True) (hbatch : Entries.Sorted batch)
    (haccepts : r.Accepts depth batch options st) {n : String} {v : Value} (hmem : (n, v) ∈ batch)
    (hv : ∀ m, v ≠ .text m) :
    ∃ flat form l t p, (r.source batch options).Flattens n v flat ∧
      (r.source batch options).form flat n = .ok form ∧
      Entries.lookup n (r.publish batch options st).nameLinks = some l ∧
      (r.publish batch options st).cache.lookup (SchemaId.of r.digest form options) = some t ∧
      (r.publish batch options st).bindings.lookup l.number = some p ∧
      (r.publish batch options st).bindings.lookup t.number = some p := by
  have hlinks := links_publish (hr.accepts trivial haccepts)
  have hlookup := lookup_publish r batch options haccepts.tracked
  obtain ⟨flat, form, l, t, p, hflat, hform, hl, ht, hp, hpt⟩ := compileBatch_rule trivial
    (hr.start batch options) (ready_start batch options) rfl haccepts.compile hbatch hmem hv
  rw [← hlinks] at hl ht
  exact ⟨flat, form, l, t, p, hflat, hform, hl, ht, (hlookup _).trans hp, (hlookup _).trans hpt⟩

/-- When the batch has been published, all its rules are known. -/
theorem known_publish (hr : r.Sound fun _ => True) (hbatch : Entries.Sorted batch)
    (haccepts : r.Accepts depth batch options st) :
    ∀ e ∈ batch, ((r.publish batch options st).source batch options).Known e := by
  have hsame := sameRules_publish r hbatch options st
  rintro ⟨n, v⟩ he
  by_cases hv : ∃ m, v = .text m
  · obtain ⟨m, rfl⟩ := hv
    obtain ⟨l, t, number, hl, ht, -⟩ := published_refer hr hbatch haccepts he
    exact .refer hl ht
  · obtain ⟨flat, form, l, t, p, hflat, hform, hl, ht, -⟩ :=
      published_rule hr hbatch haccepts he fun m hm => hv ⟨m, hm⟩
    exact .rule hl (hsame.flattens hflat) (hsame.form_eq_ok hform) ht

/-- The batch is accepted again, and nothing but programs is staged for it. -/
theorem accepts_again (hr : r.Sound fun _ => True) (hbatch : Entries.Sorted batch)
    (haccepts : r.Accepts depth batch options st) :
    ∃ st', (r.publish batch options st).Accepts depth batch options st' ∧
      Quiet (r.publish batch options st).start st' := by
  have hdone : (r.publish batch options st).start.todo = [] := rfl
  obtain ⟨st', hcompile, hquiet⟩ := compileBatch_quietly
    (s := (r.publish batch options st).source batch options) (known_publish hr hbatch haccepts) hdone
  refine ⟨st', ⟨haccepts.check, hcompile, fun _ => ?_⟩, hquiet⟩
  rw [replay, hquiet.examples]
  rfl

/-! ## What the names are bound to again -/

/-- Publishing programs only leaves the links of names as they are. -/
theorem nameLinks_publish_of_quiet (batch : Entries Value) (options : Options)
    (h : Quiet r.start st) : (r.publish batch options st).nameLinks = r.nameLinks := by
  rw [publish, h.nameLinks]
  rfl

theorem cache_publish_of_quiet (batch : Entries Value) (options : Options)
    (h : Quiet r.start st) : (r.publish batch options st).cache = r.cache := by
  rw [publish, h.cache]
  rfl

/-- Publishing a batch again leaves the schemas as they are. -/
theorem schemas_publish_again (hr : r.Reachable) (hbatch : Entries.Sorted batch)
    (options : Options) (st st' : Staging) :
    ((r.publish batch options st).publish batch options st').schemas =
      (r.publish batch options st).schemas := by
  have hupper := Entries.sorted_mapValues hbatch fun rule => (⟨rule, options⟩ : SchemaEntry)
  have hsorted := Entries.sorted_overlay hr.sorted
    (Entries.mapValues (fun rule => (⟨rule, options⟩ : SchemaEntry)) batch)
  refine Entries.eq_of_lookup_eq (Entries.sorted_overlay hsorted _) hsorted fun n => ?_
  rw [publish, publish, Entries.lookup_overlay hupper, Entries.lookup_overlay hupper]
  cases Entries.lookup n (Entries.mapValues (fun rule => (⟨rule, options⟩ : SchemaEntry)) batch) <;>
    rfl

/-- The same program, or one that refers to the same name under another number. -/
structure Renewed (p q : Program) : Prop where
  eq : q = { p with number := q.number }
  unchanged : (∀ c, p.steps ≠ [.refer c]) → q = p

theorem Renewed.refl (p : Program) : Renewed p p := ⟨rfl, fun _ => rfl⟩

theorem Renewed.symm {p q : Program} (h : Renewed p q) : Renewed q p := by
  have hsteps : q.steps = p.steps := by rw [h.eq]
  refine ⟨?_, fun hq => (h.unchanged fun c hc => hq c (hsteps.trans hc)).symm⟩
  rw [h.eq]

section Again

variable (hr : r.Sound fun _ => True) (hbatch : Entries.Sorted batch)
  (haccepts : r.Accepts depth batch options st)
  (hr' : (r.publish batch options st).Sound fun _ => True)
  (hagain : (r.publish batch options st).Accepts depth batch options st')
  (hquiet : Quiet (r.publish batch options st).start st')
include hr hbatch haccepts hr' hagain hquiet

/-- A name whose rule is a name is bound to a renewed program. -/
theorem renewed_refer {n m : String} {l : Link} (hmem : (n, .text m) ∈ batch)
    (hl : Entries.lookup n (r.publish batch options st).nameLinks = some l) :
    Option.Rel Renewed ((r.publish batch options st).bindings.lookup l.number)
      (((r.publish batch options st).publish batch options st').bindings.lookup l.number) := by
  have hnames := nameLinks_publish_of_quiet batch options hquiet
  obtain ⟨k, t, number, hk, ht, hp⟩ := published_refer hr hbatch haccepts hmem
  obtain ⟨k', t', number', hk', ht', hp'⟩ := published_refer hr' hbatch hagain hmem
  obtain rfl : k = l := Option.some.inj (hk.symm.trans hl)
  obtain rfl : k' = k := Option.some.inj (hk'.symm.trans (hnames ▸ hk))
  obtain rfl : t' = t := Option.some.inj (ht'.symm.trans (hnames ▸ ht))
  rw [hp, hp']
  exact .some ⟨rfl, fun hsteps => absurd rfl (hsteps (.link t'))⟩

/-- Any other name of the batch is bound to the program of the same identity, which is the
same as before. -/
theorem lookup_again_of_rule {n : String} {v : Value} {l : Link} (hmem : (n, v) ∈ batch)
    (hv : ∀ m, v ≠ .text m)
    (hl : Entries.lookup n (r.publish batch options st).nameLinks = some l) :
    ((r.publish batch options st).publish batch options st').bindings.lookup l.number =
      (r.publish batch options st).bindings.lookup l.number := by
  have hnames := nameLinks_publish_of_quiet batch options hquiet
  have hcache := cache_publish_of_quiet batch options hquiet
  have hsame := sameRules_publish r hbatch options st
  obtain ⟨flat, form, k, t, p, hflat, hform, hk, ht, hp, hpt⟩ :=
    published_rule hr hbatch haccepts hmem hv
  obtain ⟨flat', form', k', t', p', hflat', hform', hk', ht', hp', hpt'⟩ :=
    published_rule hr' hbatch hagain hmem hv
  obtain rfl : k = l := Option.some.inj (hk.symm.trans hl)
  obtain rfl : k' = k := Option.some.inj (hk'.symm.trans (hnames ▸ hk))
  obtain rfl : flat' = flat := hflat'.unique (hsame.flattens hflat)
  obtain rfl : form' = form := Except.ok.inj (hform'.symm.trans (hsame.form_eq_ok hform))
  obtain rfl : t' = t := Option.some.inj (ht'.symm.trans (hcache ▸ ht))
  rw [hp', ← hpt', lookup_published_rule hr' hagain ht, hpt, hp]

/-- When the batch is published again, links stay bound to the programs that they were bound
to, but for renewed ones. -/
theorem renewed_publish {a : Target} {l : Link}
    (hl : (r.publish batch options st).linkage.links.link a = some l) :
    Option.Rel Renewed ((r.publish batch options st).bindings.lookup l.number)
      (((r.publish batch options st).publish batch options st').bindings.lookup l.number) := by
  have hunchanged : ((r.publish batch options st).publish batch options st').bindings.lookup
      l.number = (r.publish batch options st).bindings.lookup l.number →
      Option.Rel Renewed ((r.publish batch options st).bindings.lookup l.number)
        (((r.publish batch options st).publish batch options st').bindings.lookup l.number) := by
    intro heq
    rw [heq]
    exact optionRel_self fun p _ => Renewed.refl p
  cases a with
  | rule i => exact hunchanged (lookup_published_rule hr' hagain hl)
  | name n =>
    by_cases hn : n ∈ Entries.keys batch
    · obtain ⟨⟨n, v⟩, hmem, rfl⟩ := List.mem_map.1 hn
      by_cases hv : ∃ m, v = .text m
      · obtain ⟨m, rfl⟩ := hv
        exact renewed_refer hr hbatch haccepts hr' hagain hquiet hmem hl
      · exact hunchanged (lookup_again_of_rule hr hbatch haccepts hr' hagain hquiet hmem
          (fun m hm => hv ⟨m, hm⟩) hl)
    · exact hunchanged (lookup_published_name hr' hagain hl hn)

end Again

/-! ## Answers -/

/-- The numbers of programs that are bound to one link in the two registries. -/
inductive Renumbers (r r' : Registry) : Nat → Nat → Prop where
  | bound {a : Target} {l : Link} {p q : Program} (hl : r.linkage.links.link a = some l)
      (hp : r.bindings.lookup l.number = some p) (hq : r'.bindings.lookup l.number = some q) :
      Renumbers r r' p.number q.number

/-- The second registry has the schemas and links of the first; the links are bound to
renewed programs. -/
structure Renews (r r' : Registry) : Prop where
  schemas : r'.schemas = r.schemas
  nameLinks : r'.nameLinks = r.nameLinks
  cache : r'.cache = r.cache
  bound : ∀ {a l}, r.linkage.links.link a = some l →
    Option.Rel Renewed (r.bindings.lookup l.number) (r'.bindings.lookup l.number)

theorem Renews.links (h : r.Renews r') : r'.linkage.links = r.linkage.links := by
  simp only [linkage, h.nameLinks, h.cache]

/-- Links that are bound to one program are bound to one when it is renewed. -/
theorem number_eq_of_renewed (hr : r.Reachable) {a b : Target} {l k : Link} {p p' q q' : Program}
    (hl : r.linkage.links.link a = some l) (hk : r.linkage.links.link b = some k)
    (hp : r.bindings.lookup l.number = some p) (hp' : r.bindings.lookup k.number = some p')
    (hq : r'.bindings.lookup l.number = some q) (hq' : r'.bindings.lookup k.number = some q')
    (hpq : Renewed p q) (hpq' : Renewed p' q') (heq : p.number = p'.number) :
    q.number = q'.number := by
  obtain rfl : p = p' := hr.sound.numbered.numbered (Linkage.mem_of_lookup hp)
    (Linkage.mem_of_lookup hp') heq
  by_cases hsteps : ∃ c, p.steps = [.refer c]
  · -- A program that only refers to a name is bound to one name.
    obtain ⟨c, hc⟩ := hsteps
    obtain rfl : a = b := (hr.labelled a l p c hl hp hc).trans (hr.labelled b k p c hk hp' hc).symm
    obtain rfl : l = k := Option.some.inj (hl.symm.trans hk)
    rw [Option.some.inj (hq.symm.trans hq')]
  · rw [hpq.unchanged fun c hc => hsteps ⟨c, hc⟩, hpq'.unchanged fun c hc => hsteps ⟨c, hc⟩]

/-- Programs that are told apart stay so when they are renewed. -/
theorem Renews.injective (h : r.Renews r') (hr : r.Reachable) (hr' : r'.Reachable)
    {a a' b b' : Nat} (ha : Renumbers r r' a a') (hb : Renumbers r r' b b') :
    a = b ↔ a' = b' := by
  obtain @⟨x, l, p, q, hl, hp, hq⟩ := ha
  obtain @⟨y, k, p', q', hk, hp', hq'⟩ := hb
  have hpq : Renewed p q := rel_of_optionRel (h.bound hl) hp hq
  have hpq' : Renewed p' q' := rel_of_optionRel (h.bound hk) hp' hq'
  have hl' : r'.linkage.links.link x = some l := h.links ▸ hl
  have hk' : r'.linkage.links.link y = some k := h.links ▸ hk
  exact ⟨number_eq_of_renewed hr hl hk hp hp' hq hq' hpq hpq',
    number_eq_of_renewed hr' hl' hk' hq hq' hp hp' hpq.symm hpq'.symm⟩

/-- Renewed programs simulate the old ones. -/
theorem Renews.simulates (h : r.Renews r') (hr : r.Reachable) (hr' : r'.Reachable) :
    r.bindings.Simulates (fun l l' => l = l' ∧ ∃ a, r.linkage.links.link a = some l)
      (Renumbers r r') r'.bindings := by
  refine ⟨?_, ?_, fun ha hb => h.injective hr hr' ha hb⟩
  · rintro l _ ⟨rfl, -⟩
    rfl
  · rintro l _ ⟨rfl, a, hl⟩
    refine optionRel_mono ?_ (optionRel_and_eq (h.bound hl))
    rintro p q ⟨hpq, hp, hq⟩
    refine ⟨.bound hl hp hq, ?_, ?_⟩
    · rw [hpq.eq]
    · rw [hpq.eq]
      refine List.forall₂_same.2 fun s hs => Step.Rel.self fun c hc => ?_
      cases c with
      | pass => exact .pass
      | link l' => exact .link ⟨rfl, hr.exists_target ⟨p, hp, s, hs, hc⟩⟩

/-- The second registry answers as the first one does. -/
structure AnswersAs (r r' : Registry) : Prop where
  names : r'.names = r.names
  artifactCount : r'.artifactCount = r.artifactCount
  contains : ∀ n, r'.contains n = r.contains n
  rule : ∀ n, r'.rule? n = r.rule? n
  schemaOptions : ∀ n, r'.schemaOptions? n = r.schemaOptions? n
  get : ∀ n, r'.get? n = r.get? n
  identity : ∀ n handle, r.get? n = some handle → r'.identity? handle = r.identity? handle
  sameArtifact : ∀ n m v w, r.get? n = some v → r.get? m = some w →
    r'.sameArtifact v w = r.sameArtifact v w
  validate : ∀ n handle, r.get? n = some handle →
    ∀ value context, r'.validate handle value context = r.validate handle value context
  followed : ∀ n handle, r.get? n = some handle → ∀ context depth value,
    follow r'.bindings context depth [] handle.link value =
      follow r.bindings context depth [] handle.link value

/-- Renewed programs answer as the old ones did. -/
theorem Renews.answersAs (h : r.Renews r') (hr : r.Reachable) (hr' : r'.Reachable) :
    r.AnswersAs r' := by
  have hsimulates := h.simulates hr hr'
  have htarget : ∀ {n handle}, r.get? n = some handle →
      r.linkage.links.link (.name n) = some handle.link := by
    intro n handle hhandle
    obtain ⟨-, hl, -⟩ := get?_eq_some_iff.1 hhandle
    exact hl
  have hcontains : ∀ n, r'.contains n = r.contains n := by
    intro n
    rw [contains, contains, h.schemas]
  refine {
    names := ?names, artifactCount := ?artifactCount, contains := hcontains, rule := ?rule
    schemaOptions := ?schemaOptions, get := ?get, identity := ?identity
    sameArtifact := ?sameArtifact, validate := ?validate, followed := ?followed }
  case names => rw [names, names, h.schemas]
  case artifactCount => rw [artifactCount, artifactCount, h.cache]
  case rule =>
    intro n
    rw [rule?, rule?, h.schemas]
  case schemaOptions =>
    intro n
    rw [schemaOptions?, schemaOptions?, h.schemas]
  case get =>
    intro n
    rw [get?, get?, hcontains, h.nameLinks]
  case identity =>
    intro n handle hhandle
    have hbound := h.bound (htarget hhandle)
    rw [identity?, identity?, program?, program?]
    generalize r.bindings.lookup handle.link.number = x,
      r'.bindings.lookup handle.link.number = y at hbound
    cases hbound with
    | none => rfl
    | some hpq => exact congrArg some (by rw [hpq.eq])
  case sameArtifact =>
    intro n m v w hv hw
    have hbound := h.bound (htarget hv)
    have hbound' := h.bound (htarget hw)
    rw [Registry.sameArtifact, Registry.sameArtifact, program?, program?, program?, program?]
    generalize hp : r.bindings.lookup v.link.number = x,
      hq : r'.bindings.lookup v.link.number = y at hbound
    generalize hp' : r.bindings.lookup w.link.number = x',
      hq' : r'.bindings.lookup w.link.number = y' at hbound'
    cases hbound with
    | none => rfl
    | some _ =>
      cases hbound' with
      | none => rfl
      | some _ =>
        rw [Bool.eq_iff_iff, beq_iff_eq, beq_iff_eq]
        exact (h.injective hr hr' (.bound (htarget hv) hp hq) (.bound (htarget hw) hp' hq')).symm
  case validate =>
    intro n handle hhandle value context
    exact (hsimulates.evaluate_eq depthLimit context ⟨rfl, _, htarget hhandle⟩ value).symm
  case followed =>
    intro n handle hhandle context depth value
    exact (hsimulates.follow_eq context depth .nil ⟨rfl, _, htarget hhandle⟩ value).symm

/-- A batch that has been accepted is accepted again, and nothing changes thereby that can be
asked about the registry. -/
theorem registerWith_again (hr : r.Reachable) (hsubmitted : Entries.Sorted submitted)
    (hregister : r.registerWithin depth (.mapping submitted) options = .ok r') :
    ∃ r'', r'.registerWithin depth (.mapping submitted) options = .ok r'' ∧
      r'.AnswersAs r'' := by
  have hr' : r'.Reachable := .batch hr trivial hregister
  have hbatch := prepare_sorted hsubmitted options
  obtain ⟨st, haccepts, rfl⟩ := registerWithin_eq_ok_iff.1 hregister
  obtain ⟨st', hagain, hquiet⟩ := accepts_again hr.sound hbatch haccepts
  have hregister' := registerWithin_eq_ok_iff.2 ⟨st', hagain, rfl⟩
  refine ⟨_, hregister', Renews.answersAs ?_ hr' (.batch hr' trivial hregister')⟩
  exact {
    schemas := schemas_publish_again hr hbatch options st st'
    nameLinks := nameLinks_publish_of_quiet _ options hquiet
    cache := cache_publish_of_quiet _ options hquiet
    bound := fun hl => renewed_publish hr.sound hbatch haccepts hr'.sound hagain hquiet hl }

/-- A rule for whole numbers and a second name for it. -/
def ageRules : Entries Value :=
  [("age", .mapping [("type", .text "int")]), ("years", .text "age")]

/-- A registry with both names. -/
@[irreducible]
def ages : Registry :=
  ((Registry.empty unchecked ⟨[]⟩ id).registerWith (.mapping ageRules) unchecked).toOption.getD
    (Registry.empty unchecked ⟨[]⟩ id)

set_option maxRecDepth 100000 in
theorem register_ages : (Registry.empty unchecked ⟨[]⟩ id).registerWith (.mapping ageRules)
    unchecked = .ok ages := by
  have hok : ((Registry.empty unchecked ⟨[]⟩ id).registerWith (.mapping ageRules)
      unchecked).toBool = true := by
    decide +kernel
  unfold ages
  exact eq_ok_of_toBool hok _

/-- Both names are registered again, the second one with a new program. -/
theorem ages_again : Entries.Sorted ageRules ∧
    ∃ r', ages.registerWith (.mapping ageRules) unchecked = .ok r' ∧ ages.AnswersAs r' := by
  have hsorted : Entries.Sorted ageRules := by
    change ["age", "years"].Pairwise (· < ·)
    decide
  exact ⟨hsorted, registerWith_again (.empty unchecked ⟨[]⟩ id) hsorted register_ages⟩

end Registry
end Rulebook
