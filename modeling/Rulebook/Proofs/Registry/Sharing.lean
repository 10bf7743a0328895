import Rulebook.Proofs.Compilation.Order
import Rulebook.Proofs.Compilation.SameForm
import Rulebook.Proofs.Evaluation.Relink
import Rulebook.Proofs.Identity.Genuine
import Rulebook.Proofs.Registry.History

/-!
# Programs that rules share

A rule whose identity is known already is not compiled again.  It is given the
link of the rule that was met first, in this batch or an earlier one, and runs
that rule's program.  What it would have been compiled to by itself may stand for
that program everywhere, once its links are replaced by those that the same names
and identities have in the end.

This rests on the forms of the two rules: an identity covers them only up to
mappings that imitate a double, and a form covers entries only up to rules that
imitate the form of a named entry.
-/

namespace Rulebook

/-! ## Replacing links -/

namespace Links

/-- The links of names and rules are replaced by those they have elsewhere. -/
def Translates (T U : Links) (ρ : Link → Link) : Prop :=
  ∀ a l l', T.link a = some l → U.link a = some l' → ρ l = l'

/-- If different targets have different links, these can be replaced by others. -/
theorem exists_translates {T U : Links}
    (hT : ∀ {a b l l'}, T.link a = some l → T.link b = some l' → l.number = l'.number → a = b) :
    ∃ ρ, T.Translates U ρ := by
  classical
  refine ⟨fun l => if h : ∃ l' a, T.link a = some l ∧ U.link a = some l' then h.choose else l, ?_⟩
  intro a l l' hl hl'
  have hsome : ∃ l' a, T.link a = some l ∧ U.link a = some l' := ⟨l', a, hl, hl'⟩
  obtain ⟨b, hb, hb'⟩ := hsome.choose_spec
  have hab : b = a := hT hb hl rfl
  rw [hab, hl'] at hb'
  exact (dif_pos hsome).trans (Option.some.inj hb').symm

end Links

namespace Source

open Compile

variable {s t : Source} {T U : Links} {ρ : Link → Link} {o o' : Options}
  {features features' : Entries Value} {form : Value} {p q : Program}

/-- Callees for one inner rule, under one policy, are replaced by each other. -/
theorem Refers.relink_eq (hρ : T.Translates U ρ) {v : Value} {c d : Callee}
    (hc : s.Refers T o v c) (hd : s.Refers U o v d) : c.relink ρ = d := by
  cases hc with
  | null =>
    cases hd with
    | null => rfl
    | rule hflat _ _ =>
      obtain ⟨fs, heq, -⟩ := hflat.flatten
      cases heq
  | @name name l hl =>
    cases hd with
    | name hl' => exact congrArg Callee.link (hρ (.name name) l _ hl hl')
    | rule hflat _ _ =>
      obtain ⟨fs, heq, -⟩ := hflat.flatten
      cases heq
  | empty hflat =>
    cases hd with
    | empty _ => rfl
    | rule hflat' _ _ =>
      obtain ⟨⟨fs, heq, hfs⟩, hne⟩ := hflat'
      cases heq
      rw [hflat] at hfs
      exact absurd (Except.ok.inj hfs).symm hne
  | @rule _ flat form l hflat hform hl =>
    obtain ⟨⟨fs, rfl, hfs⟩, hne⟩ := hflat
    cases hd with
    | empty hflat' =>
      rw [hfs] at hflat'
      exact absurd (Except.ok.inj hflat') hne
    | @rule _ flat' form' l' hflat' hform' hl' =>
      obtain ⟨⟨fs', heq, hfs'⟩, -⟩ := hflat'
      cases heq
      rw [hfs] at hfs'
      rw [← Except.ok.inj hfs'] at hform'
      rw [← hform.unique hform'] at hl'
      exact congrArg Callee.link (hρ (.rule _) l l' hl hl')

/-- What rules of one form are compiled to differs in links only. -/
theorem Emits.relink_eq (hρ : T.Translates U ρ) (hdigest : t.digest = s.digest)
    (hcoercions : t.coercions = s.coercions) (hform : t.FormIs features form)
    (hform' : s.FormIs features' form) (hnames : NamesMatch t s features features')
    (hpolicy : SchemaId.policy o = SchemaId.policy o')
    (hp : t.Emits U features o p) (hq : s.Emits T features' o' q) :
    q.breakLoops = p.breakLoops ∧ q.steps.map (Step.map (Callee.relink ρ)) = p.steps := by
  obtain ⟨hbreak, r, plan, hread, hplan, hsteps⟩ :=
    hp.of_sameForm hdigest hcoercions hform hform' hnames hpolicy
  obtain ⟨hbreak', r', plan', hread', hplan', hsteps'⟩ := hq
  obtain rfl : r = r' := Option.some.inj (hread.symm.trans hread')
  obtain rfl : plan = plan' := Option.some.inj (hplan.symm.trans hplan')
  refine ⟨hbreak'.trans hbreak.symm, ?_⟩
  -- From a callee of `q` to the rule it refers to, and on to the callee of `p`.
  have hback := hsteps'.flip.imp fun _ _ hst => hst.flip
  refine map_eq_of_forall₂ (fun _ _ hst => Step.Rel.map_eq ?_ hst)
    (Step.Rel.forall₂Comp hback hsteps)
  rintro c d ⟨w, hc, hd⟩
  exact hc.relink_eq hρ hd

/-- The rule of these features is not mistaken for others: its form holds no mapping
that imitates a double, and its entries none that imitates a named entry. -/
structure Faithful (s : Source) (features : Entries Value) (form : Value) : Prop where
  genuine : Canonical.Genuine form
  plain : s.PlainEntries features

/-- Faithful rules of one identity have one form, and options that agree. -/
theorem Faithful.form_eq (hdigest : Function.Injective s.digest) (hsame : t.digest = s.digest)
    (hs : s.OrderedRules) (ht : t.OrderedRules) (hoccurs : t.Occurs features o)
    (hoccurs' : s.Occurs features' o') {form' : Value} (hform : t.FormIs features form)
    (hform' : s.FormIs features' form') (h : t.Faithful features form)
    (h' : s.Faithful features' form')
    (hid : SchemaId.of t.digest form o = SchemaId.of s.digest form' o') :
    form = form' ∧ SchemaId.policy o = SchemaId.policy o' := by
  rw [hsame] at hid
  exact SchemaId.eq_of_of_eq hdigest (ht.form hoccurs hform) (hs.form hoccurs' hform') h.genuine
    h'.genuine hid

/-- What is followed does not change when a program is exchanged for the other with
its links replaced, under a number of its own. -/
def Exchanges (T U : Links) (B : Bindings) (p q : Program) : Prop :=
  ∃ ρ, T.Translates U ρ ∧ ∀ number, (∀ e ∈ B, e.2.number ≠ number) → ∀ context l v depth,
    follow (exchange B p.number (q.relink ρ number)) context depth [] l v =
      follow B context depth [] l v ∧
    evaluate depth (exchange B p.number (q.relink ρ number)) context l v =
      evaluate depth B context l v

/-- Programs whose steps differ in links only are exchanged for each other. -/
theorem Sound.exchanges {good : Source → Prop} {P : Position} (h : s.Sound good P)
    (hT : ∀ {a b l l'}, T.link a = some l → T.link b = some l' → l.number = l'.number → a = b)
    {l : Link} (hl : s.bound P.staging l = some p) (hbreak : q.breakLoops = p.breakLoops)
    (hsteps : ∀ ρ, T.Translates (s.links P.staging) ρ →
      q.steps.map (Step.map (Callee.relink ρ)) = p.steps) :
    Exchanges T (s.links P.staging) (P.staging.bindings ++ s.bindings) p q := by
  obtain ⟨ρ, hρ⟩ := Links.exists_translates (U := s.links P.staging) hT
  refine ⟨ρ, hρ, ?_⟩
  intro number hnumber context l' v depth
  have hmem := Linkage.mem_of_lookup hl
  generalize hB : P.staging.bindings ++ s.bindings = B at hmem hnumber ⊢
  have hunique : ∀ e ∈ B, e.2.number = p.number → e.2 = p := by
    intro e he heq
    rw [← hB] at he hmem
    exact h.numbered.numbered he hmem heq
  have hfollow : follow (exchange B p.number (q.relink ρ number)) context depth [] l' v =
      follow B context depth [] l' v :=
    follow_exchange (q := q.relink ρ number) hunique hnumber hbreak (hsteps ρ hρ) context depth
      l' v
  refine ⟨hfollow, ?_⟩
  rw [evaluate, evaluate, hfollow]

end Source

namespace Registry

open Source

/-! ## Histories -/

/-- The registry has come about by batches that were accepted one after the other,
from which the given sources were made, latest first.  Calls may have been followed to a
different depth for each batch. -/
inductive History : Registry → List Source → Prop where
  | empty (options : Options) (coercions : CoercionTable) (digest : Digest) :
      History (Registry.empty options coercions digest) []
  | batch {r r' : Registry} {past : List Source} {depth : Nat} {submitted : Entries Value}
      {options : Options} (hr : History r past) (hsubmitted : Value.Ordered (.mapping submitted))
      (hregister : r.registerWithin depth (.mapping submitted) options = .ok r') :
      History r' (r.source (prepare submitted options) options :: past)

variable {r : Registry} {past : List Source} {submitted : Entries Value} {options : Options}

/-- The rules of a batch are ordered when they have been brought into their one
spelling. -/
theorem ordered_prepare (h : Value.Ordered (.mapping submitted)) (options : Options) :
    ∀ e ∈ prepare submitted options, e.2.Ordered := by
  intro e he
  obtain ⟨f, hf, rfl⟩ := List.mem_map.1 he
  have hrule := (Value.ordered_mapping.1 h).2 f hf
  refine Rule.ordered_spell _ ?_
  split
  · have hkeys : ["items", "type"].Pairwise (· < ·) := by decide
    refine Value.ordered_mapping.2 ⟨hkeys, ?_⟩
    intro g hg
    simp only [List.mem_cons, List.not_mem_nil, or_false] at hg
    rcases hg with rfl | rfl
    · exact hrule
    · exact trivial
  · exact hrule

/-- The source is that of a batch which was in order, for this registry. -/
structure Suits (r : Registry) (s : Source) : Prop where
  ordered : s.OrderedRules
  digest : s.digest = r.digest
  coercions : s.coercions = r.coercions

/-- What a history leaves behind. -/
structure Traced (r : Registry) (past : List Source) : Prop where
  sound : r.Sound (· ∈ past)
  suits : ∀ s ∈ past, r.Suits s
  ordered : ∀ e ∈ r.schemas, e.2.rule.Ordered

theorem Sound.imp {good good' : Source → Prop} (hgood : ∀ s, good s → good' s)
    (h : r.Sound good) : r.Sound good' := ⟨h.numbered, h.compiled.imp hgood⟩

theorem Traced.suits_source (h : r.Traced past) (hsubmitted : Value.Ordered (.mapping submitted))
    (options : Options) : r.Suits (r.source (prepare submitted options) options) := by
  refine ⟨⟨ordered_prepare hsubmitted options, ?_⟩, rfl, rfl⟩
  intro e he
  obtain ⟨f, hf, rfl⟩ := List.mem_map.1 he
  exact h.ordered f hf

theorem History.traced (h : r.History past) : r.Traced past := by
  induction h with
  | empty options coercions digest =>
    exact ⟨sound_empty options coercions digest, by simp, by simp [Registry.empty]⟩
  | @batch r r' past _ submitted options _ hsubmitted hregister ih =>
    have hsource := ih.suits_source hsubmitted options
    obtain ⟨st, haccepts, rfl⟩ := registerWithin_eq_ok_iff.1 hregister
    refine ⟨?_, ?_, ?_⟩
    · have hsound : r.Sound (· ∈ r.source (prepare submitted options) options :: past) :=
        ih.sound.imp fun s hs => List.mem_cons_of_mem _ hs
      exact hsound.publish (List.mem_cons_self ..) haccepts
    · intro s hs
      have hold : r.Suits s := by
        rcases List.mem_cons.1 hs with rfl | hs
        · exact hsource
        · exact ih.suits s hs
      exact ⟨hold.ordered, hold.digest, hold.coercions⟩
    · intro e he
      rcases Entries.mem_of_mem_overlay he with he | he
      · obtain ⟨f, hf, rfl⟩ := List.mem_map.1 he
        exact ordered_prepare hsubmitted options f hf
      · exact ih.ordered e he

/-! ## Rules that are known already -/

/-- The link that a rule is given without being compiled is bound, once nothing
waits, to the program of a rule of its identity, from the same batch or an earlier
one.  If neither rule is mistaken for others, that program may be exchanged for the
one that the rule is compiled to at the moment it is given the link. -/
theorem shared_exchanges (hr : r.History past) (hdigest : Function.Injective r.digest)
    (hsubmitted : Value.Ordered (.mapping submitted)) {s : Source}
    (hs : s = r.source (prepare submitted options) options) {busy : Option Task}
    {st st' : Staging} {task : Task} {l : Link} {q : Program} {P : Position}
    (hbefore : s.Moves ⟨none, r.start⟩ ⟨busy, st⟩) (htask : s.Waits task)
    (hknown : (s.schedule task.features task.options task.label).Yields st l st)
    (hcompile : (s.compile task).Yields st q st') (hafter : s.Moves ⟨busy, st⟩ P) :
    (P.waiting = [] → ∃ p, s.bound P.staging l = some p) ∧
      ∀ p, s.bound P.staging l = some p → ∃ t ∈ s :: past, ∃ features form options',
        t.Occurs features options' ∧ t.FormIs features form ∧
        SchemaId.of t.digest form options' = task.id ∧
        t.Emits (s.links P.staging) features options' p ∧
        (t.Faithful features form → s.Faithful task.features task.form →
          Exchanges (s.links st') (s.links P.staging) (P.staging.bindings ++ r.bindings) p q) := by
  have htraced := hr.traced
  have hsuits := htraced.suits_source hsubmitted options
  have hregistry : r.Sound (· ∈ s :: past) :=
    htraced.sound.imp fun t ht => List.mem_cons_of_mem _ ht
  have hstart := hregistry.start (prepare submitted options) options
  rw [← hs] at hsuits hstart
  have hgood : s ∈ s :: past := List.mem_cons_self ..
  have hsound := hstart.moves hgood hbefore
  have hend := hsound.moves hgood hafter
  -- The link is that of the identity of the rule, then and later.
  obtain ⟨-, form', hform', hl⟩ := schedule_yields hknown htask.occurs
  rw [(formIs_of_form hform').unique htask.form, ← htask.id] at hl
  have hl' : (s.links P.staging).rule task.id = some l := hafter.links_within.rule hl
  obtain ⟨st₁, rule, hadv, -, rfl, -, -, -, hemits⟩ := compile_yields hcompile htask
  have hnumbered := (hsound.moves hgood (hadv.moves busy)).numbered
  refine ⟨fun hnone => ?_, fun p hp => ?_⟩
  · obtain ⟨p, hp, -⟩ := hend.rule_built hnone hl'
    exact ⟨p, hp⟩
  · obtain ⟨t, features, form, options', hmem, hoccurs, hform, hid, -, hemits'⟩ :=
      hend.built_of_bound hl' hp
    refine ⟨t, hmem, features, form, options', hoccurs, hform, hid, hemits', ?_⟩
    intro hfaithful hfaithful'
    have ht : r.Suits t := by
      rcases List.mem_cons.1 hmem with rfl | hmem
      · exact hsuits
      · exact htraced.suits t hmem
    have hdigests : t.digest = s.digest := ht.digest.trans hsuits.digest.symm
    have hcoercions : t.coercions = s.coercions := ht.coercions.trans hsuits.coercions.symm
    rw [← hsuits.digest] at hdigest
    obtain ⟨rfl, hpolicy⟩ := Faithful.form_eq hdigest hdigests hsuits.ordered ht.ordered hoccurs
      htask.occurs hform htask.form hfaithful hfaithful' (hid.trans htask.id)
    have hrelink : ∀ {ρ}, (s.links st₁).Translates (s.links P.staging) ρ →
        q.breakLoops = p.breakLoops ∧ q.steps.map (Step.map (Callee.relink ρ)) = p.steps :=
      fun hρ => hemits'.relink_eq hρ hdigests hcoercions hform htask.form
        (hfaithful.plain.namesMatch hfaithful'.plain) hpolicy hemits
    have hexchanges := hend.exchanges (q := q) hnumbered.injective hp ?_ fun ρ hρ => (hrelink hρ).2
    · rw [hs] at hexchanges ⊢
      exact hexchanges
    · obtain ⟨ρ, hρ⟩ := Links.exists_translates (U := s.links P.staging) hnumbered.injective
      exact (hrelink hρ).1

/-- A rule for integers. -/
def countFeatures : Entries Value := [("type", .text "int")]

/-- A rule for lists of integers. -/
def countsFeatures : Entries Value :=
  [("type", .text "list"), ("values", .mapping countFeatures)]

/-- A registry in which the rule for lists of integers has a name. -/
@[irreducible]
def counts : Registry :=
  ((Registry.empty unchecked ⟨[]⟩ id).registerWith
    (.mapping [("counts", .mapping countsFeatures)]) unchecked).toOption.getD
    (Registry.empty unchecked ⟨[]⟩ id)

/-- What a batch with the same rule under another name is compiled from. -/
def totals : Source :=
  counts.source (prepare [("totals", .mapping countsFeatures)] unchecked) unchecked

/-- The rule under its other name. -/
def totalsTask : Task :=
  ⟨SchemaId.of id (.mapping countsFeatures) unchecked, ⟨0, "totals"⟩, countsFeatures,
    .mapping countsFeatures, unchecked, "totals"⟩

theorem ordered_counts (n : String) :
    Value.Ordered (.mapping [(n, .mapping countsFeatures)]) := by
  have hkeys : Entries.Sorted countsFeatures := by
    change ["type", "values"].Pairwise (· < ·)
    decide
  have hcount : Value.Ordered (.mapping countFeatures) := by
    simp [Value.Ordered, Value.OrderedEntries, Entries.Sorted, Entries.keys, countFeatures]
  have hcounts : Value.Ordered (.mapping countsFeatures) := by
    refine Value.ordered_mapping.2 ⟨hkeys, ?_⟩
    simpa [countsFeatures, Value.Ordered] using hcount
  refine Value.ordered_mapping.2 ⟨List.pairwise_singleton _ _, fun e he => ?_⟩
  rw [List.mem_singleton.1 he]
  exact hcounts

set_option maxRecDepth 100000 in
theorem insert_counts : ((Registry.empty unchecked ⟨[]⟩ id).registerWith
    (.mapping [("counts", .mapping countsFeatures)]) unchecked).toBool = true := by
  decide +kernel

theorem register_counts : (Registry.empty unchecked ⟨[]⟩ id).registerWith
    (.mapping [("counts", .mapping countsFeatures)]) unchecked = .ok counts := by
  unfold counts
  exact eq_ok_of_toBool insert_counts _

/-- The registry has come about by one batch. -/
theorem history_counts : counts.History [(Registry.empty unchecked ⟨[]⟩ id).source
    (prepare [("counts", .mapping countsFeatures)] unchecked) unchecked] := by
  exact .batch (.empty _ _ _) (ordered_counts _) register_counts

theorem digest_totals : totals.digest = id :=
  (history_counts.traced.suits _ (List.mem_cons_self ..)).digest.symm

set_option maxRecDepth 100000 in
theorem schedule_totals :
    (totals.schedule countsFeatures unchecked "totals").Yields counts.start ⟨1, "counts"⟩
      counts.start := by
  have hform : (totals.form countsFeatures "totals").toOption = some (.mapping countsFeatures) := by
    decide +kernel
  have hlink : (totals.links counts.start).rule totalsTask.id = some ⟨1, "counts"⟩ := by
    decide +kernel
  rw [totalsTask, ← digest_totals] at hlink
  refine schedule_of_known ?_ hlink
  cases h : totals.form countsFeatures "totals" with
  | error e =>
    rw [h] at hform
    cases hform
  | ok form =>
    rw [h] at hform
    rw [Option.some.inj hform]

/-- What occurs in a batch with the rule for lists of integers only. -/
theorem counts_occurs {s : Source} {n : String}
    (hbatch : s.batch = [(n, .mapping countsFeatures)]) (hoptions : s.options = unchecked)
    {features : Entries Value} {options : Options} (h : s.Occurs features options) :
    options = unchecked ∧ (features = countsFeatures ∨ features = countFeatures) := by
  induction h with
  | named hmem hflat =>
    rw [hbatch] at hmem
    obtain ⟨rfl, rfl⟩ := Prod.mk.inj (List.mem_singleton.1 hmem)
    cases hflat with
    | mapping h => exact ⟨hoptions, Or.inl (Except.ok.inj h).symm⟩
  | inner _ hread hmem hflat ih =>
    obtain ⟨⟨fs, rfl, hfs⟩, -⟩ := hflat
    obtain ⟨rfl, rfl | rfl⟩ := ih
    · rw [← Option.some.inj hread] at hmem ⊢
      have hvalue := List.mem_singleton.1 hmem
      cases hvalue
      exact ⟨rfl, Or.inr (Except.ok.inj hfs).symm⟩
    · rw [← Option.some.inj hread] at hmem
      cases hmem

theorem formIs_counts (s : Source) : s.FormIs countsFeatures (.mapping countsFeatures) := ⟨3, rfl⟩

theorem formIs_count (s : Source) : s.FormIs countFeatures (.mapping countFeatures) := ⟨3, rfl⟩

set_option maxRecDepth 100000 in
theorem compile_totals : ((totals.compile totalsTask).run counts.start).toBool = true := by
  decide +kernel

theorem faithful_counts (s : Source) :
    s.Faithful countsFeatures (.mapping countsFeatures) := by
  refine ⟨?_, ?_⟩
  · simp [Canonical.Genuine, Canonical.GenuineEntries, countsFeatures, countFeatures,
      Canonical.floatTag]
  · intro key hkey es hes
    simp only [List.mem_cons, List.not_mem_nil, or_false] at hkey
    rcases hkey with rfl | rfl <;> cases hes

theorem counts_eq_of_id {s : Source} {n : String}
    (hbatch : s.batch = [(n, .mapping countsFeatures)]) (hoptions : s.options = unchecked)
    (hdigest : s.digest = id) {features : Entries Value} {form : Value} {options : Options}
    (h : s.Occurs features options) (hform : s.FormIs features form)
    (hid : SchemaId.of s.digest form options = totalsTask.id) :
    features = countsFeatures ∧ form = .mapping countsFeatures := by
  have hne : SchemaId.of id (.mapping countFeatures) unchecked ≠ totalsTask.id := by
    decide +kernel
  obtain ⟨rfl, rfl | rfl⟩ := counts_occurs hbatch hoptions h
  · exact ⟨rfl, hform.unique (formIs_counts s)⟩
  · rw [hform.unique (formIs_count s), hdigest] at hid
    exact absurd hid hne

/-- The rule under its other name is given the link it has, and its program may be
exchanged for the one it is compiled to. -/
theorem exchanges_totals : ∃ p q st',
    (totals.schedule countsFeatures unchecked "totals").Yields counts.start ⟨1, "counts"⟩
      counts.start ∧
    (totals.compile totalsTask).Yields counts.start q st' ∧
    totals.bound counts.start ⟨1, "counts"⟩ = some p ∧
    Exchanges (totals.links st') (totals.links counts.start) counts.bindings p q := by
  have hoccurs : totals.Occurs countsFeatures unchecked :=
    .named (n := "totals") (v := .mapping countsFeatures) (List.mem_singleton_self _)
      (.mapping rfl)
  have hwaits : totals.Waits totalsTask := by
    refine ⟨hoccurs, formIs_counts totals, ?_⟩
    rw [digest_totals]
    rfl
  have hok := compile_totals
  cases hcompile : (totals.compile totalsTask).run counts.start with
  | error e =>
    rw [hcompile] at hok
    cases hok
  | ok result =>
    obtain ⟨q, st'⟩ := result
    have hdigest : Function.Injective counts.digest := by
      rw [show counts.digest = id from digest_totals]
      exact Function.injective_id
    have hsource : totals =
        counts.source (prepare [("totals", .mapping countsFeatures)] unchecked) unchecked := rfl
    obtain ⟨hbound, hshared⟩ := shared_exchanges history_counts hdigest
      (ordered_counts "totals") hsource .refl hwaits schedule_totals hcompile .refl
    obtain ⟨p, hp⟩ := hbound rfl
    obtain ⟨t, ht, features, form, options, htoccurs, htform, hid, -, hexchanges⟩ := hshared p hp
    obtain ⟨rfl, rfl⟩ : features = countsFeatures ∧ form = .mapping countsFeatures := by
      rcases List.mem_cons.1 ht with rfl | ht
      · exact counts_eq_of_id (n := "totals") rfl rfl digest_totals htoccurs htform hid
      · cases List.mem_singleton.1 ht
        exact counts_eq_of_id (n := "counts") rfl rfl rfl htoccurs htform hid
    exact ⟨p, q, st', schedule_totals, hcompile, hp,
      hexchanges (faithful_counts t) (faithful_counts totals)⟩

end Registry
end Rulebook
