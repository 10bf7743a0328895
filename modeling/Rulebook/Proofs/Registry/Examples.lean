import Rulebook.Proofs.Compilation.Forms
import Rulebook.Proofs.Compilation.Names
import Rulebook.Proofs.Registry.History

/-!
# Examples of accepted batches

The examples of a rule are noted when the rule is compiled, and replayed before
the batch is published.  So they hold of the published registry wherever the
rule was compiled with the batch.  A rule whose identity was known before is not
compiled again, and its examples are not replayed.
-/

namespace Rulebook
namespace Source

variable {s : Source} {good : Source → Prop} {st : Staging}

/-- The examples of a rule have been noted. -/
structure Noted (s : Source) (cases : List ExampleCase) (i : SchemaId) (t : Link) (task : Task)
    (r : Rule) : Prop where
  waits : s.Waits task
  id : task.id = i
  read : Rule.read? task.features = some r
  noted : ∃ c, c.link = t ∧ c.positive = r.positiveExamples ∧
    c.negative = r.negativeExamples ∧
      (c.positive ≠ [] ∨ c.negative ≠ [] → c ∈ cases)

/-- The examples of every rule that is new and does not wait have been noted. -/
def AllNoted (s : Source) (P : Position) : Prop :=
  ∀ i t, P.staging.cache.lookup i = some t →
    (∃ task ∈ P.waiting, task.id = i ∧ task.link = t) ∨
      ∃ task r, s.Noted P.staging.examples i t task r

theorem examples_compiled (st : Staging) (task : Task) (r : Rule) {c : ExampleCase}
    (hc : c ∈ st.examples) : c ∈ (compiled st task r).examples := by
  rw [compiled]
  dsimp only
  split
  · exact List.mem_append_left _ hc
  · exact hc

theorem noted_compiled {task : Task} (htask : s.Waits task) {r : Rule}
    (hread : Rule.read? task.features = some r) :
    s.Noted (compiled st task r).examples task.id task.link task r := by
  refine ⟨htask, rfl, hread,
    ⟨task.label, task.link, r.positiveExamples, r.negativeExamples⟩, rfl, rfl, rfl, ?_⟩
  intro hsome
  have hnonempty : !r.positiveExamples.isEmpty || !r.negativeExamples.isEmpty := by
    rw [Bool.or_eq_true]
    refine hsome.imp ?_ ?_ <;> intro h <;> simpa using h
  rw [compiled, if_pos hnonempty]
  exact List.mem_append_right _ (List.mem_singleton_self _)

theorem Noted.mono {xs ys : List ExampleCase} {i : SchemaId} {t : Link} {task : Task}
    {r : Rule} (h : s.Noted xs i t task r) (hsub : xs ⊆ ys) : s.Noted ys i t task r := by
  obtain ⟨hwaits, hid, hread, c, hlink, hpositive, hnegative, hmem⟩ := h
  exact ⟨hwaits, hid, hread, c, hlink, hpositive, hnegative, fun hne => hsub (hmem hne)⟩

theorem AllNoted.move {P Q : Position} (h : s.Sound good P) (hmove : s.Move P Q)
    (hnoted : s.AllNoted P) : s.AllNoted Q := by
  cases hmove with
  | @grow busy st st' hgrow =>
    cases hgrow with
    | name _ => exact hnoted
    | @rule task htask hnumber hnew =>
      intro i t hi
      have hwaiting : (Position.mk busy (st.withTask task)).waiting =
          (Position.mk busy st).waiting ++ [task] := (List.append_assoc _ _ _).symm
      rw [hwaiting]
      simp only [Staging.withTask, Linkage.lookup_cons] at hi
      split at hi
      · rename_i hid
        refine Or.inl ⟨task, List.mem_append_right _ (List.mem_singleton_self _), hid.symm, ?_⟩
        exact Option.some.inj hi
      · rcases hnoted i t hi with ⟨task', hmem, hid⟩ | hdone
        · exact Or.inl ⟨task', List.mem_append_left _ hmem, hid⟩
        · exact Or.inr hdone
  | @take st task rest htodo =>
    have hwaiting : (Position.mk (some task) { st with todo := rest }).waiting =
        (Position.mk none st).waiting := by
      simp only [Position.waiting, htodo]
      rfl
    intro i t hi
    rw [hwaiting]
    exact hnoted i t hi
  | @finish st task r p hread hnumber hid hemits =>
    have htask : s.Waits task := h.waits task (List.mem_cons_self ..)
    intro i t hi
    rcases hnoted i t hi with ⟨task', hmem, hid', hlink⟩ | ⟨task', r', hdone⟩
    · rcases List.mem_cons.1 hmem with rfl | hmem
      · rw [← hid', ← hlink]
        have hself : s.Noted (compiled st task' r).examples task'.id task'.link task' r :=
          noted_compiled htask hread
        exact Or.inr ⟨task', r, hself.mono (List.Subset.refl _)⟩
      · exact Or.inl ⟨task', hmem, hid', hlink⟩
    · refine Or.inr ⟨task', r', hdone.mono ?_⟩
      intro c hc
      exact examples_compiled st task r hc
  | refer _ _ _ => exact hnoted
  | name _ _ _ _ _ => exact hnoted
  | bind _ _ => exact hnoted

theorem AllNoted.moves {P Q : Position} (hgood : good s) (h : s.Sound good P)
    (hmoves : s.Moves P Q) (hnoted : s.AllNoted P) : s.AllNoted Q := by
  induction hmoves with
  | refl => exact hnoted
  | tail hmoves hmove ih => exact AllNoted.move (h.moves hgood hmoves) hmove ih

end Source

namespace Registry

open Source

/-- To a given depth, what features list as examples passes under a handle, and what they
list as negative examples does not. -/
structure ExamplesHold (r : Registry) (depth : Nat) (handle : Validator)
    (features : Entries Value) : Prop where
  positive : ∀ xs, Entries.lookup "examples" features = some (.list xs) → ∀ v ∈ xs,
    ∃ w, r.validateWithin depth handle v none = some (.ok w)
  negative : ∀ xs, Entries.lookup "negative_examples" features = some (.list xs) → ∀ v ∈ xs,
    ∃ e, r.validateWithin depth handle v none = some (.error e)

theorem forM_eq_ok_iff {α : Type} {f : α → Except SchemaError Unit} {xs : List α} :
    xs.forM f = .ok () ↔ ∀ x ∈ xs, f x = .ok () := by
  induction xs with
  | nil => simp [pure, Except.pure]
  | cons x xs ih =>
    simp only [List.forM, Except.bind_eq_ok_iff, ih, List.forall_mem_cons]
    constructor
    · rintro ⟨_, hx, hxs⟩
      exact ⟨hx, hxs⟩
    · rintro ⟨hx, hxs⟩
      exact ⟨(), hx, hxs⟩

/-- A case that is replayed with success holds through every link of its program. -/
theorem evaluate_eq_of_lookup {bindings : Bindings} {l t : Link} {p : Program}
    (hl : bindings.lookup l.number = some p) (ht : bindings.lookup t.number = some p)
    (depth : Nat) (context : Option Context) (v : Value) :
    evaluate depth bindings context l v = evaluate depth bindings context t v := by
  cases depth with
  | zero => rfl
  | succ depth =>
    simp only [evaluate, follow, hl, ht]
    rfl

theorem judgePositive_eq_ok_iff {c : ExampleCase} {v : Value}
    {o : Option (Except ValidationError Value)} :
    judgePositive c v o = .ok () ↔ ∃ w, o = some (.ok w) := by
  rw [judgePositive.eq_def]
  split <;> simp

theorem judgeNegative_eq_ok_iff {c : ExampleCase} {v : Value}
    {o : Option (Except ValidationError Value)} :
    judgeNegative c v o = .ok () ↔ ∃ e, o = some (.error e) := by
  rw [judgeNegative.eq_def]
  split <;> simp

theorem checkCase_eq_ok_iff {depth : Nat} {bindings : Bindings} {c : ExampleCase} :
    checkCase depth bindings c = .ok () ↔
      (∀ v ∈ c.positive, ∃ w, evaluate depth bindings none c.link v = some (.ok w)) ∧
        ∀ v ∈ c.negative, ∃ e, evaluate depth bindings none c.link v = some (.error e) := by
  rw [checkCase, Except.bind_eq_ok_iff]
  constructor
  · rintro ⟨⟨⟩, hpositive, hnegative⟩
    rw [forM_eq_ok_iff] at hpositive hnegative
    exact ⟨fun v hv => judgePositive_eq_ok_iff.1 (hpositive v hv),
      fun v hv => judgeNegative_eq_ok_iff.1 (hnegative v hv)⟩
  · rintro ⟨hpositive, hnegative⟩
    refine ⟨(), forM_eq_ok_iff.2 ?_, forM_eq_ok_iff.2 ?_⟩
    · intro v hv
      exact judgePositive_eq_ok_iff.2 (hpositive v hv)
    · intro v hv
      exact judgeNegative_eq_ok_iff.2 (hnegative v hv)

theorem readList_eq_of_lookup {features : Entries Value} {feature : String} {xs : List Value}
    (h : Entries.lookup feature features = some (.list xs)) (label : String) :
    Rule.readList features label feature = .ok (some xs) := by
  simp only [Rule.readList, Rule.argument?, h]

/-- What features list is what a rule with the same features has read. -/
theorem eq_of_readList {features features' : Entries Value} {feature : String}
    (hsame : Entries.lookup feature features' = Entries.lookup feature features)
    {xs ys : List Value} (hxs : Entries.lookup feature features = some (.list xs))
    (hread : ∃ zs, Rule.readList features' "" feature = .ok zs ∧ zs.getD [] = ys) : xs = ys := by
  obtain ⟨zs, hzs, rfl⟩ := hread
  rw [← hsame] at hxs
  rw [readList_eq_of_lookup hxs] at hzs
  rw [← Except.ok.inj hzs, Option.getD_some]

variable {r r' : Registry} {depth : Nat} {submitted batch : Entries Value} {options : Options}
  {st : Staging}

/-- The examples in the features of a rule hold under a handle if they have been replayed
for a rule with the same features, by calls that go as those through the handle. -/
theorem ExamplesHold.of_replayed {handle : Validator} {features features' : Entries Value}
    {rule : Rule} {c : ExampleCase} {bindings : Bindings}
    (hread : Rule.read? features' = some rule)
    (hsame : ∀ {key}, key ∉ ruleFeatures →
      Entries.lookup key features' = Entries.lookup key features)
    (hpositive : c.positive = rule.positiveExamples)
    (hnegative : c.negative = rule.negativeExamples)
    (hcase : c.positive ≠ [] ∨ c.negative ≠ [] → checkCase depth bindings c = .ok ())
    {depth' : Nat} (hdepth : depth ≤ depth')
    (hthrough : ∀ v, r.validateWithin depth' handle v none =
      evaluate depth' bindings none c.link v) :
    r.ExamplesHold depth' handle features := by
  have hread' : Rule.read features' "" = .ok rule := Rule.read_of_read? hread
  have hreads := Rule.read_eq_ok_iff.1 hread'
  constructor
  · intro xs hxs v hv
    rw [eq_of_readList (hsame (by decide)) hxs hreads.positiveExamples, ← hpositive] at hv
    obtain ⟨w, hw⟩ := (checkCase_eq_ok_iff.1 (hcase (Or.inl (List.ne_nil_of_mem hv)))).1 v hv
    exact ⟨w, (hthrough v).trans (evaluate_of_le hdepth hw)⟩
  · intro xs hxs v hv
    rw [eq_of_readList (hsame (by decide)) hxs hreads.negativeExamples, ← hnegative] at hv
    obtain ⟨e, he⟩ := (checkCase_eq_ok_iff.1 (hcase (Or.inr (List.ne_nil_of_mem hv)))).2 v hv
    exact ⟨e, (hthrough v).trans (evaluate_of_le hdepth he)⟩

/-- The examples of a schema hold after its batch was accepted under validation,
if the identity of its rule was not known before and no other rule of the batch
shares it; they hold to every depth from the one on to which the batch was tried. -/
theorem examples_hold (hr : r.Reachable) (hsubmitted : Entries.Sorted submitted)
    (hvalidate : options.validateSchemas = true)
    (hregister : r.registerWithin depth (.mapping submitted) options = .ok r') {n : String}
    {fs : Entries Value} (hmem : (n, .mapping fs) ∈ prepare submitted options) :
    ∃ flat form handle,
      (r.source (prepare submitted options) options).flatten fs n = .ok flat ∧
      (r.source (prepare submitted options) options).form flat n = .ok form ∧
      r'.get? n = some handle ∧
      (r.cache.lookup (SchemaId.of r.digest form options) = none →
        (∀ features options' form',
          (r.source (prepare submitted options) options).Occurs features options' →
          (r.source (prepare submitted options) options).FormIs features form' →
          SchemaId.of r.digest form' options' = SchemaId.of r.digest form options →
          form' = form) →
        ∀ depth', depth ≤ depth' → r'.ExamplesHold depth' handle flat) := by
  obtain ⟨st, haccepts, rfl⟩ := registerWithin_eq_ok_iff.1 hregister
  have hbatch := prepare_sorted hsubmitted options
  generalize prepare submitted options = batch at hmem haccepts hbatch
  have hstart := (Reachable.sound hr).start batch options
  have hready := ready_start (r := r) batch options
  have hsound := (Reachable.sound hr).accepts trivial haccepts
  obtain ⟨flat, form, l, t, p, hflat, hform, hl, ht, hlp, htp⟩ :=
    compileBatch_rule trivial hstart hready rfl haccepts.compile hbatch hmem (by simp)
  have hflatten : (r.source batch options).flatten fs n = .ok flat := by
    cases hflat with
    | mapping h => exact h
  refine ⟨flat, form, ⟨n, l⟩, hflatten, hform, get?_publish hbatch hsound hmem hl, ?_⟩
  intro hnew hsame depth' hdepth
  have hcached : st.cache.lookup (SchemaId.of r.digest form options) = some t := by
    have hor : (r.cache.lookup (SchemaId.of r.digest form options)).or
        (st.cache.lookup (SchemaId.of r.digest form options)) = some t := ht
    rw [hnew, Option.none_or] at hor
    exact hor
  obtain ⟨hmoves, hdone, -⟩ := Moves.compileBatch haccepts.compile hready
  have hnoted : (r.source batch options).AllNoted ⟨none, st⟩ := by
    refine AllNoted.moves trivial hstart hmoves ?_
    intro i u hi
    cases hi
  rcases hnoted _ _ hcached with ⟨task, htask, -⟩ | ⟨task, rule, hwaits, hid, hread, c, hlink,
    hpositive, hnegative, hcase⟩
  · rw [Position.waiting, hdone] at htask
    cases htask
  -- The rule that was compiled has the features of this one, up to inner rules.
  have hformTask := hwaits.form
  rw [hsame _ _ _ hwaits.occurs hformTask (hwaits.id.symm.trans hid)] at hformTask
  have hreplay : ∀ c ∈ st.examples, checkCase depth (st.bindings ++ r.bindings) c = .ok () :=
    forM_eq_ok_iff.1 (haccepts.replay hvalidate)
  refine .of_replayed hread (hformTask.lookup_eq (formIs_of_form hform)) hpositive hnegative
    (fun hsome => hreplay c (hcase hsome)) hdepth fun v => ?_
  rw [hlink, validateWithin, evaluate_publish r batch options haccepts.tracked]
  exact evaluate_eq_of_lookup hlp htp depth' none v

/-- A rule for integers with an example of each kind. -/
def integerFeatures : Entries Value :=
  [("examples", .list [Value.ofNat 1]), ("negative_examples", .list [.text "one"]),
    ("type", .text "int")]

theorem integer_occurs {features : Entries Value} {options' : Options}
    (h : ((Registry.empty {} ⟨[]⟩ id).source
      (prepare [("integer", .mapping integerFeatures)] {}) {}).Occurs features options') :
    features = integerFeatures := by
  induction h with
  | named hmem hflat =>
    obtain ⟨rfl, rfl⟩ := Prod.mk.inj (List.mem_singleton.1 hmem)
    cases hflat with
    | mapping h => exact (Except.ok.inj h).symm
  | inner _ hread hmem _ ih =>
    rw [ih] at hread
    rw [← Option.some.inj hread] at hmem
    cases hmem

set_option maxRecDepth 100000 in
theorem registerWith_integer : ((Registry.empty {} ⟨[]⟩ id).registerWith
    (.mapping [("integer", .mapping integerFeatures)]) {}).toBool = true := by
  decide +kernel

/-- The examples of a rule for integers hold after it was registered. -/
theorem examples_hold_integer : ∃ r' handle,
    (Registry.empty {} ⟨[]⟩ id).registerWith (.mapping [("integer", .mapping integerFeatures)]) {} =
      .ok r' ∧ r'.get? "integer" = some handle ∧
      r'.ExamplesHold depthLimit handle integerFeatures := by
  cases hregister : (Registry.empty {} ⟨[]⟩ id).registerWith
      (.mapping [("integer", .mapping integerFeatures)]) {} with
  | error e =>
    have hok := registerWith_integer
    rw [hregister] at hok
    cases hok
  | ok r' =>
    have hsorted : Entries.Sorted [("integer", Value.mapping integerFeatures)] :=
      List.pairwise_singleton _ _
    have hmem : ("integer", Value.mapping integerFeatures) ∈
        prepare [("integer", .mapping integerFeatures)] {} := List.mem_singleton_self _
    obtain ⟨flat, form, handle, hflat, hform, hget, hholds⟩ :=
      examples_hold (.empty {} ⟨[]⟩ id) hsorted rfl hregister hmem
    cases hflat
    refine ⟨r', handle, rfl, hget, hholds rfl ?_ depthLimit (Nat.le_refl _)⟩
    intro features options' form' hoccurs hform' _
    rw [integer_occurs hoccurs] at hform'
    exact hform'.unique (formIs_of_form hform)

end Registry
end Rulebook
