import Rulebook.Proofs.Compilation.Draining
import Rulebook.Proofs.Registry.SchemaOfSchemas
import Rulebook.Proofs.Registry.Termination
import Rulebook.Registration

/-!
# Where registration ends

Rules are checked against the schema of schemas, compiled and tried on their
examples.  The schema of schemas only ever calls on with parts of what it was given,
so that the check ends.  The compilation ends unless some rule comes to contain
itself, and the trial unless some example is one whose check does not end.  In all
other cases registration has an outcome, which no greater depth changes.
-/

namespace Rulebook

variable {α β : Type}

/-- From some depth on there is one outcome, a result or a refusal. -/
def Settles (x : Nat → Except SchemaError α) : Prop :=
  ∃ depth outcome, Ends outcome ∧ ∀ depth', depth ≤ depth' → x depth' = outcome

theorem settles_of_ends {x : Except SchemaError α} (h : Ends x) : Settles fun _ => x :=
  ⟨0, x, h, fun _ _ => rfl⟩

theorem Settles.bind {x : Nat → Except SchemaError α} {f : Nat → α → Except SchemaError β}
    (hx : Settles x) (hf : ∀ a depth, x depth = .ok a → Settles fun d => f d a) :
    Settles fun depth => x depth >>= f depth := by
  obtain ⟨depth, outcome, hends, hx⟩ := hx
  cases outcome with
  | error e =>
    refine ⟨depth, .error e, ends_error fun label h => hends label (congrArg Except.error h), ?_⟩
    intro depth' hle
    dsimp only
    rw [hx depth' hle]
    rfl
  | ok a =>
    obtain ⟨depth', outcome, hends', hf⟩ := hf a depth (hx depth (Nat.le_refl _))
    refine ⟨max depth depth', outcome, hends', fun depth'' hle => ?_⟩
    dsimp only
    rw [hx depth'' ((Nat.le_max_left ..).trans hle)]
    exact hf depth'' ((Nat.le_max_right ..).trans hle)

theorem settles_forM {f : Nat → α → Except SchemaError Unit} {as : List α}
    (h : ∀ a ∈ as, Settles fun depth => f depth a) : Settles fun depth => as.forM (f depth) := by
  induction as with
  | nil => exact settles_of_ends (ends_ok _)
  | cons a as ih =>
    refine (h a (List.mem_cons_self ..)).bind fun _ _ _ => ?_
    exact ih fun b hb => h b (List.mem_cons_of_mem _ hb)

/-- A call that ends has one outcome from some depth on. -/
theorem settles_of_ending {bindings : Bindings} {context : Option Context} {l : Link} {v : Value}
    (h : ∃ depth, (evaluate depth bindings context l v).isSome)
    (judge : Option (Except ValidationError Value) → Except SchemaError α)
    (hjudge : ∀ o, Ends (judge (some o))) :
    Settles fun depth => judge (evaluate depth bindings context l v) := by
  obtain ⟨depth, hsome⟩ := h
  obtain ⟨o, ho⟩ := Option.isSome_iff_exists.1 hsome
  refine ⟨depth, judge (some o), hjudge o, fun depth' hle => ?_⟩
  exact congrArg judge (evaluate_of_le hle ho)

/-! ## The check of the rules -/

instance (p : Program) : Decidable p.Passive :=
  inferInstanceAs (Decidable (p.steps.Pairwise fun s t =>
    s.keepsValue = true ∨ t.callees.isEmpty = true))

namespace SchemaOfSchemas

theorem ends_judge (o : Except ValidationError Value) : Ends (judge (some o)) := by
  cases o with
  | ok w => exact ends_ok ()
  | error e => exact ends_error fun _ h => by cases h

set_option maxRecDepth 100000 in
/-- The schemas are there, and their programs hand on what they were given. -/
theorem registry_passive : registry.toOption.map (fun r => (r.get? batchRoot).isSome &&
    r.bindings.all fun e => decide e.2.Passive) = some true := by
  decide +kernel

/-- The check of a batch ends. -/
theorem settles_check (batch : Entries Value) : Settles fun depth => check depth batch := by
  have hclosed := registry_passive
  cases hr : registry with
  | error e =>
    rw [hr] at hclosed
    cases hclosed
  | ok r =>
    rw [hr] at hclosed
    obtain ⟨hroot, hpassive⟩ := Bool.and_eq_true_iff.1 (Option.some.inj hclosed)
    obtain ⟨v, hv⟩ := Option.isSome_iff_exists.1 hroot
    have hlink : v.link.Passive r.bindings := by
      intro l p _ hp
      exact of_decide_eq_true (List.all_eq_true.1 hpassive _ (Linkage.mem_of_lookup hp))
    simp only [check_eq hr hv]
    exact settles_of_ending (follow_ends_of_passive hlink _) judge ends_judge

end SchemaOfSchemas

namespace Registry

open Source

/-! ## The trial of the examples -/

theorem ends_judgePositive (c : ExampleCase) (candidate : Value) (o : Except ValidationError Value) :
    Ends (judgePositive c candidate (some o)) := by
  cases o with
  | ok w => exact ends_ok ()
  | error e => exact ends_error fun _ h => by cases h

theorem ends_judgeNegative (c : ExampleCase) (candidate : Value) (o : Except ValidationError Value) :
    Ends (judgeNegative c candidate (some o)) := by
  cases o with
  | ok w => exact ends_error fun _ h => by cases h
  | error e => exact ends_ok ()

/-- Some example of the staged batch is one whose check does not end. -/
def EndlessExample (r : Registry) (st : Staging) : Prop :=
  ∃ c ∈ st.examples, ∃ candidate ∈ c.positive ++ c.negative,
    ∀ depth, evaluate depth (st.bindings ++ r.bindings) none c.link candidate = none

theorem settles_replay {r : Registry} {st : Staging} (h : ¬ r.EndlessExample st) :
    Settles fun depth => r.replay depth st := by
  have hends : ∀ c ∈ st.examples, ∀ candidate ∈ c.positive ++ c.negative, ∃ depth,
      (evaluate depth (st.bindings ++ r.bindings) none c.link candidate).isSome := by
    intro c hc candidate hcandidate
    by_contra hnone
    refine h ⟨c, hc, candidate, hcandidate, fun depth => ?_⟩
    exact Option.not_isSome_iff_eq_none.1 fun hsome => hnone ⟨depth, hsome⟩
  refine settles_forM fun c hc => ?_
  refine Settles.bind (settles_forM fun v hv => ?_) fun _ _ _ => settles_forM fun v hv => ?_
  · exact settles_of_ending (hends c hc v (List.mem_append_left _ hv)) (judgePositive c v)
      (ends_judgePositive c v)
  · exact settles_of_ending (hends c hc v (List.mem_append_right _ hv)) (judgeNegative c v)
      (ends_judgeNegative c v)

/-! ## Registration -/

theorem ends_stage {r : Registry} {batch : Entries Value} {options : Options}
    (hforms : ∀ features o, (r.source batch options).Occurs features o →
      ¬ (r.source batch options).Recurs features) :
    Ends (r.stage batch options) := by
  rw [stage]
  exact (ends_compileBatch hforms (ready_start batch options)).bind fun _ _ => ends_ok _

theorem settles_accept {r : Registry} {batch : Entries Value} {options : Options}
    (hforms : ∀ features o, (r.source batch options).Occurs features o →
      ¬ (r.source batch options).Recurs features)
    (hexamples : options.validateSchemas = true → ∀ st, r.stage batch options = .ok st →
      ¬ r.EndlessExample st) :
    Settles fun depth => r.accept depth batch options := by
  have hstage := settles_of_ends (ends_stage hforms)
  cases hvalidate : options.validateSchemas with
  | false =>
    simp only [accept, hvalidate, Bool.false_eq_true, if_false]
    exact hstage.bind fun st _ _ => settles_of_ends (ends_ok st)
  | true =>
    simp only [accept, hvalidate, if_true]
    refine (SchemaOfSchemas.settles_check batch).bind fun _ _ _ => ?_
    refine hstage.bind fun st _ hst => ?_
    refine (settles_replay (hexamples hvalidate st hst)).bind fun _ _ _ => ?_
    exact settles_of_ends (ends_ok st)

/-- Registration ends: flattening always does, unfolding a rule does where the rule
does not come to contain itself, and the registration of a batch has an outcome from
some depth on, unless a rule of the batch comes to contain itself or the check of one
of its examples does not end. -/
theorem registration_ends (r : Registry) (schemas : Value) (options : Options) :
    (∀ (s : Source) features label, Ends (s.flatten features label)) ∧
    (∀ (s : Source) features label, ¬ s.Recurs features → Ends (s.form features label)) ∧
    (Settles (fun depth => r.registerWithin depth schemas options) ∨
      ∃ submitted, schemas = .mapping submitted ∧
        ((∃ features o, (r.source (prepare submitted options) options).Occurs features o ∧
            (r.source (prepare submitted options) options).Recurs features) ∨
          (options.validateSchemas = true ∧ ∃ st,
            r.stage (prepare submitted options) options = .ok st ∧ r.EndlessExample st))) := by
  refine ⟨fun s features label => ends_flatten features label,
    fun s features label h => ends_form h label, ?_⟩
  cases schemas with
  | mapping submitted =>
    by_contra hnone
    obtain ⟨hunsettled, hothers⟩ := not_or.1 hnone
    refine hunsettled (Settles.bind (settles_accept ?_ ?_) fun st _ _ => settles_of_ends (ends_ok _))
    · exact fun features o hoccurs hrecurs =>
        hothers ⟨submitted, rfl, Or.inl ⟨features, o, hoccurs, hrecurs⟩⟩
    · exact fun hvalidate st hst hendless =>
        hothers ⟨submitted, rfl, Or.inr ⟨hvalidate, st, hst, hendless⟩⟩
  | _ => exact Or.inl (settles_of_ends (ends_error fun _ h => by cases h))

/-! ## A rule that contains itself -/

/-- The features of a rule with an inner rule that inherits. -/
def inheriting (key base : String) : Entries Value :=
  [("items", .mapping [(key, .mapping [(baseFeature, .text base)])])]

/-- A rule with an inner rule that inherits from a second one, and the second one, whose
inner rule does so as well. -/
def unfoldingRules : Entries Value :=
  [("a", .mapping (inheriting "x" "c")), ("c", .mapping (inheriting "y" "c"))]

/-- What these rules are compiled from. -/
def unfolding : Source := (Registry.empty {} ⟨[]⟩ id).source (prepare unfoldingRules {}) {}

theorem flatten_unfolding :
    unfolding.flatten [(baseFeature, .text "c")] "a" = .ok (inheriting "y" "c") := rfl

theorem contains_inheriting (key : String) :
    unfolding.Contains (inheriting key "c") (inheriting "y" "c") := by
  refine ⟨[(baseFeature, .text "c")], ?_, flattenInline_of_flatten flatten_unfolding⟩
  exact .entry (Or.inl rfl) rfl (List.mem_singleton_self _)

/-- The second rule contains itself, and the first one comes to contain it. -/
theorem recurs_unfolding : unfolding.Recurs (inheriting "x" "c") :=
  ⟨inheriting "y" "c", .single (contains_inheriting "x"), .single (contains_inheriting "y")⟩

theorem formWith_inheriting {s : Source} {sub : Value → Except SchemaError Value}
    {key base : String} {e : SchemaError}
    (hsub : sub (.mapping [(baseFeature, .text base)]) = .error e) :
    s.formWith sub (inheriting key base) = .error e := by
  have hentry : s.entryForm sub (key, .mapping [(baseFeature, .text base)]) = .error e := by
    change (sub _ >>= fun form => pure (key, form)) = _
    rw [hsub]
    rfl
  have hentries : s.ruleMapForm sub (.mapping [(key, .mapping [(baseFeature, .text base)])]) =
      .error e := by
    rw [ruleMapForm, List.mapM_cons, hentry]
    rfl
  have hitems : reform "items" (s.ruleMapForm sub) (inheriting key base) = .error e := by
    change (s.ruleMapForm sub _ >>= fun changed => pure _) = _
    rw [hentries]
    rfl
  rw [formWith, hitems]
  rfl

/-- Unfolding the rule ends at no depth. -/
theorem formOf_unfolding (depth : Nat) (key : String) :
    unfolding.formOf (fun es => unfolding.flatten es "a") "a" depth (inheriting key "c") =
      .error (.endless "a") := by
  induction depth generalizing key with
  | zero => rfl
  | succ depth ih =>
    have hsub : subForm (fun es => unfolding.flatten es "a")
        (unfolding.formOf (fun es => unfolding.flatten es "a") "a" depth)
        (.mapping [(baseFeature, .text "c")]) = .error (.endless "a") := by
      rw [subForm, flatten_unfolding]
      exact ih "y"
    rw [formOf, formWith_inheriting hsub]
    rfl

/-- Whether a registration fails with the error. -/
def failsWith (e : SchemaError) : Except SchemaError Registry → Bool
  | .ok _ => false
  | .error e' => decide (e' = e)

theorem eq_error_of_failsWith {e : SchemaError} {x : Except SchemaError Registry}
    (h : failsWith e x = true) : x = .error e := by
  cases x with
  | ok r => exact absurd h Bool.false_ne_true
  | error e' => exact congrArg Except.error (of_decide_eq_true h)

set_option maxRecDepth 100000 in
/-- No form is found for the first rule, although the rules are what the schema of
schemas demands. -/
theorem register_unfolding : (Registry.empty {} ⟨[]⟩ id).register (.mapping unfoldingRules) =
    .error (.endless "a") :=
  eq_error_of_failsWith (by decide +kernel)

end Registry
end Rulebook
