import Rulebook.Proofs.Evaluation.Passing

/-!
# Runs that decide

A run decides a condition if it ends, and with a result exactly where the condition holds.
A run composed of several decides that all the conditions hold which these decide, and a
choice among branches that one of them does.  So what a program decides is read off what
it calls decides for the members of a value.
-/

namespace Rulebook

open Run

variable {α β γ : Type} {p q : Prop}

/-- The run ends, and with a result if and only if the condition holds. -/
structure Run.Decides (x : Run α) (p : Prop) : Prop where
  ends : x.run.isSome
  passes_iff : (∃ a, Passes x a) ↔ p

namespace Run.Decides

variable {x : Run α}

theorem congr (h : x.Decides p) (hpq : p ↔ q) : x.Decides q := ⟨h.ends, h.passes_iff.trans hpq⟩

theorem pure (a : α) : (Pure.pure a : Run α).Decides True :=
  ⟨rfl, iff_of_true ⟨a, rfl⟩ trivial⟩

theorem fail (f : Failure) : (Run.fail f : Run α).Decides False :=
  ⟨rfl, iff_of_false (fun ⟨_, h⟩ => not_passes_fail h) id⟩

/-- A run that decides passes or fails, as the condition holds or not. -/
theorem cases (h : x.Decides p) :
    (p ∧ ∃ a, Passes x a) ∨ (¬ p ∧ ∃ e, x.run = some (.error e)) := by
  obtain ⟨o, ho⟩ := Option.isSome_iff_exists.1 h.ends
  cases o with
  | ok a => exact Or.inl ⟨h.passes_iff.1 ⟨a, ho⟩, a, ho⟩
  | error e =>
    refine Or.inr ⟨fun hp => ?_, e, ho⟩
    obtain ⟨a, ha⟩ := h.passes_iff.2 hp
    cases ho.symm.trans ha

/-- Runs one after the other decide both conditions, if the second one does whatever the
first one leads to. -/
theorem bind {f : α → Run β} (hx : x.Decides p) (hf : ∀ a, Passes x a → (f a).Decides q) :
    (x >>= f).Decides (p ∧ q) := by
  obtain ⟨hp, a, ha⟩ | ⟨hp, e, he⟩ := hx.cases
  · have hbind : x >>= f = f a := by
      match x, ha with
      | some (.ok _), rfl => rfl
    rw [hbind]
    exact (hf a ha).congr (and_iff_right hp).symm
  · have hbind : (x >>= f).run = some (.error e) := by
      match x, he with
      | some (.error _), rfl => rfl
    refine ⟨by rw [hbind]; rfl, iff_of_false ?_ fun hpq => hp hpq.1⟩
    rintro ⟨b, hb⟩
    cases hbind.symm.trans hb

/-- A run whose result is only put into shape decides what it did. -/
theorem bind_pure {f : α → β} (hx : x.Decides p) :
    (x >>= fun a => Pure.pure (f a)).Decides p :=
  (hx.bind fun a _ => pure (f a)).congr (and_iff_left trivial)

theorem under (hx : x.Decides p) (segment : PathSegment) : (x.under segment).Decides p := by
  refine ⟨?_, ?_⟩
  · have hends := hx.ends
    match x, hends with
    | some _, _ => rfl
  · simp only [passes_under]
    exact hx.passes_iff

/-- All steps of a fold are decided. -/
theorem foldlM {f : β → α → Run β} {xs : List α} {holds : α → Prop}
    (h : ∀ a ∈ xs, ∀ b, (f b a).Decides (holds a)) (b : β) :
    (xs.foldlM f b).Decides (∀ a ∈ xs, holds a) := by
  induction xs generalizing b with
  | nil => exact (pure b).congr (iff_of_true trivial (by simp))
  | cons a xs ih =>
    rw [List.foldlM_cons, List.forall_mem_cons]
    exact (h a (List.mem_cons_self ..) b).bind fun c _ =>
      ih (fun a ha => h a (List.mem_cons_of_mem _ ha)) c

theorem mapM {f : α → Run β} {xs : List α} {holds : α → Prop}
    (h : ∀ a ∈ xs, (f a).Decides (holds a)) : (xs.mapM f).Decides (∀ a ∈ xs, holds a) := by
  induction xs with
  | nil => exact (pure []).congr (iff_of_true trivial (by simp))
  | cons a xs ih =>
    rw [List.mapM_cons, List.forall_mem_cons]
    exact (h a (List.mem_cons_self ..)).bind fun b _ =>
      (ih fun a ha => h a (List.mem_cons_of_mem _ ha)).bind_pure

end Run.Decides

variable {call : Call γ} {context : Option Context} {v : Value}

/-! ## Steps -/

/-- After the last step nothing remains to be decided. -/
theorem decides_steps_nil : (runSteps call context [] v).Decides True := .pure v

theorem decides_demand {holds : Bool} {f : Failure} :
    (demand holds f v).Decides (holds = true) := by
  rw [demand]
  cases holds with
  | false => exact (Run.Decides.fail f).congr (by simp)
  | true => exact (Run.Decides.pure _).congr (by simp)

/-- A check that demands something is decided before the steps that follow it. -/
theorem decides_check {c : Check} {holds : Bool} {f : Failure}
    (hc : c.apply context v = demand holds f v) {rest : List (Step γ)}
    (h : holds = true → (runSteps call context rest v).Decides p) :
    (runSteps call context (.check c :: rest) v).Decides (holds = true ∧ p) := by
  have happly : (Step.check c).apply call context v = demand holds f v := hc
  rw [runSteps, happly]
  refine decides_demand.bind fun flow hflow => ?_
  obtain ⟨hholds, rfl⟩ := passes_demand.1 hflow
  exact h hholds

theorem runSteps_members {s : Structure γ} :
    runSteps call context [.members s] v = s.apply call context v := by
  simp only [runSteps, Step.apply, bind_assoc, pure_bind, bind_pure]

theorem runSteps_anyOf {branches : List γ} :
    runSteps call context [.anyOf branches] v = firstOf call v branches [] := by
  simp only [runSteps, Step.apply, bind_assoc, pure_bind, bind_pure]

theorem decides_firstOf_nil {reports : List String} :
    (firstOf call v [] reports).Decides False := .fail _

/-- A choice decides that its first branch does, or that one of the others does. -/
theorem decides_firstOf_cons {b : γ} {rest : List γ} {reports : List String}
    (hb : (call b v).Decides p) (hrest : ∀ reports, (firstOf call v rest reports).Decides q) :
    (firstOf call v (b :: rest) reports).Decides (p ∨ q) := by
  rw [firstOf]
  obtain ⟨hp, w, hw⟩ | ⟨hp, e, he⟩ := hb.cases
  · have hattempt : (call b v).attempt = Pure.pure (.ok w) := passes_attempt.2 hw
    rw [hattempt, pure_bind]
    exact (Run.Decides.pure w).congr (iff_of_true trivial (Or.inl hp))
  · have hattempt : (call b v).attempt = Pure.pure (.error e) := passes_attempt.2 he
    rw [hattempt, pure_bind]
    exact (hrest _).congr (or_iff_right hp).symm

/-! ## Members of mappings -/

/-- An entry that is looked for under its key only and may be absent. -/
structure Entry.Optional (e : Entry γ) : Prop where
  synonyms : e.synonyms = []
  default : e.default = none
  required : e.required = false

theorem Entry.Optional.decides {e : Entry γ} (he : e.Optional) {input out : Entries Value}
    {holds : Value → Prop}
    (h : ∀ w, Entries.lookup e.key input = some w → (call e.callee w).Decides (holds w)) :
    (e.apply call context input out).Decides
      (∀ w, Entries.lookup e.key input = some w → holds w) := by
  have hfind : e.find? input = (Entries.lookup e.key input).map fun w => (e.key, w) := by
    rw [Entry.find?, Entry.names, he.synonyms, List.nil_append, List.findSome?_cons,
      List.findSome?_nil]
    cases Entries.lookup e.key input <;> rfl
  rw [Entry.apply, hfind]
  cases hlookup : Entries.lookup e.key input with
  | none =>
    rw [Option.map_none]
    simp only [he.default, he.required, Bool.false_eq_true, if_false]
    exact (Run.Decides.pure out).congr (by simp)
  | some w =>
    rw [Option.map_some]
    exact ((h w hlookup).under _).bind_pure.congr (by simp)

namespace MappingItems

variable {m : MappingItems γ} {input : Entries Value}

/-- Nothing remains unclaimed if and only if all keys are declared. -/
theorem unclaimed_eq_nil_iff {es : Entries Value} {b b' : Progress} (hpatterns : m.patterns = [])
    (hopen : m.openRule = none) (h : Passes (es.foldlM (m.applyOther call) b) b') :
    b'.unclaimed = [] ↔ b.unclaimed = [] ∧ ∀ e ∈ es, m.declares e.1 = true := by
  refine ⟨declares_of_unclaimed hpatterns hopen h, ?_⟩
  rintro ⟨hnone, hall⟩
  induction es generalizing b with
  | nil =>
    rw [List.foldlM_nil, passes_pure] at h
    rw [← h]
    exact hnone
  | cons e es ih =>
    rw [List.foldlM_cons, passes_bind] at h
    obtain ⟨c, hc, h⟩ := h
    have hunclaimed := unclaimed_of_applyOther hpatterns hopen hc
    rw [hall e (List.mem_cons_self ..), if_pos rfl, hnone] at hunclaimed
    exact ih h hunclaimed fun e he => hall e (List.mem_cons_of_mem _ he)

/-- Items without further keys decide what their entries do, and that there are no other
keys. -/
theorem decides_closed (holds : String → Value → Prop) (hentries : ∀ e ∈ m.entries, e.Optional)
    (hpatterns : m.patterns = []) (hopen : m.openRule = none) (hpolicy : m.policy = .forbid)
    (h : ∀ e ∈ m.entries, ∀ w, Entries.lookup e.key input = some w →
      (call e.callee w).Decides (holds e.key w)) :
    (m.apply call context input).Decides
      ((∀ e ∈ m.entries, ∀ w, Entries.lookup e.key input = some w → holds e.key w) ∧
        ∀ e ∈ input, m.declares e.1 = true) := by
  have hother : ∀ b : Progress, ∀ e ∈ input, (m.applyOther call b e).Decides True := by
    intro b e _
    rw [applyOther]
    split
    · exact .pure b
    · rw [applyPattern, hpatterns, List.find?_nil, pure_bind, applyOpen, hopen, pure_bind]
      exact .pure _
  refine Run.Decides.bind (.foldlM (fun e he b => (hentries e he).decides (h e he)) _)
    fun declared _ => ?_
  have hkeys := Run.Decides.foldlM (fun e he b => hother b e he) ⟨declared, []⟩
  refine ((hkeys.bind fun b hb => ?_).congr (and_iff_right fun _ _ => trivial) :
    Run.Decides _ (∀ e ∈ input, m.declares e.1 = true))
  have hnone := unclaimed_eq_nil_iff hpatterns hopen hb
  simp only [true_and] at hnone
  rw [hpolicy, ← hnone]
  by_cases hunclaimed : b.unclaimed = []
  · rw [if_neg fun hfail => hfail.2 hunclaimed]
    exact (Run.Decides.pure _).congr (iff_of_true trivial hunclaimed)
  · rw [if_pos ⟨rfl, hunclaimed⟩]
    exact (Run.Decides.fail _).congr (iff_of_false id hunclaimed)

/-- Items without entries and patterns leave every value to the open rule. -/
theorem applyOther_of_open {c : γ} (hentries : m.entries = []) (hpatterns : m.patterns = [])
    (hopen : m.openRule = some ⟨none, some c⟩) (b : Progress) (e : String × Value) :
    m.applyOther call b e = (call c e.2).under (.key e.1) >>= fun w =>
      pure { b with out := store e.1 e.1 w b.out } := by
  have hdeclares : m.declares e.1 = false := by
    rw [declares, hentries]
    rfl
  simp only [applyOther, hdeclares, Bool.false_eq_true, if_false, applyPattern, hpatterns,
    List.find?_nil, pure_bind, applyOpen, hopen, OpenRule.key, OpenRule.value, bind_assoc, keyText]

/-- They decide what the open rule does for all values. -/
theorem decides_open {c : γ} (hentries : m.entries = []) (hpatterns : m.patterns = [])
    (hopen : m.openRule = some ⟨none, some c⟩) {holds : Value → Prop}
    (h : ∀ e ∈ input, (call c e.2).Decides (holds e.2)) :
    (m.apply call context input).Decides (∀ e ∈ input, holds e.2) := by
  have hother : ∀ e ∈ input, ∀ b : Progress,
      (m.applyOther call b e).Decides (holds e.2) := by
    intro e he b
    rw [applyOther_of_open hentries hpatterns hopen]
    exact ((h e he).under _).bind_pure
  have hunclaimed : ∀ {es : Entries Value} {b b' : Progress},
      Passes (es.foldlM (m.applyOther call) b) b' → b'.unclaimed = b.unclaimed := by
    intro es
    induction es with
    | nil =>
      intro b b' hpass
      rw [List.foldlM_nil, passes_pure] at hpass
      rw [hpass]
    | cons e es ih =>
      intro b b' hpass
      rw [List.foldlM_cons, passes_bind] at hpass
      obtain ⟨d, hd, hpass⟩ := hpass
      rw [applyOther_of_open hentries hpatterns hopen, passes_bind] at hd
      obtain ⟨w, -, hd⟩ := hd
      rw [ih hpass, ← passes_pure.1 hd]
  rw [apply, hentries, List.foldlM_nil, pure_bind]
  refine ((Run.Decides.foldlM hother _).bind fun b hb => ?_).congr (and_iff_left trivial)
  rw [if_neg fun hfail => hfail.2 (hunclaimed hb)]
  exact .pure _

end MappingItems

/-! ## Elements of lists -/

theorem SequenceItems.decides {s : SequenceItems γ} {c : γ} (hopen : s.openRule = ⟨none, some c⟩)
    {xs : List Value} {holds : Value → Prop} (h : ∀ x ∈ xs, (call c x).Decides (holds x)) :
    (s.apply call xs).Decides (∀ x ∈ xs, holds x) := by
  have helement : ∀ e ∈ xs.zipIdx, (s.element call e.1 e.2).Decides (holds e.1) := by
    intro e he
    rw [element, hopen, OpenRule.key, pure_bind]
    exact (h e.1 (List.fst_mem_of_mem_zipIdx he)).under _
  refine (Run.Decides.mapM helement).bind_pure.congr ?_
  constructor
  · intro hall x hx
    rw [← List.zipIdx_map_fst 0 xs] at hx
    obtain ⟨e, he, rfl⟩ := List.mem_map.1 hx
    exact hall e he
  · intro hall e he
    exact hall e.1 (List.fst_mem_of_mem_zipIdx he)

/-! ## Calls -/

/-- A call decides what the steps of the program do, unless the program is under way. -/
theorem decides_follow {bindings : Bindings} {depth : Nat} {frames : List Frame} {l : Link}
    {program : Program} (hprogram : bindings.lookup l.number = some program)
    (hfree : inFlight frames (Frame.enter program.number v) = false)
    (h : (runSteps (Callee.call (follow bindings context depth
      (Frame.enter program.number v :: frames))) context program.steps v).Decides p) :
    (follow bindings context (depth + 1) frames l v).Decides p := by
  rw [follow, hprogram]
  dsimp only
  rw [Program.run, hfree]
  exact h

end Rulebook
