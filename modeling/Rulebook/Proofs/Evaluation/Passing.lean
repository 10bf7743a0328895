import Rulebook.Evaluation

/-!
# Runs that pass

A run passes with a result if it ends with it.  A run composed of several passes
only if each of them does, so that a rule which passes a value has passed what it
called for the members of the value: the declared entries, the elements of a
list, and the values of a mapping that nothing is declared for.
-/

namespace Rulebook

variable {α β γ : Type}

namespace Run

/-- The run ends with a result. -/
def Passes (x : Run α) (a : α) : Prop := x.run = some (.ok a)

theorem passes_pure {a b : α} : Passes (pure a : Run α) b ↔ a = b := by
  constructor
  · intro h
    exact Except.ok.inj (Option.some.inj h)
  · rintro rfl
    rfl

theorem passes_bind {x : Run α} {f : α → Run β} {b : β} :
    Passes (x >>= f) b ↔ ∃ a, Passes x a ∧ Passes (f a) b := by
  constructor
  · intro h
    match x with
    | none => cases h
    | some (.error e) => cases h
    | some (.ok a) => exact ⟨a, rfl, h⟩
  · rintro ⟨a, hx, hf⟩
    match x, hx with
    | some (.ok _), rfl => exact hf

theorem not_passes_fail {f : Failure} {a : α} : ¬ Passes (fail f : Run α) a := by
  intro h
  cases h

theorem not_passes_unfinished {a : α} : ¬ Passes (unfinished : Run α) a := by
  intro h
  cases h

theorem passes_under {x : Run α} {segment : PathSegment} {a : α} :
    Passes (x.under segment) a ↔ Passes x a := by
  match x with
  | none => exact Iff.rfl
  | some (.error e) =>
    constructor <;> intro h <;> cases h
  | some (.ok b) => exact Iff.rfl

theorem passes_attempt {x : Run α} {o : Except ValidationError α} :
    Passes x.attempt o ↔ x.run = some o := by
  match x with
  | none =>
    constructor <;> intro h <;> cases h
  | some o' =>
    constructor
    · intro h
      exact congrArg some (Except.ok.inj (Option.some.inj h))
    · intro h
      exact congrArg (fun o => some (Except.ok o)) (Option.some.inj h)

theorem Passes.mem_foldlM {f : β → α → Run β} {xs : List α} {b b' : β}
    (h : Passes (xs.foldlM f b) b') {x : α} (hx : x ∈ xs) : ∃ c c', Passes (f c x) c' := by
  induction xs generalizing b with
  | nil => cases hx
  | cons y ys ih =>
    rw [List.foldlM_cons, passes_bind] at h
    obtain ⟨c, hy, hys⟩ := h
    rcases List.mem_cons.1 hx with rfl | hx
    · exact ⟨b, c, hy⟩
    · exact ih hys hx

theorem Passes.mem_mapM {f : α → Run β} {xs : List α} {ys : List β} (h : Passes (xs.mapM f) ys)
    {x : α} (hx : x ∈ xs) : ∃ y, Passes (f x) y := by
  induction xs generalizing ys with
  | nil => cases hx
  | cons z zs ih =>
    simp only [List.mapM_cons, passes_bind] at h
    obtain ⟨y, hz, ws, hzs, -⟩ := h
    rcases List.mem_cons.1 hx with rfl | hx
    · exact ⟨y, hz⟩
    · exact ih hzs hx

end Run

open Run

variable {call : Call γ} {context : Option Context}

/-! ## Steps -/

theorem passes_demand {holds : Bool} {f : Failure} {v : Value} {flow : Flow} :
    Passes (demand holds f v) flow ↔ holds = true ∧ flow = .next v := by
  rw [demand]
  split
  · rename_i hholds
    rw [passes_pure]
    exact ⟨fun h => ⟨hholds, h.symm⟩, fun h => h.2.symm⟩
  · rename_i hholds
    exact ⟨fun h => (not_passes_fail h).elim, fun h => absurd h.1 hholds⟩

/-- A check of the kind comes first: the value is of that kind and goes on. -/
theorem passes_kind {k : Kind} {rest : List (Step γ)} {v w : Value} :
    Passes (runSteps call context (.check (.kind k) :: rest) v) w ↔
      k.accepts v = true ∧ Passes (runSteps call context rest v) w := by
  rw [runSteps, passes_bind]
  constructor
  · rintro ⟨flow, hflow, h⟩
    obtain ⟨hk, rfl⟩ := passes_demand.1 hflow
    exact ⟨hk, h⟩
  · rintro ⟨hk, h⟩
    exact ⟨.next v, passes_demand.2 ⟨hk, rfl⟩, h⟩

theorem passes_members {s : Structure γ} {v w : Value} :
    Passes (runSteps call context [.members s] v) w ↔ Passes (s.apply call context v) w := by
  simp only [runSteps, Step.apply, bind_assoc, pure_bind, bind_pure]

theorem passes_anyOf {branches : List γ} {v w : Value} :
    Passes (runSteps call context [.anyOf branches] v) w ↔
      Passes (firstOf call v branches []) w := by
  simp only [runSteps, Step.apply, bind_assoc, pure_bind, bind_pure]

/-- The first passing branch decides. -/
theorem passes_firstOf {branches : List γ} {v w : Value} {reports : List String}
    (h : Passes (firstOf call v branches reports) w) : ∃ b ∈ branches, Passes (call b v) w := by
  induction branches generalizing reports with
  | nil => exact (not_passes_fail h).elim
  | cons b rest ih =>
    rw [firstOf, passes_bind] at h
    obtain ⟨outcome, hb, h⟩ := h
    rw [passes_attempt] at hb
    cases outcome with
    | ok u =>
      rw [← passes_pure.1 h]
      exact ⟨b, List.mem_cons_self .., hb⟩
    | error e =>
      obtain ⟨c, hc, hpass⟩ := ih h
      exact ⟨c, List.mem_cons_of_mem _ hc, hpass⟩

/-! ## Members of mappings -/

namespace MappingItems

variable {m : MappingItems γ} {input : Entries Value} {w : Value}

/-- The value found for a declared entry passes the rule of the entry. -/
theorem passes_entry (h : Passes (m.apply call context input) w) {e : Entry γ}
    (he : e ∈ m.entries) {k : String} {v : Value} (hfind : e.find? input = some (k, v)) :
    ∃ u, Passes (call e.callee v) u := by
  rw [apply, passes_bind] at h
  obtain ⟨declared, hdeclared, -⟩ := h
  obtain ⟨out, out', hentry⟩ := hdeclared.mem_foldlM he
  rw [Entry.apply, hfind, passes_bind] at hentry
  obtain ⟨u, hu, -⟩ := hentry
  exact ⟨u, passes_under.1 hu⟩

/-- A key that is not declared and matches no pattern goes to the open rule, and
its value passes the rule for values. -/
theorem passes_open (h : Passes (m.apply call context input) w)
    (hentries : m.entries = []) (hpatterns : m.patterns = []) {c : γ}
    (hopen : m.openRule = some ⟨none, some c⟩) {e : String × Value} (he : e ∈ input) :
    ∃ u, Passes (call c e.2) u := by
  rw [apply, passes_bind] at h
  obtain ⟨declared, -, h⟩ := h
  rw [passes_bind] at h
  obtain ⟨p, hp, -⟩ := h
  obtain ⟨q, q', hother⟩ := hp.mem_foldlM he
  have hdeclares : m.declares e.1 = false := by rw [declares, hentries]; rfl
  rw [applyOther, hdeclares, if_neg Bool.false_ne_true, passes_bind] at hother
  obtain ⟨claimed, hclaimed, hother⟩ := hother
  rw [applyPattern, hpatterns, List.find?_nil, passes_pure] at hclaimed
  subst hclaimed
  rw [passes_bind] at hother
  obtain ⟨claimed, hclaimed, -⟩ := hother
  rw [applyOpen, hopen, passes_bind] at hclaimed
  obtain ⟨output, houtput, hclaimed⟩ := hclaimed
  rw [OpenRule.key, passes_pure] at houtput
  subst houtput
  rw [passes_bind] at hclaimed
  obtain ⟨u, hu, -⟩ := hclaimed
  exact ⟨u, passes_under.1 hu⟩

/-- Keys that nothing claims are only added. -/
theorem unclaimed_of_applyOther {p p' : Progress} {e : String × Value}
    (hpatterns : m.patterns = []) (hopen : m.openRule = none)
    (h : Passes (m.applyOther call p e) p') :
    p'.unclaimed = if m.declares e.1 then p.unclaimed else p.unclaimed ++ [e.1] := by
  rw [applyOther] at h
  split at h
  · rw [← passes_pure.1 h, if_pos ‹_›]
  · rw [passes_bind] at h
    obtain ⟨claimed, hclaimed, h⟩ := h
    rw [applyPattern, hpatterns, List.find?_nil, passes_pure] at hclaimed
    subst hclaimed
    rw [passes_bind] at h
    obtain ⟨claimed, hclaimed, h⟩ := h
    rw [applyOpen, hopen, passes_pure] at hclaimed
    subst hclaimed
    rw [← passes_pure.1 h, if_neg ‹_›]

theorem declares_of_unclaimed {es : Entries Value} {p p' : Progress}
    (hpatterns : m.patterns = []) (hopen : m.openRule = none)
    (h : Passes (es.foldlM (m.applyOther call) p) p') (hnone : p'.unclaimed = []) :
    p.unclaimed = [] ∧ ∀ e ∈ es, m.declares e.1 = true := by
  induction es generalizing p with
  | nil =>
    rw [List.foldlM_nil, passes_pure] at h
    rw [h]
    exact ⟨hnone, by simp⟩
  | cons e es ih =>
    rw [List.foldlM_cons, passes_bind] at h
    obtain ⟨q, hq, h⟩ := h
    obtain ⟨hnone', hrest⟩ := ih h
    have hunclaimed := unclaimed_of_applyOther hpatterns hopen hq
    rw [hnone'] at hunclaimed
    split at hunclaimed
    · rename_i hdeclares
      refine ⟨hunclaimed.symm, ?_⟩
      intro e' he'
      rcases List.mem_cons.1 he' with rfl | he'
      · exact hdeclares
      · exact hrest e' he'
    · exact absurd hunclaimed.symm (List.append_ne_nil_of_right_ne_nil _ (List.cons_ne_nil _ _))

/-- Where unknown keys are forbidden every key is declared. -/
theorem passes_forbid (h : Passes (m.apply call context input) w)
    (hpatterns : m.patterns = []) (hopen : m.openRule = none) (hpolicy : m.policy = .forbid) :
    ∀ e ∈ input, m.declares e.1 = true := by
  rw [apply, passes_bind] at h
  obtain ⟨declared, -, h⟩ := h
  rw [passes_bind] at h
  obtain ⟨p, hp, h⟩ := h
  have hnone : p.unclaimed = [] := by
    by_cases hnone : p.unclaimed = []
    · exact hnone
    · rw [if_pos ⟨hpolicy, hnone⟩] at h
      exact (not_passes_fail h).elim
  exact (declares_of_unclaimed hpatterns hopen hp hnone).2

end MappingItems

/-! ## Elements of lists -/

/-- The elements of a list pass the rule for values. -/
theorem SequenceItems.passes_element {q : SequenceItems γ} {xs : List Value} {w : Value}
    (h : Passes (q.apply call xs) w) {c : γ} (hopen : q.openRule = ⟨none, some c⟩) {x : Value}
    (hx : x ∈ xs) : ∃ u, Passes (call c x) u := by
  rw [apply, passes_bind] at h
  obtain ⟨ys, hys, -⟩ := h
  obtain ⟨i, hi⟩ : ∃ i, (x, i) ∈ xs.zipIdx := by
    obtain ⟨i, hi, rfl⟩ := List.getElem_of_mem hx
    exact ⟨i, List.mem_zipIdx_iff_getElem?.2 (List.getElem?_eq_getElem hi)⟩
  obtain ⟨y, hy⟩ := hys.mem_mapM hi
  rw [element, hopen, passes_bind] at hy
  obtain ⟨output, houtput, hy⟩ := hy
  rw [OpenRule.key, passes_pure] at houtput
  subst houtput
  exact ⟨y, passes_under.1 hy⟩

/-! ## Calls -/

variable {bindings : Bindings} {depth : Nat} {frames : List Frame} {l : Link} {v w : Value}

/-- A call passes if the program of its link breaks loops and is under way, or its steps
pass. -/
theorem passes_follow_succ_iff : Passes (follow bindings context (depth + 1) frames l v) w ↔
    ∃ p, bindings.lookup l.number = some p ∧
      ((inFlight frames (Frame.enter p.number v) = true ∧ p.breakLoops = true ∧ v = w) ∨
        (inFlight frames (Frame.enter p.number v) = false ∧
          Passes (runSteps (Callee.call (follow bindings context depth
            (Frame.enter p.number v :: frames))) context p.steps v) w)) := by
  rw [follow]
  cases bindings.lookup l.number with
  | none => simp [not_passes_fail]
  | some p =>
    cases hflight : inFlight frames (Frame.enter p.number v) with
    | true => cases hloops : p.breakLoops <;>
        simp [Program.run, hflight, hloops, passes_pure, not_passes_fail]
    | false => simp [Program.run, hflight]

/-- A call that passes has run the program of its link, unless it met a loop. -/
theorem passes_follow (h : Passes (follow bindings context depth frames l v) w) :
    ∃ depth' p, bindings.lookup l.number = some p ∧
      (inFlight frames (Frame.enter p.number v) = false →
        Passes (runSteps (Callee.call (follow bindings context depth'
          (Frame.enter p.number v :: frames))) context p.steps v) w) := by
  cases depth with
  | zero => exact (not_passes_unfinished h).elim
  | succ depth =>
    obtain ⟨p, hp, ⟨hflight, -⟩ | ⟨-, hsteps⟩⟩ := passes_follow_succ_iff.1 h
    · exact ⟨depth, p, hp, fun hfree => by cases hflight.symm.trans hfree⟩
    · exact ⟨depth, p, hp, fun _ => hsteps⟩

end Rulebook
