import Rulebook.Proofs.Evaluation.Passing

/-!
# Runs that fail

A run fails with an error if it ends with it.  A run composed of several fails where one of
them does: the first, or a later one on what the others led to.

A check fails at the value that it was given, and so does a choice among branches, which
keeps the errors of its branches to itself.
-/

namespace Rulebook

variable {α β γ : Type}

namespace Run

/-- The run ends with an error. -/
def Fails (x : Run α) (e : ValidationError) : Prop := x.run = some (.error e)

variable {e : ValidationError}

theorem not_fails_pure {a : α} : ¬ Fails (pure a : Run α) e := by
  intro h
  cases h

theorem not_fails_unfinished : ¬ Fails (unfinished : Run α) e := by
  intro h
  cases h

theorem not_fails_attempt {x : Run α} : ¬ Fails x.attempt e := by
  intro h
  match x, h with
  | none, h => cases h
  | some _, h => cases h

theorem fails_fail {f : Failure} : Fails (fail f : Run α) e ↔ e = .here f := by
  constructor
  · intro h
    exact (Except.error.inj (Option.some.inj h)).symm
  · rintro rfl
    rfl

theorem fails_ofExcept {o : Except ValidationError α} : Fails (ofExcept o) e ↔ o = .error e := by
  constructor
  · intro h
    exact Option.some.inj h
  · rintro rfl
    rfl

/-- The first run fails, or the second one on what the first led to. -/
theorem fails_bind {x : Run α} {f : α → Run β} :
    Fails (x >>= f) e ↔ Fails x e ∨ ∃ a, Passes x a ∧ Fails (f a) e := by
  constructor
  · intro h
    match x with
    | none => cases h
    | some (.error e') =>
      cases h
      exact Or.inl rfl
    | some (.ok a) => exact Or.inr ⟨a, rfl, h⟩
  · rintro (hx | ⟨a, hx, hf⟩)
    · match x, hx with
      | some (.error _), rfl => rfl
    · match x, hx with
      | some (.ok _), rfl => exact hf

/-- A run whose result is only put into shape fails as it did. -/
theorem fails_bind_pure {x : Run α} {f : α → β} :
    Fails (x >>= fun a => pure (f a)) e ↔ Fails x e := by
  rw [fails_bind]
  constructor
  · rintro (hx | ⟨a, -, ha⟩)
    · exact hx
    · exact (not_fails_pure ha).elim
  · exact Or.inl

theorem fails_under {x : Run α} {segment : PathSegment} :
    Fails (x.under segment) e ↔ ∃ e', Fails x e' ∧ e = e'.within segment := by
  match x with
  | none =>
    constructor
    · intro h
      cases h
    · rintro ⟨e', h, -⟩
      cases h
  | some (.ok a) =>
    constructor
    · intro h
      cases h
    · rintro ⟨e', h, -⟩
      cases h
  | some (.error e') =>
    constructor
    · intro h
      exact ⟨e', rfl, (Except.error.inj (Option.some.inj h)).symm⟩
    · rintro ⟨e'', h, rfl⟩
      rw [show e' = e'' from Except.error.inj (Option.some.inj h)]
      rfl

/-- A fold fails at one of its steps. -/
theorem Fails.mem_foldlM {f : β → α → Run β} {xs : List α} {b : β}
    (h : Fails (xs.foldlM f b) e) : ∃ x ∈ xs, ∃ c, Fails (f c x) e := by
  induction xs generalizing b with
  | nil => exact (not_fails_pure h).elim
  | cons y ys ih =>
    rw [List.foldlM_cons, fails_bind] at h
    rcases h with hy | ⟨c, -, hys⟩
    · exact ⟨y, List.mem_cons_self .., b, hy⟩
    · obtain ⟨x, hx, hfails⟩ := ih hys
      exact ⟨x, List.mem_cons_of_mem _ hx, hfails⟩

theorem Fails.mem_mapM {f : α → Run β} {xs : List α} (h : Fails (xs.mapM f) e) :
    ∃ x ∈ xs, Fails (f x) e := by
  induction xs with
  | nil => exact (not_fails_pure h).elim
  | cons y ys ih =>
    rw [List.mapM_cons, fails_bind] at h
    rcases h with hy | ⟨c, -, h⟩
    · exact ⟨y, List.mem_cons_self .., hy⟩
    · obtain ⟨x, hx, hfails⟩ := ih (fails_bind_pure.1 h)
      exact ⟨x, List.mem_cons_of_mem _ hx, hfails⟩

end Run

open Run

variable {call : Call γ} {context : Option Context} {v : Value} {e : ValidationError}

/-! ## Failures at the value itself -/

theorem path_of_fails_fail {f : Failure} (h : Fails (fail f : Run α) e) : e.path = [] := by
  rw [fails_fail.1 h]
  rfl

theorem Substitute.path_of_fails {s : Substitute} (h : Fails (s.resolve context) e) :
    e.path = [] := by
  cases s with
  | literal v => exact (not_fails_pure h).elim
  | parameter name =>
    rw [resolve] at h
    split at h
    · exact (not_fails_pure h).elim
    · exact path_of_fails_fail h

theorem Coercer.path_of_fails {c : Coercer} (h : Fails (Run.ofExcept (c.apply v context)) e) :
    e.path = [] := by
  have herror := fails_ofExcept.1 h
  cases c with
  | builtin b =>
    rw [apply] at herror
    split at herror
    · cases herror
    · cases herror
      rfl
  | custom name coercion =>
    rw [apply] at herror
    split at herror
    · cases herror
    · cases herror
      rfl

theorem path_of_fails_demand {holds : Bool} {f : Failure} (h : Fails (demand holds f v) e) :
    e.path = [] := by
  cases holds with
  | true => exact (not_fails_pure h).elim
  | false => exact path_of_fails_fail h

/-- A check fails at the value that it was given. -/
theorem Check.path_of_fails {c : Check} (h : Fails (c.apply context v) e) : e.path = [] := by
  cases c with
  | nullable fallback post =>
    rw [Check.apply] at h
    split at h
    · cases fallback with
      | some f =>
        rcases fails_bind.1 h with hsubstitute | ⟨substitute, -, h⟩
        · exact Substitute.path_of_fails hsubstitute
        · cases post with
          | some c => exact Coercer.path_of_fails (fails_bind_pure.1 h)
          | none => exact (not_fails_pure h).elim
      | none =>
        cases post with
        | some c => exact Coercer.path_of_fails (fails_bind_pure.1 h)
        | none => exact (not_fails_pure h).elim
    · exact (not_fails_pure h).elim
  | coerce c => exact Coercer.path_of_fails (fails_bind_pure.1 h)
  | postCoerce c => exact Coercer.path_of_fails (fails_bind_pure.1 h)
  | remap r => exact (not_fails_pure h).elim
  | _ => exact path_of_fails_demand h

/-- The first of several branches keeps the errors of all branches in its report. -/
theorem path_of_fails_firstOf {branches : List γ} {reports : List String}
    (h : Fails (firstOf call v branches reports) e) : e.path = [] := by
  induction branches generalizing reports with
  | nil => exact path_of_fails_fail h
  | cons b rest ih =>
    rcases fails_bind.1 h with hattempt | ⟨outcome, -, h⟩
    · exact (not_fails_attempt hattempt).elim
    · cases outcome with
      | ok w => exact (not_fails_pure h).elim
      | error e' => exact ih h

theorem path_of_fails_onlyOf {branches : List γ} (h : Fails (onlyOf call v branches) e) :
    e.path = [] := by
  rcases fails_bind.1 h with hbranches | ⟨outcomes, -, h⟩
  · obtain ⟨b, -, hb⟩ := hbranches.mem_mapM
    exact (not_fails_attempt hb).elim
  · split at h
    · exact (not_fails_pure h).elim
    · exact path_of_fails_fail h

/-- A rule for keys keeps its errors to itself. -/
theorem OpenRule.not_fails_key {r : OpenRule γ} {k : Value} : ¬ Fails (r.key call k) e := by
  intro h
  rw [key] at h
  split at h
  · exact not_fails_pure h
  · rcases fails_bind.1 h with hattempt | ⟨outcome, -, h⟩
    · exact not_fails_attempt hattempt
    · cases outcome with
      | ok w => exact not_fails_pure h
      | error e' => exact not_fails_pure h

/-- A call fails if nothing is bound to its link, or the program is under way and does not
break loops, or its steps fail. -/
theorem fails_follow_succ_iff {bindings : Bindings} {depth : Nat} {frames : List Frame}
    {l : Link} : Fails (follow bindings context (depth + 1) frames l v) e ↔
      (bindings.lookup l.number = none ∧ e = .here (.undefinedSchema l.name)) ∨
        ∃ p, bindings.lookup l.number = some p ∧
          ((inFlight frames (Frame.enter p.number v) = true ∧ p.breakLoops = false ∧
              e = .here (.reentered l.name)) ∨
            (inFlight frames (Frame.enter p.number v) = false ∧
              Fails (runSteps (Callee.call (follow bindings context depth
                (Frame.enter p.number v :: frames))) context p.steps v) e)) := by
  rw [follow]
  cases bindings.lookup l.number with
  | none => simp [fails_fail]
  | some p =>
    cases hflight : inFlight frames (Frame.enter p.number v) with
    | true => cases hloops : p.breakLoops <;>
        simp [Program.run, hflight, hloops, fails_fail, not_fails_pure]
    | false => simp [Program.run, hflight]

end Rulebook
