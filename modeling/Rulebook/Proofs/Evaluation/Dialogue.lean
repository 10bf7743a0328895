import Rulebook.Evaluation

/-!
# Dialogues

What steps do depends on the outcomes of their calls and on nothing else that
calls do.  A dialogue is a run in which the calls are left open: it is over, with
an outcome, or asks for the outcome of one call and goes on with it.  A way of
calling rules answers the questions and turns the dialogue into a run.

The questions that a way of calling is asked are listed in their order.  The run
ends if and only if each of them is answered.
-/

namespace Rulebook

variable {α β γ : Type}

/-- A run whose calls are left open. -/
inductive Dialogue (γ α : Type) where
  | done (o : Except ValidationError α)
  /-- A call of a rule with a value, and what follows its outcome. -/
  | ask (c : γ) (v : Value) (next : Except ValidationError Value → Dialogue γ α)

namespace Dialogue

/-- The run in which calls are answered in some way. -/
def run (call : Call γ) : Dialogue γ α → Run α
  | done o => Run.ofExcept o
  | ask c v next => do
      let o ← (call c v).attempt
      (next o).run call

/-- One dialogue after another. -/
protected def bind : Dialogue γ α → (α → Dialogue γ β) → Dialogue γ β
  | done (.ok a), f => f a
  | done (.error e), _ => done (.error e)
  | ask c v next, f => ask c v fun o => (next o).bind f

instance : Monad (Dialogue γ) where
  pure a := done (.ok a)
  bind := Dialogue.bind

/-- A dialogue whose outcome is seen differently. -/
def mapOutcome (f : Except ValidationError α → Except ValidationError β) :
    Dialogue γ α → Dialogue γ β
  | done o => done (f o)
  | ask c v next => ask c v fun o => (next o).mapOutcome f

/-- The outcome of a dialogue as a result. -/
def attempt (d : Dialogue γ α) : Dialogue γ (Except ValidationError α) := d.mapOutcome Except.ok

/-- A dialogue for a member of a container. -/
def under (segment : PathSegment) (d : Dialogue γ α) : Dialogue γ α :=
  d.mapOutcome fun o => o.mapError (ValidationError.within segment)

/-- The dialogue that fails. -/
def fail (f : Failure) : Dialogue γ α := done (.error (.here f))

/-- The dialogue that consists of one call. -/
def call (c : γ) (v : Value) : Dialogue γ Value := ask c v done

instance : LawfulMonad (Dialogue γ) := by
  refine LawfulMonad.mk' _ (fun d => ?_) (fun _ _ => rfl) (fun d f g => ?_)
  · induction d with
    | done o => cases o <;> rfl
    | ask c v next ih => exact congrArg (ask c v) (funext ih)
  · induction d with
    | done o => cases o <;> rfl
    | ask c v next ih => exact congrArg (ask c v) (funext ih)

/-! ## Answering -/

section

variable {answer : Call γ}

@[simp]
theorem run_done (o : Except ValidationError α) :
    (done o : Dialogue γ α).run answer = Run.ofExcept o := rfl

@[simp]
theorem run_pure (a : α) : (pure a : Dialogue γ α).run answer = pure a := rfl

@[simp]
theorem run_fail (f : Failure) : (fail f : Dialogue γ α).run answer = Run.fail f := rfl

@[simp]
theorem run_bind (d : Dialogue γ α) (f : α → Dialogue γ β) :
    (d >>= f).run answer = d.run answer >>= fun a => (f a).run answer := by
  induction d with
  | done o => cases o <;> rfl
  | ask c v next ih =>
    have hnext : (ask c v next >>= f).run answer =
        (answer c v).attempt >>= fun o => (next o >>= f).run answer := rfl
    rw [hnext, run, bind_assoc]
    exact congrArg _ (funext ih)

theorem run_mapOutcome (f : Except ValidationError α → Except ValidationError β)
    (d : Dialogue γ α) : (d.mapOutcome f).run answer = ExceptT.mk ((d.run answer).run.map f) := by
  induction d with
  | done o => rfl
  | ask c v next ih =>
    simp only [mapOutcome, run, ih]
    generalize answer c v = x
    match x with
    | none => rfl
    | some _ => rfl

@[simp]
theorem run_attempt (d : Dialogue γ α) : d.attempt.run answer = (d.run answer).attempt :=
  run_mapOutcome _ d

@[simp]
theorem run_under (segment : PathSegment) (d : Dialogue γ α) :
    (d.under segment).run answer = (d.run answer).under segment :=
  run_mapOutcome _ d

@[simp]
theorem run_call (c : γ) (v : Value) : (call c v).run answer = answer c v := by
  rw [call, run]
  generalize answer c v = x
  match x with
  | none => rfl
  | some _ => rfl

theorem run_foldlM {f : β → α → Dialogue γ β} {g : β → α → Run β}
    (hfg : ∀ b a, (f b a).run answer = g b a) (as : List α) (b : β) :
    (as.foldlM f b).run answer = as.foldlM g b := by
  induction as generalizing b with
  | nil => rfl
  | cons a as ih => simp only [List.foldlM_cons, run_bind, hfg, ih]

theorem run_mapM {f : α → Dialogue γ β} {g : α → Run β} (hfg : ∀ a, (f a).run answer = g a)
    (as : List α) : (as.mapM f).run answer = as.mapM g := by
  induction as with
  | nil => rfl
  | cons a as ih => simp only [List.mapM_cons, run_bind, run_pure, hfg, ih]

end

/-! ## Questions -/

/-- The questions that a way of calling is asked, up to the first that it does not
answer. -/
def asked (answer : Call γ) : Dialogue γ α → List (γ × Value)
  | done _ => []
  | ask c v next =>
      (c, v) ::
        match (answer c v).run with
        | some o => (next o).asked answer
        | none => []

theorem run_ask (answer : Call γ) (c : γ) (v : Value)
    (next : Except ValidationError Value → Dialogue γ α) :
    ((ask c v next).run answer).run =
      (answer c v).run.bind fun o => ((next o).run answer).run := by
  rw [run]
  generalize answer c v = x
  match x with
  | none => rfl
  | some _ => rfl

/-- A run ends if and only if all its questions are answered. -/
theorem ends_iff (answer : Call γ) (d : Dialogue γ α) :
    (d.run answer).run.isSome ↔ ∀ e ∈ d.asked answer, (answer e.1 e.2).run.isSome := by
  induction d with
  | done o => simp [asked, Run.ofExcept, ExceptT.run, ExceptT.mk]
  | ask c v next ih =>
    rw [run_ask, asked, List.forall_mem_cons]
    cases h : (answer c v).run with
    | none => simp
    | some o => simpa using ih o

/-- Where a run ends, a way of calling that does not contradict its answers is asked
nothing else. -/
theorem asked_subset {answer answer' : Call γ}
    (hagree : ∀ c v o o', (answer c v).run = some o → (answer' c v).run = some o' → o = o')
    (d : Dialogue γ α) (hends : (d.run answer).run.isSome) : d.asked answer' ⊆ d.asked answer := by
  induction d with
  | done o => exact List.Subset.refl _
  | ask c v next ih =>
    rw [run_ask] at hends
    rw [asked, asked]
    refine List.cons_subset_cons _ ?_
    cases h : (answer c v).run with
    | none =>
      rw [h] at hends
      cases hends
    | some o =>
      cases h' : (answer' c v).run with
      | none => exact List.nil_subset _
      | some o' =>
        rw [h] at hends
        rw [← hagree c v o o' h h']
        exact ih o hends

/-! ## What dialogues keep to -/

/-- The dialogue asks only such questions, and fails only in such ways as long as
the answers do. -/
def Keeps (asks : γ → Value → Prop) (fails : Failure → Prop) : Dialogue γ α → Prop
  | done o => ∀ e, o = .error e → fails e.failure
  | ask c v next =>
      asks c v ∧ ∀ o, (∀ e, o = .error e → fails e.failure) → (next o).Keeps asks fails

variable {asks : γ → Value → Prop} {fails : Failure → Prop}

theorem keeps_pure (a : α) : (pure a : Dialogue γ α).Keeps asks fails := by
  intro e he
  cases he

theorem keeps_fail {f : Failure} (hf : fails f) : (fail f : Dialogue γ α).Keeps asks fails := by
  intro e he
  cases he
  exact hf

theorem keeps_call {c : γ} {v : Value} (h : asks c v) : (call c v).Keeps asks fails :=
  ⟨h, fun _ ho => ho⟩

theorem Keeps.bind {d : Dialogue γ α} {f : α → Dialogue γ β} (hd : d.Keeps asks fails)
    (hf : ∀ a, (f a).Keeps asks fails) : (d >>= f).Keeps asks fails := by
  induction d with
  | done o =>
    cases o with
    | ok a => exact hf a
    | error e =>
      intro e' he'
      cases he'
      exact hd e rfl
  | ask c v next ih => exact ⟨hd.1, fun o ho => ih o (hd.2 o ho)⟩

theorem Keeps.mapOutcome {f : Except ValidationError α → Except ValidationError β}
    (hf : ∀ o e, f o = .error e → ∃ e', o = .error e' ∧ e.failure = e'.failure)
    {d : Dialogue γ α} (hd : d.Keeps asks fails) : (d.mapOutcome f).Keeps asks fails := by
  induction d with
  | done o =>
    intro e he
    obtain ⟨e', ho, hfailure⟩ := hf o e he
    rw [hfailure]
    exact hd e' ho
  | ask c v next ih => exact ⟨hd.1, fun o ho => ih o (hd.2 o ho)⟩

theorem Keeps.attempt {d : Dialogue γ α} (hd : d.Keeps asks fails) :
    d.attempt.Keeps asks fails := by
  refine hd.mapOutcome fun o e he => ?_
  cases he

theorem Keeps.under {d : Dialogue γ α} (hd : d.Keeps asks fails) (segment : PathSegment) :
    (d.under segment).Keeps asks fails := by
  refine hd.mapOutcome fun o e he => ?_
  cases o with
  | ok a => cases he
  | error e' =>
    cases he
    exact ⟨e', rfl, rfl⟩

theorem keeps_foldlM {f : β → α → Dialogue γ β} {as : List α}
    (hf : ∀ a ∈ as, ∀ b, (f b a).Keeps asks fails) (b : β) :
    (as.foldlM f b).Keeps asks fails := by
  induction as generalizing b with
  | nil => exact keeps_pure b
  | cons a as ih =>
    rw [List.foldlM_cons]
    exact (hf a (List.mem_cons_self ..) b).bind
      (ih fun a' ha' => hf a' (List.mem_cons_of_mem _ ha'))

theorem keeps_mapM {f : α → Dialogue γ β} {as : List α}
    (hf : ∀ a ∈ as, (f a).Keeps asks fails) : (as.mapM f).Keeps asks fails := by
  induction as with
  | nil => exact keeps_pure []
  | cons a as ih =>
    rw [List.mapM_cons]
    exact (hf a (List.mem_cons_self ..)).bind fun b =>
      (ih fun a' ha' => hf a' (List.mem_cons_of_mem _ ha')).bind fun bs => keeps_pure _

/-- The run of a dialogue fails only as the dialogue does, if the answers do. -/
theorem Keeps.run {d : Dialogue γ α} (hd : d.Keeps asks fails) {answer : Call γ}
    (hanswer : ∀ c v, asks c v → ∀ e, (answer c v).run = some (.error e) → fails e.failure)
    {e : ValidationError} (he : (d.run answer).run = some (.error e)) : fails e.failure := by
  induction d with
  | done o => exact hd e (Option.some.inj he)
  | ask c v next ih =>
    rw [run_ask] at he
    obtain ⟨o, ho, he⟩ := Option.bind_eq_some_iff.1 he
    refine ih o (hd.2 o fun e' he' => ?_) he
    rw [he'] at ho
    exact hanswer c v hd.1 e' ho

/-- Questions are of the kind that the dialogue keeps to. -/
theorem Keeps.asked {d : Dialogue γ α} (hd : d.Keeps asks fun _ => True) {answer : Call γ}
    {e : γ × Value} (he : e ∈ d.asked answer) : asks e.1 e.2 := by
  induction d with
  | done o => cases he
  | ask c v next ih =>
    rw [Dialogue.asked] at he
    rcases List.mem_cons.1 he with rfl | he
    · exact hd.1
    · cases ho : (answer c v).run with
      | none =>
        rw [ho] at he
        cases he
      | some o =>
        rw [ho] at he
        exact ih o (hd.2 o fun _ _ => trivial) he

end Dialogue
end Rulebook
