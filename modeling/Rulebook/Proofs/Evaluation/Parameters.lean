import Rulebook.Proofs.Evaluation.Callees

/-!
# What is read of the context

Programs read parameters of a call only to put them in the place of null or of an absent entry.
So a call has the same outcome with two contexts that agree on the parameters which the
programs reached by it read there.  Coercions that are supplied may look at the whole context;
the built-in ones do not look at it.
-/

namespace Rulebook

variable {γ δ : Type}

/-! ## What a step reads -/

/-- The parameters that a substitute stands for. -/
def Substitute.parameters : Substitute → List String
  | literal _ => []
  | parameter name => [name]

/-- The parameters that are read for an absent entry. -/
def Entry.parameters (e : Entry γ) : List String := e.default.elim [] Substitute.parameters

/-- The parameters that a step puts in the place of null or of absent entries. -/
def Step.parameters : Step γ → List String
  | .check (.nullable fallback _) => fallback.elim [] Substitute.parameters
  | .members s => s.mapping.elim [] fun m => m.entries.flatMap Entry.parameters
  | _ => []

/-- The parameters that a program reads. -/
def Program.parameters (p : Program) : List String := p.steps.flatMap Step.parameters

/-- The coercion that a check applies. -/
def Check.coercer? : Check → Option Coercer
  | .nullable _ post => post
  | .coerce c | .postCoerce c => some c
  | _ => none

/-- The coercion that the step applies, if it applies one, is built in. -/
def Step.BuiltIn (s : Step γ) : Prop :=
  ∀ c k, s = .check c → c.coercer? = some k → ∃ b, k = .builtin b

/-- What a step calls plays no part in it. -/
theorem Step.BuiltIn.of_rel {R : γ → δ → Prop} {s : Step γ} {t : Step δ} (hs : s.BuiltIn)
    (h : Step.Rel R s t) : t.BuiltIn := by
  intro c k hc hk
  cases h with
  | check c' =>
    cases hc
    exact hs c k rfl hk
  | _ => cases hc

/-! ## Contexts that agree -/

/-- Both contexts lack the parameter, or they have the same value for it. -/
def Context.Agree (context context' : Option Context) (name : String) : Prop :=
  context.bind (Entries.lookup name) = context'.bind (Entries.lookup name)

variable {context context' : Option Context}

theorem Substitute.resolve_eq {s : Substitute}
    (h : ∀ name ∈ s.parameters, Context.Agree context context' name) :
    s.resolve context = s.resolve context' := by
  cases s with
  | literal v => rfl
  | parameter name => rw [resolve, resolve, h name (List.mem_singleton_self name)]

theorem Check.apply_eq {c : Check} (hc : (Step.check c : Step γ).BuiltIn)
    (h : ∀ name ∈ (Step.check c : Step γ).parameters, Context.Agree context context' name)
    (v : Value) : c.apply context v = c.apply context' v := by
  have hcoerce : ∀ k, c.coercer? = some k → ∀ w, k.apply w context = k.apply w context' := by
    intro k hk w
    obtain ⟨b, rfl⟩ := hc c k rfl hk
    rfl
  cases c with
  | nullable fallback post =>
    have hresolve : ∀ f, fallback = some f → f.resolve context = f.resolve context' := by
      rintro f rfl
      exact Substitute.resolve_eq h
    rw [Check.apply, Check.apply]
    split
    · cases fallback with
      | none =>
        cases post with
        | none => rfl
        | some k => simp only [hcoerce k rfl]
      | some f =>
        cases post with
        | none => simp only [hresolve f rfl]
        | some k => simp only [hresolve f rfl, hcoerce k rfl]
    · rfl
  | coerce k => simp only [Check.apply, hcoerce k rfl]
  | postCoerce k => simp only [Check.apply, hcoerce k rfl]
  | _ => rfl

/-! ## Members of containers -/

variable {call : Call γ}

theorem Entry.apply_eq {e : Entry γ}
    (h : ∀ name ∈ e.parameters, Context.Agree context context' name)
    (input out : Entries Value) :
    e.apply call context input out = e.apply call context' input out := by
  rw [parameters] at h
  rw [apply, apply]
  cases e.find? input with
  | some found => rfl
  | none =>
    cases hdefault : e.default with
    | none => rfl
    | some d =>
      rw [hdefault] at h
      have hresolve : d.resolve context = d.resolve context' := Substitute.resolve_eq h
      dsimp only
      rw [hresolve]

theorem foldlM_eq_of_forall {α β : Type} {f g : β → α → Run β} {as : List α}
    (h : ∀ a ∈ as, ∀ b, f b a = g b a) (b : β) : as.foldlM f b = as.foldlM g b := by
  induction as generalizing b with
  | nil => rfl
  | cons a as ih =>
    rw [List.foldlM_cons, List.foldlM_cons, h a (List.mem_cons_self ..) b]
    exact bind_congr (ih fun a' ha' => h a' (List.mem_cons_of_mem _ ha'))

theorem MappingItems.apply_eq {m : MappingItems γ}
    (h : ∀ e ∈ m.entries, ∀ name ∈ e.parameters, Context.Agree context context' name)
    (input : Entries Value) : m.apply call context input = m.apply call context' input := by
  rw [apply, apply, foldlM_eq_of_forall fun e he out => Entry.apply_eq (h e he) input out]

theorem Structure.apply_eq {s : Structure γ}
    (h : ∀ name ∈ (Step.members s).parameters, Context.Agree context context' name) (v : Value) :
    s.apply call context v = s.apply call context' v := by
  obtain ⟨mapping, sequence⟩ := s
  cases mapping with
  | none => cases sequence <;> cases v <;> rfl
  | some m =>
    cases v with
    | mapping es =>
      refine MappingItems.apply_eq (fun e he name hname => h name ?_) es
      exact List.mem_flatMap.2 ⟨e, he, hname⟩
    | _ => cases sequence <;> rfl

/-! ## Steps and calls -/

/-- A step does the same with contexts that agree on what it reads. -/
theorem Step.apply_eq {s : Step γ} (hs : s.BuiltIn)
    (h : ∀ name ∈ s.parameters, Context.Agree context context' name) (v : Value) :
    s.apply call context v = s.apply call context' v := by
  cases s with
  | check c => exact c.apply_eq hs h v
  | members st => rw [apply, apply, Structure.apply_eq h]
  | _ => rfl

theorem runSteps_eq_of_agree {ss : List (Step γ)} (hss : ∀ s ∈ ss, s.BuiltIn)
    (h : ∀ s ∈ ss, ∀ name ∈ s.parameters, Context.Agree context context' name) (v : Value) :
    runSteps call context ss v = runSteps call context' ss v := by
  induction ss generalizing v with
  | nil => rfl
  | cons s rest ih =>
    rw [runSteps, runSteps, Step.apply_eq (hss s (List.mem_cons_self ..))
      (h s (List.mem_cons_self ..))]
    apply bind_congr
    intro flow
    cases flow with
    | next w =>
      exact ih (fun t ht => hss t (List.mem_cons_of_mem _ ht))
        (fun t ht => h t (List.mem_cons_of_mem _ ht)) w
    | done w => rfl

variable {bindings : Bindings}

/-- A link is followed alike with contexts that agree on what is read by the programs that are
reached from it. -/
theorem follow_eq_of_agree {l : Link}
    (hbuiltIn : ∀ p ∈ bindings.programsFrom l, ∀ s ∈ p.steps, s.BuiltIn)
    (h : ∀ p ∈ bindings.programsFrom l, ∀ name ∈ p.parameters,
      Context.Agree context context' name)
    (depth : Nat) (frames : List Frame) (v : Value) :
    follow bindings context depth frames l v = follow bindings context' depth frames l v := by
  induction depth generalizing frames l v with
  | zero => rfl
  | succ depth ih =>
    rw [follow, follow]
    cases hp : bindings.lookup l.number with
    | none => rfl
    | some p =>
      have hmem := Bindings.mem_programsFrom_of_lookup hp
      dsimp only
      rw [Program.run, Program.run]
      split
      · rfl
      · rw [runSteps_eq_of_agree (hbuiltIn p hmem)
          fun s hs name hname => h p hmem name (List.mem_flatMap.2 ⟨s, hs, hname⟩)]
        -- What the program calls reaches no other programs than the link does.
        refine runSteps_eq (R := fun c d => c = d ∧ ∃ s ∈ p.steps, c ∈ s.callees) ?_ ?_ context' v
        · rintro c _ ⟨rfl, s, hs, hc⟩ w
          cases c with
          | pass => rfl
          | link l' =>
            have hsubset := Bindings.programsFrom_subset ⟨p, hp, s, hs, hc⟩
            exact ih (fun q hq => hbuiltIn q (hsubset hq)) (fun q hq => h q (hsubset hq)) _ w
        · exact List.forall₂_same.2 fun s hs => Step.Rel.self fun c hc => ⟨rfl, s, hs, hc⟩

end Rulebook
