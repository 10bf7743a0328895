import Rulebook.Proofs.Evaluation.Parameters
import Rulebook.Proofs.Registry.Locating

/-!
# What validation reads of the context

Without supplied coercions the outcome of validation depends on the context only through the
parameters that the programs reached from the name put in the place of null or of an absent
entry.
-/

namespace Rulebook

open Rule

/-! ## Compiled rules -/

namespace Rule

variable {r : Rule} {coercions : CoercionTable} {look : Outlook} {options : Options}

theorem Opening.builtIn (hcustom : coercions.custom = []) {step : Step Value}
    (h : r.Opening coercions step) : step.BuiltIn := by
  intro c k hc hk
  cases h with
  | @nullable post hpost =>
    cases hc
    have hpost' : post = some k := hk
    rw [hpost'] at hpost
    generalize r.postCoerce = name at hpost
    cases hpost with
    | some hresolve => exact CoercionTable.eq_builtin_of_resolve hcustom hresolve
  | coerce _ hresolve =>
    cases hc
    cases hk
    exact CoercionTable.eq_builtin_of_resolve hcustom hresolve
  | _ =>
    cases hc
    cases hk

theorem Closing.builtIn (hcustom : coercions.custom = []) {step : Step Value}
    (h : r.Closing coercions step) : step.BuiltIn := by
  intro c k hc hk
  cases h with
  | bound hbound =>
    cases hc
    simp only [bounds, List.mem_append, Option.mem_toList, Option.map_eq_some_iff] at hbound
    rcases hbound with (((⟨_, -, rfl⟩ | ⟨_, -, rfl⟩) | ⟨_, -, rfl⟩) | ⟨_, -, rfl⟩) | ⟨_, -, rfl⟩ <;>
      cases hk
  | postCoerce _ hresolve =>
    cases hc
    cases hk
    exact CoercionTable.eq_builtin_of_resolve hcustom hresolve
  | remap _ _ =>
    cases hc
    cases hk
  | anyOf _ => cases hc
  | oneOf _ => cases hc

/-- Where no coercions are supplied, rules apply built-in ones. -/
theorem builtIn_of_mem_stages (hcustom : coercions.custom = []) {plan : List (Step Value)}
    (h : r.stages coercions look options = some plan) {step : Step Value} (hmem : step ∈ plan) :
    step.BuiltIn := by
  rcases of_mem_stages h hmem with hopening | ⟨st, -, rfl⟩ | hclosing
  · exact hopening.builtIn hcustom
  · intro c k hc
    cases hc
  · exact hclosing.builtIn hcustom

end Rule

theorem Origin.builtIn {good : Source → Prop} {T : Links} {p : Program}
    (hgood : ∀ s, good s → s.coercions.custom = []) (h : Origin good T p) :
    ∀ step ∈ p.steps, step.BuiltIn := by
  cases h with
  | refer _ _ _ =>
    intro step hstep c k hc
    rw [List.mem_singleton.1 hstep] at hc
    cases hc
  | rule hbuilt =>
    obtain ⟨s, features, form, options, hs, -, -, -, -, hemits⟩ := hbuilt
    obtain ⟨-, r, plan, -, hplan, hsteps⟩ := hemits
    intro step hstep
    obtain ⟨stage, hstage, hrel⟩ := exists_of_forall₂ hsteps hstep
    exact (builtIn_of_mem_stages (hgood s hs) hplan hstage).of_rel hrel

/-! ## Validation -/

namespace Registry

variable {r : Registry}

/-- Without supplied coercions, validation has the same outcome with two contexts if each
parameter that is read by a program reached from the name is absent from both or has the same
value in both. -/
theorem validate_eq_of_agree (hr : r.Reachable) (hcustom : r.coercions.custom = [])
    (handle : Validator) (v : Value) {context context' : Option Context}
    (h : ∀ p ∈ r.bindings.programsFrom handle.link, ∀ name ∈ p.parameters,
      Context.Agree context context' name) :
    r.validate handle v context = r.validate handle v context' ∧
      ∀ depth, r.validateWithin depth handle v context =
        r.validateWithin depth handle v context' := by
  have hbuiltIn : ∀ p ∈ r.bindings.programsFrom handle.link, ∀ s ∈ p.steps, s.BuiltIn := by
    rintro p ⟨l, -, hp⟩
    have horigin := hr.published_coercions l.number p (Linkage.mem_of_lookup hp)
    apply horigin.builtIn
    intro s hs
    rw [hs]
    exact hcustom
  have hwithin : ∀ depth, r.validateWithin depth handle v context =
      r.validateWithin depth handle v context' :=
    fun depth => congrArg ExceptT.run (follow_eq_of_agree hbuiltIn h depth [] v)
  exact ⟨hwithin depthLimit, hwithin⟩

/-- A context with a session and a team. -/
def teamContext (session : String) : Context := [("SESSION", .text session), ("TEAM", .text "red")]

theorem agree_teamContext {session session' name : String} (h : name ∈ ["NOTE", "TEAM"]) :
    Context.Agree (some (teamContext session)) (some (teamContext session')) name := by
  rcases List.mem_pair.1 h with rfl | rfl
  · rfl
  · rfl

set_option maxRecDepth 100000 in
/-- A person gets the team that the context names, whatever else is in the context. -/
theorem validate_eq_of_agree_person : ∃ handle, persons.get? "person" = some handle ∧
    persons.validate handle (.mapping []) (some (teamContext "first")) =
      some (.ok (.mapping [("team", .text "red")])) ∧
    persons.validate handle (.mapping []) (some (teamContext "first")) =
      persons.validate handle (.mapping []) (some (teamContext "second")) := by
  have hpersons : (persons.get? "person").bind (fun handle => persons.validate handle
      (.mapping []) (some (teamContext "first"))) =
        some (.ok (.mapping [("team", .text "red")])) ∧
      ∀ e ∈ persons.bindings, e.2.parameters ⊆ ["NOTE", "TEAM"] := by
    decide +kernel
  obtain ⟨houtcome, hparameters⟩ := hpersons
  obtain ⟨handle, hhandle, hvalidate⟩ := Option.bind_eq_some_iff.1 houtcome
  have hagree : ∀ p ∈ persons.bindings.programsFrom handle.link, ∀ name ∈ p.parameters,
      Context.Agree (some (teamContext "first")) (some (teamContext "second")) name := by
    rintro p ⟨l, -, hp⟩ name hname
    exact agree_teamContext (hparameters _ (Linkage.mem_of_lookup hp) hname)
  refine ⟨handle, hhandle, hvalidate, ?_⟩
  exact (validate_eq_of_agree persons_reachable coercions_persons handle _ hagree).1

end Registry
end Rulebook
