import Rulebook.Proofs.Evaluation.Locating
import Rulebook.Proofs.Registry.Isolation
import Rulebook.Proofs.Registry.Termination

/-!
# Errors point into the input

Where no coercions are supplied, what is compiled from a rule coerces only before it looks at
members, and then to a scalar.  So whatever has replaced the value on the way, an error of
validation points into the value that was to be checked.
-/

namespace Rulebook

open Run Rule

/-! ## Compiled rules -/

theorem CoercionTable.eq_builtin_of_resolve {t : CoercionTable} (ht : t.custom = [])
    {name : String} {c : Coercer} (h : t.resolve? name = some c) : ∃ b, c = .builtin b := by
  have hnone : t.find? name = none := by
    rw [find?, ht]
    rfl
  rw [resolve?, hnone] at h
  obtain ⟨b, -, rfl⟩ := Option.map_eq_some_iff.1 h
  exact ⟨b, rfl⟩

namespace Rule

variable {r : Rule} {coercions : CoercionTable} {look : Outlook} {options : Options}

/-- Before the members, a rule only looks at the value or coerces it. -/
theorem Opening.handsOn (hcustom : coercions.custom = []) {step : Step Value}
    (h : r.Opening coercions step) : ∃ c, step = .check c ∧ c.HandsOn := by
  cases h with
  | nullable _ => exact ⟨_, rfl, Or.inl rfl⟩
  | kind _ => exact ⟨_, rfl, Or.inl rfl⟩
  | coerce _ hc =>
    obtain ⟨b, rfl⟩ := CoercionTable.eq_builtin_of_resolve hcustom hc
    exact ⟨_, rfl, Or.inr ⟨b, rfl⟩⟩
  | pattern _ _ => exact ⟨_, rfl, Or.inl rfl⟩

theorem Closing.isFlat {step : Step Value} (h : r.Closing coercions step) :
    step.isFlat = true := by
  cases h <;> rfl

theorem locating_of_stages (hcustom : coercions.custom = []) {plan : List (Step Value)}
    (h : r.stages coercions look options = some plan) : Locating plan := by
  obtain ⟨before, members, after, rfl, hbefore, hmembers, hafter⟩ := split_of_stages h
  have hflat : ∀ step ∈ after, step.isFlat = true := fun step hstep => (hafter step hstep).isFlat
  rw [List.append_assoc]
  apply Locating.append
  · intro step hstep
    exact (hbefore step hstep).handsOn hcustom
  · cases members with
    | nil => exact .of_flat hflat
    | cons step rest =>
      obtain ⟨st, -, heq, -⟩ := of_mem_memberStage hmembers (List.mem_cons_self ..)
      rw [(List.cons.inj heq).2]
      exact .descend hflat

end Rule

/-- What is compiled without supplied coercions descends into the original value only. -/
theorem Origin.locating {good : Source → Prop} {T : Links} {p : Program}
    (hgood : ∀ s, good s → s.coercions.custom = []) (h : Origin good T p) :
    Locating p.steps := by
  cases h with
  | refer _ _ _ => exact .descend fun t ht => by cases ht
  | rule hbuilt =>
    obtain ⟨s, features, form, options, hs, -, -, -, -, hemits⟩ := hbuilt
    obtain ⟨-, r, plan, -, hplan, hsteps⟩ := hemits
    exact (locating_of_stages (hgood s hs) hplan).of_rel hsteps

/-! ## Validation -/

namespace Registry

variable {r : Registry}

/-- Without supplied coercions, validation fails with errors that point into the value: the
path leads to a place in it, or to a required key that a mapping in it lacks. -/
theorem failure_points_into (hr : r.Reachable) (hcustom : r.coercions.custom = [])
    (handle : Validator) (v : Value) (context : Option Context) {e : ValidationError} :
    (r.validate handle v context = some (.error e) → e.PointsInto v) ∧
      ∀ depth, r.validateWithin depth handle v context = some (.error e) → e.PointsInto v := by
  have hlocating : ∀ k p, r.bindings.lookup k = some p → Locating p.steps := by
    intro k p hp
    have horigin := hr.published_coercions k p (Linkage.mem_of_lookup hp)
    refine horigin.locating fun s hs => ?_
    rw [hs]
    exact hcustom
  have hwithin : ∀ depth, r.validateWithin depth handle v context = some (.error e) →
      e.PointsInto v := fun _ h => pointsInto_of_fails_follow hlocating h
  exact ⟨hwithin depthLimit, hwithin⟩

/-- A rule for persons with an address, which has to have a code, and a note and a team that
the context may have to say. -/
def personRules : Entries Value :=
  [("person", .mapping [("items", .mapping
    [("address", .mapping [("items", .mapping
      [("code", .mapping [("coerce", .text "int"), ("required", .bool true)])]),
      ("type", .text "dict")]),
    ("note", .mapping [("if_null", .text "\x7bNOTE\x7d")]),
    ("team", .mapping [("default", .text "\x7bTEAM\x7d"), ("type", .text "str")])]),
    ("type", .text "dict")])]

set_option maxRecDepth 100000 in
/-- A registry for persons. -/
@[irreducible]
def persons : Registry :=
  accepted ((Registry.empty unchecked ⟨[]⟩ id).register (.mapping personRules))
    (by decide +kernel)

theorem register_persons : (Registry.empty unchecked ⟨[]⟩ id).register (.mapping personRules) =
    .ok persons := by
  unfold persons
  exact eq_ok_accepted _

theorem persons_reachable : persons.Reachable := .batch (.empty _ _ _) trivial register_persons

theorem coercions_persons : persons.coercions.custom = [] := by
  rw [coercions_of_registerWithin register_persons]
  rfl

set_option maxRecDepth 100000 in
/-- A person whose address lacks the code: the error points to it. -/
theorem failure_points_into_address : ∃ handle e, persons.get? "person" = some handle ∧
    persons.validate handle (.mapping [("address", .mapping [])]) none = some (.error e) ∧
    e.path = [.key "address", .key "code"] ∧
    e.PointsInto (.mapping [("address", .mapping [])]) := by
  have houtcome : (persons.get? "person").bind (fun handle => persons.validate handle
      (.mapping [("address", .mapping [])]) none) =
        some (.error ⟨[.key "address", .key "code"], .missing⟩) := by
    decide +kernel
  obtain ⟨handle, hhandle, hvalidate⟩ := Option.bind_eq_some_iff.1 houtcome
  refine ⟨handle, _, hhandle, hvalidate, rfl, ?_⟩
  exact (failure_points_into persons_reachable coercions_persons handle _ none).1 hvalidate

end Registry
end Rulebook
