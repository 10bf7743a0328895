import Rulebook.Proofs.Compilation.Malformed
import Rulebook.Proofs.Registry.Grammar
import Rulebook.Proofs.Registry.Meaning

/-!
# What checked rules can be refused for

In a registry whose batches were all checked, every rule is well formed.  A further
batch that is checked can then be refused as malformed only for a table of substitutions
with a container as a source or for a rule that inherits from a bare name: the check
and the reading of rules agree on everything else.
-/

namespace Rulebook
namespace Registry

open Source

variable {r : Registry} {depth : Nat} {submitted : Entries Value} {options : Options}

/-- Registries that have come about by accepted batches which were all checked. -/
abbrev ReachableChecked : Registry → Prop :=
  ReachableBy fun _ _ options => options.validateSchemas = true

/-- The rules of a batch that passes the check are well formed. -/
theorem wellFormed_of_check {batch : Entries Value}
    (h : SchemaOfSchemas.check depth batch = .ok ()) : ∀ e ∈ batch, Rule.WellFormed e.2 := by
  obtain ⟨outcome, hiff, -, -, hwithin⟩ := SchemaOfSchemas.check_decides batch
  rcases hwithin depth with hdecided | hendless
  · exact hiff.1 (hdecided.symm.trans h)
  · cases h.symm.trans hendless

theorem proper_of_check (h : SchemaOfSchemas.check depth (prepare submitted options) = .ok ()) :
    ∀ e ∈ prepare submitted options, Rule.Proper e.2 :=
  fun e he => ⟨wellFormed_of_check h e he, spelled_of_mem_prepare he⟩

/-- Every registered rule is well formed and in its one spelling. -/
theorem ReachableBy.proper (hr : ReachableChecked r) :
    ∀ e ∈ r.schemas, Rule.Proper e.2.rule := by
  induction hr with
  | empty options coercions digest => exact fun e he => absurd he List.not_mem_nil
  | batch _ hvalidate hregister ih =>
    obtain ⟨st, haccepts, rfl⟩ := registerWithin_eq_ok_iff.1 hregister
    intro e he
    rcases Entries.mem_of_mem_overlay he with he | he
    · obtain ⟨f, hf, rfl⟩ := List.mem_map.1 he
      exact proper_of_check (haccepts.check hvalidate) f hf
    · exact ih e he

/-- What a checked batch is compiled from. -/
theorem ReachableBy.checked (hr : ReachableChecked r)
    (h : SchemaOfSchemas.check depth (prepare submitted options) = .ok ()) :
    (r.source (prepare submitted options) options).Checked := by
  intro e he
  rcases List.mem_append.1 he with he | he
  · exact proper_of_check h e he
  · obtain ⟨f, hf, rfl⟩ := List.mem_map.1 he
    exact hr.proper f hf

/-! ## Refusals that are not about the shape of a rule -/

section

variable {errors : SchemaError → Prop} (hendless : ∀ label, errors (.endless label))
include hendless

theorem check_refused (hinvalid : ∀ e, errors (.invalidSchema e)) (depth : Nat)
    (batch : Entries Value) : Refuses errors (SchemaOfSchemas.check depth batch) := by
  obtain ⟨outcome, -, houtcome, -, hwithin⟩ := SchemaOfSchemas.check_decides batch
  rcases hwithin depth with hdecided | hgoesOn
  · rw [hdecided]
    rcases houtcome with rfl | ⟨e, rfl⟩
    · exact refuses_ok _
    · exact refuses_error (hinvalid e)
  · rw [hgoesOn]
    exact refuses_error (hendless _)

theorem replay_refused (hrejected : ∀ label v e, errors (.exampleRejected label v e))
    (haccepted : ∀ label v, errors (.negativeExampleAccepted label v)) (r : Registry)
    (depth : Nat) (st : Staging) : Refuses errors (r.replay depth st) := by
  have hpositive (c : ExampleCase) (v : Value) (o : Option (Except ValidationError Value)) :
      Refuses errors (judgePositive c v o) := by
    rcases o with _ | _ | _
    · exact refuses_error (hendless _)
    · exact refuses_error (hrejected _ _ _)
    · exact refuses_ok _
  have hnegative (c : ExampleCase) (v : Value) (o : Option (Except ValidationError Value)) :
      Refuses errors (judgeNegative c v o) := by
    rcases o with _ | _ | _
    · exact refuses_error (hendless _)
    · exact refuses_ok _
    · exact refuses_error (haccepted _ _)
  refine refuses_forM fun c _ => ?_
  exact (refuses_forM fun v _ => hpositive c v _).bind fun _ _ =>
    refuses_forM fun v _ => hnegative c v _

end

/-- A registration is refused as the check, the compilation of what has passed the check, or
the examples are. -/
theorem refuses_registerWithin {errors : SchemaError → Prop}
    (hcheck : Refuses errors (SchemaOfSchemas.check depth (prepare submitted options)))
    (hstage : (options.validateSchemas = true →
        SchemaOfSchemas.check depth (prepare submitted options) = .ok ()) →
      Refuses errors (r.stage (prepare submitted options) options))
    (hreplay : ∀ st, Refuses errors (r.replay depth st)) :
    Refuses errors (r.registerWithin depth (.mapping submitted) options) := by
  rw [registerWithin]
  refine Refuses.bind ?_ fun _ _ => refuses_ok _
  rw [accept_eq]
  split
  · refine hcheck.bind fun _ hpassed => (hstage fun _ => hpassed).bind fun st _ => ?_
    exact (hreplay st).bind fun _ _ => refuses_ok _
  · rename_i hvalidate
    exact (hstage fun h => absurd h hvalidate).bind fun _ _ => refuses_ok _

/-- The error is not that a rule is malformed. -/
def NotMalformed (e : SchemaError) : Prop := ∀ label flaw, e ≠ .malformed label flaw

theorem refuses_check (depth : Nat) (batch : Entries Value) :
    Refuses NotMalformed (SchemaOfSchemas.check depth batch) :=
  check_refused (fun _ _ _ h => by cases h) (fun _ _ _ h => by cases h) depth batch

theorem refuses_replay (r : Registry) (depth : Nat) (st : Staging) :
    Refuses NotMalformed (r.replay depth st) :=
  replay_refused (fun _ _ _ h => by cases h) (fun _ _ _ _ _ h => by cases h)
    (fun _ _ _ _ h => by cases h) r depth st

/-! ## Registration -/

/-- The check of rules and the reading of rules agree.  In a registry whose batches were
all checked, a checked batch is refused as malformed only for a flaw of well-formed rules:
a rule of the batch or one it inherits from, or a rule inside them, has a container as a
source in its table of substitutions, or a rule that is looked at inherits from a bare
name.  After the check the features of every rule that is looked at are read, whatever
the rule inherits. -/
theorem malformed_explained (hr : ReachableChecked r) (hvalidate : options.validateSchemas = true) :
    (∀ label flaw,
      r.registerWithin depth (.mapping submitted) options = .error (.malformed label flaw) →
      (r.source (prepare submitted options) options).Explains flaw) ∧
    (SchemaOfSchemas.check depth (prepare submitted options) = .ok () →
      ∀ features flat label,
        (r.source (prepare submitted options) options).Consulted (.mapping features) →
        (r.source (prepare submitted options) options).flatten features label = .ok flat →
        ∃ rule, Rule.read flat label = .ok rule) := by
  refine ⟨fun label flaw hrefused => ?_, fun hcheck features flat label hfeatures hflat => ?_⟩
  · have hexcused : Refuses (r.source (prepare submitted options) options).Excused
        (r.registerWithin depth (.mapping submitted) options) := by
      refine refuses_registerWithin (fun e he => excused_of_ne (refuses_check depth _ e he))
        (fun hcheck => ?_) fun st e he => excused_of_ne (refuses_replay r depth st e he)
      have hchecked := hr.checked (hcheck hvalidate)
      rw [stage]
      exact (compileBatch_excused hchecked (ready_start _ _)).bind fun _ _ => refuses_ok _
    exact hexcused _ hrefused label flaw rfl
  · have hfits := hfeatures.argumentsFit (hr.checked hcheck) hflat
    cases hread : Rule.read flat label with
    | ok rule => exact ⟨rule, rfl⟩
    | error e =>
      have hnone : Refuses (fun _ => False) (Rule.read flat label) := Rule.refuses_read hfits
      exact (hnone e hread).elim

/-- A rule with a list as a source of a substitution. -/
def substituting : Entries Value :=
  [("a", .mapping [("map", .list [.list [.list [Value.ofNat 1], Value.ofNat 2]])])]

set_option maxRecDepth 100000 in
/-- The rule passes the check and is refused when it is compiled. -/
theorem explains_substituting :
    ((Registry.empty {} ⟨[]⟩ id).source (prepare substituting {}) {}).Explains .remapSource := by
  have hrefused : (Registry.empty {} ⟨[]⟩ id).registerWith (.mapping substituting) {} =
      .error (.malformed "a" .remapSource) := eq_error_of_failsWith (by decide +kernel)
  exact (malformed_explained (ReachableBy.empty {} ⟨[]⟩ id) rfl).1 "a" .remapSource hrefused

end Registry
end Rulebook
