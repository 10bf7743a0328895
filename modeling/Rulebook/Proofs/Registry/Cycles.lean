import Rulebook.Proofs.Compilation.Cycles
import Rulebook.Proofs.Registry.Malformed
import Rulebook.Proofs.Registry.Testing

/-!
# When registration reports a cycle

A batch that is refused for a cycle of inheritance has one, or it has a rule written in
place that comes, along the names it inherits from, to a rule whose name reads like the
place where it stands.
-/

namespace Rulebook
namespace Registry

open Source

variable {r : Registry} {depth : Nat} {submitted : Entries Value} {options : Options}

/-- The names reported as a cycle are those that some rule inherits along.  Either one of
them stands there twice, where the own name of a named rule counts and the label of a rule
written in place does not, or only that label makes them a cycle. -/
theorem cycle_explained (hr : Reachable r) {reported : List String}
    (hrefused : r.registerWithin depth (.mapping submitted) options =
      .error (.inheritanceCycle reported)) :
    (r.source (prepare submitted options) options).Loops reported ∨
      (r.source (prepare submitted options) options).Mistaken reported := by
  have hstage : Refuses (r.source (prepare submitted options) options).CycleExplained
      (r.stage (prepare submitted options) options) := by
    rw [stage]
    exact (compileBatch_explained hr.source_spelled (ready_start _ _)
      fun _ htask => absurd htask List.not_mem_nil).bind fun _ _ => refuses_ok _
  refine refuses_registerWithin ?_ (fun _ => hstage) (fun st => ?_) _ hrefused reported rfl
  · exact check_refused (fun _ => explained_of_ne fun _ h => by cases h)
      (fun _ => explained_of_ne fun _ h => by cases h) _ _
  · exact replay_refused (fun _ => explained_of_ne fun _ h => by cases h)
      (fun _ _ _ => explained_of_ne fun _ h => by cases h)
      (fun _ _ => explained_of_ne fun _ h => by cases h) r depth st

/-- A rule with an entry whose rule inherits from a rule named like the place of that entry. -/
def namedLikePlace : Entries Value :=
  [("c", .mapping [("items", .mapping [("y", .mapping [("rules", .text "c.y")])])]),
   ("c.y", .mapping [("type", .text "int")])]

set_option maxRecDepth 100000 in
/-- The batch is refused for a cycle and has none. -/
theorem mistaken_namedLikePlace :
    (Registry.empty {} ⟨[]⟩ id).registerWith (.mapping namedLikePlace) {} =
        .error (.inheritanceCycle ["c.y", "c.y"]) ∧
      (∀ reported,
        ¬ ((Registry.empty {} ⟨[]⟩ id).source (prepare namedLikePlace {}) {}).Loops reported) ∧
      ((Registry.empty {} ⟨[]⟩ id).source (prepare namedLikePlace {}) {}).Mistaken
        ["c.y", "c.y"] := by
  have hrefused : (Registry.empty {} ⟨[]⟩ id).registerWith (.mapping namedLikePlace) {} =
      .error (.inheritanceCycle ["c.y", "c.y"]) := eq_error_of_failsWith (by decide +kernel)
  have hbatch : prepare namedLikePlace {} = namedLikePlace := by decide +kernel
  have hnone : ∀ reported,
      ¬ ((Registry.empty {} ⟨[]⟩ id).source (prepare namedLikePlace {}) {}).Loops reported := by
    refine not_loops fun n fs hmem => ?_
    rw [hbatch] at hmem
    simp only [source, namedLikePlace, Registry.empty, Entries.mapValues, List.map_nil,
      List.append_nil, List.mem_cons, List.not_mem_nil, or_false, Prod.mk.injEq,
      Value.mapping.injEq] at hmem
    rcases hmem with ⟨-, rfl⟩ | ⟨-, rfl⟩ <;> rfl
  refine ⟨hrefused, hnone, ?_⟩
  exact (cycle_explained (ReachableBy.empty {} ⟨[]⟩ id) hrefused).resolve_left (hnone _)

end Registry
end Rulebook
