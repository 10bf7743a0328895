import Rulebook.Proofs.Evaluation.Reentry
import Rulebook.Proofs.Registry.History

/-!
# The guard of a reachable registry

In a reachable registry programs of one number are one program, so that what is
known of the guard for numbered bindings holds for validation.
-/

namespace Rulebook
namespace Registry

open Source

variable {r : Registry}

theorem Sound.bindings_numbered {good : Source → Prop} (h : r.Sound good) :
    r.bindings.Numbered := by
  intro k k' p p' hp hp' heq
  exact h.numbered.numbered (Linkage.mem_of_lookup hp) (Linkage.mem_of_lookup hp') heq

/-- Where checking a value ends without the guard, having entered no value with a
negative zero, the guard changes nothing: neither within the depth that it took
nor in a call from outside. -/
theorem validate_eq_of_unguarded (hr : r.Reachable) (handle : Validator)
    (context : Option Context) (v : Value) {depth : Nat} {o : Except ValidationError Value}
    (ho : (followUnguarded (fun w => !w.hasNegativeZero) r.bindings context depth
      handle.link v).run = some o) :
    (follow r.bindings context depth [] handle.link v).run = some o ∧
      (depth ≤ depthLimit → r.validate handle v context = some o) := by
  have hguarded : (follow r.bindings context depth [] handle.link v).run = some o := by
    refine follow_run_eq_of_unguarded (Reachable.sound hr).bindings_numbered ?_ (by simp) ho
    intro a b ha hb hsame
    rw [Bool.not_eq_true'] at ha hb
    exact Value.eq_of_same a b ha hb hsame
  exact ⟨hguarded, fun hdepth => evaluate_of_le hdepth hguarded⟩

/-- The rule for mappings whose values are such mappings again. -/
def nestingRule : Value := .mapping [("type", .text "dict"), ("values", .text "nesting")]

/-- A registry for nested mappings. -/
def nesting : Registry :=
  let fresh := Registry.empty { validateSchemas := false } ⟨[]⟩ id
  (fresh.insert "nesting" nestingRule).toOption.getD fresh

theorem nesting_reachable : nesting.Reachable := by
  have hregister : (Registry.empty { validateSchemas := false } ⟨[]⟩ id).registerWith
      (.mapping [("nesting", nestingRule)]) { validateSchemas := false } = .ok nesting := rfl
  exact .batch (.empty _ _ _) trivial hregister

theorem validate_nesting : nesting.get? "nesting" = some ⟨"nesting", ⟨0, "nesting"⟩⟩ ∧
    nesting.validate ⟨"nesting", ⟨0, "nesting"⟩⟩ (.mapping [("inner", .mapping [])]) none =
      some (.ok (.mapping [("inner", .mapping [])])) := by
  have hends : (followUnguarded (fun w => !w.hasNegativeZero) nesting.bindings none 3
      ⟨0, "nesting"⟩ (.mapping [("inner", .mapping [])])).run =
        some (.ok (.mapping [("inner", .mapping [])])) := rfl
  refine ⟨rfl, ?_⟩
  exact (validate_eq_of_unguarded nesting_reachable ⟨"nesting", ⟨0, "nesting"⟩⟩ none _ hends).2
    (by decide)

end Registry
end Rulebook
