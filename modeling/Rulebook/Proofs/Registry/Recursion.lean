import Rulebook.Proofs.Evaluation.Recursion
import Rulebook.Proofs.Registry.Testing

/-!
# Bounded recursion

Where rules only check, a value is passed on as it is or taken apart, whatever circles the
rules go in.  Chains of frames are therefore bounded: on values of one depth there run no more
programs at once than are reached from the name.  So checking ends, and the guard speaks up
only where the rules come back to a value without having gone on to a part of it.
-/

namespace Rulebook
namespace Registry

variable {r : Registry}

/-- The number of programs that are reached from a name, once for each depth of a value. -/
noncomputable def chainBound (r : Registry) (handle : Validator) (v : Value) : Nat :=
  (r.bindings.programsFrom handle.link).ncard * (v.depth + 1)

/-- Where rules only check, no chain of frames is longer than the number of programs, once for
each depth of the value.  Checking ends within one level more than that, and thus in a call
from outside if that many levels are followed.  A program that the guard does not enter again
was last entered with this value, and since then the value has been passed on as it is. -/
theorem recursion_bounded (hr : ReachableByChecks r) (handle : Validator)
    (context : Option Context) {v : Value} (hv : v.Ordered) :
    (∀ frames p w, Running r.bindings context handle.link v frames p w →
        frames.length ≤ r.chainBound handle v) ∧
      (r.validateWithin (r.chainBound handle v + 1) handle v context).isSome ∧
      (r.chainBound handle v < depthLimit → (r.validate handle v context).isSome) ∧
      ∀ frames l w p, Asking r.bindings context handle.link v frames l w →
        r.bindings.lookup l.number = some p →
        ∀ above g below, frames = above ++ g :: below →
          g.same (Frame.enter p.number w) = true → ∀ f ∈ above ++ [g], f.value = w := by
  have hchains : ∀ frames p w, Running r.bindings context handle.link v frames p w →
      frames.length ≤ r.chainBound handle v :=
    fun frames p w hrunning => hrunning.length_le hr.onlyTest hv
  have hends : (r.validateWithin (r.chainBound handle v + 1) handle v context).isSome :=
    follow_ends_of_chains hchains
  refine ⟨hchains, hends, ?_, ?_⟩
  · intro hlimit
    obtain ⟨o, ho⟩ := Option.isSome_iff_exists.1 hends
    exact Option.isSome_iff_exists.2 ⟨o, evaluate_of_le hlimit ho⟩
  · intro frames l w p hasking hp above g below hframes hsame
    exact hasking.eq_of_same hr.onlyTest hv hframes hsame

/-- Whether a program, entered with a value from outside, asks for a link with a value that
is less deep by one, and the guard lets the program of that link run. -/
def descends (bindings : Bindings) (depth : Nat) (p : Program) (v : Value) : Bool :=
  let frames := [Frame.enter p.number v]
  let asked := (askSteps none p.steps v).asked (Callee.call (follow bindings none depth frames))
  asked.any fun e =>
    match e.1 with
    | .pass => false
    | .link l =>
        (bindings.lookup l.number).any fun q =>
          !inFlight frames (Frame.enter q.number e.2) && e.2.depth + 1 == v.depth

theorem running_of_descends {bindings : Bindings} {depth : Nat} {l : Link} {p : Program}
    {v : Value} (hp : bindings.lookup l.number = some p)
    (h : descends bindings depth p v = true) : ∃ frames q w,
      Running bindings none l v frames q w ∧ frames.length = 2 ∧ w.depth + 1 = v.depth := by
  obtain ⟨⟨c, w⟩, hasked, h⟩ := List.any_eq_true.1 h
  cases c with
  | pass => cases h
  | link l' =>
    obtain ⟨q, hq, h⟩ := (Option.any_eq_true _ _).1 h
    obtain ⟨hfree, hdepth⟩ := Bool.and_eq_true_iff.1 h
    rw [Bool.not_eq_true'] at hfree
    exact ⟨_, q, w, .inner (.outer hp) hasked hq hfree, rfl, beq_iff_eq.1 hdepth⟩

set_option maxRecDepth 100000 in
/-- A folder is checked on chains of frames that descend into the folder inside it, and checking
it ends. -/
theorem recursion_bounded_folder : ∃ handle, folders.get? "folder" = some handle ∧
    (∃ frames p w, Running folders.bindings none handle.link folder frames p w ∧
      frames.length = 2 ∧ w.depth + 1 = folder.depth ∧
      frames.length ≤ folders.chainBound handle folder) ∧
    (folders.validateWithin (folders.chainBound handle folder + 1) handle folder none).isSome := by
  have hdescends : ((folders.get? "folder").bind fun handle =>
      (folders.bindings.lookup handle.link.number).map fun p =>
        descends folders.bindings 5 p folder) = some true := by
    decide +kernel
  obtain ⟨handle, hhandle, hprogram⟩ := Option.bind_eq_some_iff.1 hdescends
  obtain ⟨p, hp, htrue⟩ := Option.map_eq_some_iff.1 hprogram
  obtain ⟨frames, q, w, hrunning, hlength, hdepth⟩ := running_of_descends hp htrue
  obtain ⟨hchains, hends, -, -⟩ :=
    recursion_bounded folders_reachable handle none folder_ordered
  have hchain := hchains frames q w hrunning
  exact ⟨handle, hhandle, ⟨frames, q, w, hrunning, hlength, hdepth, hchain⟩, hends⟩

end Registry
end Rulebook
