import Rulebook.Proofs.Evaluation.Ending
import Rulebook.Proofs.Registry.History

/-!
# Where validation ends

Checking a value ends, at some depth, if and only if it enters programs with only
finitely many values; the depth is then bounded by their number and that of the
programs.  The guard does not keep the values from growing: of two rules, one may
put every value inside another one, and the other go on with what the first one
made of its value.
-/

namespace Rulebook
namespace Registry

open Run

/-- The values with which programs are entered on the way of checking one. -/
def entered (r : Registry) (handle : Validator) (value : Value) (context : Option Context) :
    Set Value := {u | Enters r.bindings context [] handle.link value u}

/-- Checking a value ends if and only if finitely many values are entered on its way,
and then at a depth known from their number.  So it does where no program that is
reached changes a value before its last call. -/
theorem validation_ends_iff (r : Registry) (handle : Validator) (value : Value)
    (context : Option Context) :
    ((∃ depth, (r.validateWithin depth handle value context).isSome) ↔
        (r.entered handle value context).Finite) ∧
      (∀ values : List Value, (∀ u ∈ r.entered handle value context, u ∈ values) →
        (r.validateWithin (r.bindings.length * values.length + 1) handle value context).isSome) ∧
      (handle.link.Passive r.bindings →
        ∃ depth, (r.validateWithin depth handle value context).isSome) := by
  refine ⟨ends_iff_finite, fun values hvalues => ?_, fun hpassive => ?_⟩
  · exact follow_ends_of_entered .nil hvalues (Nat.le_add_left _ _)
  · exact follow_ends_of_passive hpassive value

/-! ## A value that goes on growing -/

/-- A rule for nested mappings, which adds one to the innermost; and a rule that goes
on with the result of the first. -/
def growthRules : Entries Value :=
  [("again", .mapping [("any_of", .list [.text "growth"]), ("one_of", .list [.text "again"])]),
    ("growth", .mapping [("default", .mapping []), ("items", .mapping [("inner", .text "growth")]),
      ("type", .text "dict")])]

/-- A registry in which values go on growing. -/
@[irreducible]
def growing : Registry :=
  ((Registry.empty unchecked ⟨[]⟩ id).register (.mapping growthRules)).toOption.getD
    (Registry.empty unchecked ⟨[]⟩ id)

set_option maxRecDepth 100000 in
theorem register_growth : ((Registry.empty unchecked ⟨[]⟩ id).register
    (.mapping growthRules)).toBool = true := by
  decide +kernel

theorem growing_reachable : growing.Reachable := by
  have hregister : (Registry.empty unchecked ⟨[]⟩ id).register (.mapping growthRules) =
      .ok growing := by
    unfold growing
    exact eq_ok_of_toBool register_growth _
  exact .batch (.empty _ _ _) trivial hregister

/-- The link of the rule that goes on. -/
def again : Link := ⟨0, "again"⟩

/-- The link of the rule that adds a mapping. -/
def growth : Link := ⟨2, "growth"⟩

/-- What a program of two choices of one branch calls. -/
def choices? (p : Program) : Option (Callee × Callee) :=
  match p.steps with
  | [.anyOf [c], .oneOf [d]] => some (c, d)
  | _ => none

/-- What a program for mappings calls for its one entry, which it adds if need be. -/
def inner? (p : Program) : Option Callee :=
  match p.steps with
  | [.check (.kind .dict), .members ⟨some ⟨[⟨"inner", "inner", [], c,
      some (.literal (.mapping [])), false⟩], [], none, .allow⟩, none⟩] => some c
  | _ => none

theorem steps_of_choices? {p : Program} {c d : Callee} (h : choices? p = some (c, d)) :
    p.steps = [.anyOf [c], .oneOf [d]] := by
  rw [choices?] at h
  split at h
  · rename_i hsteps
    cases h
    exact hsteps
  · cases h

/-- What the rule that adds a mapping says of the members of mappings. -/
def innerItems : MappingItems Callee where
  entries := [⟨"inner", "inner", [], .link growth, some (.literal (.mapping [])), false⟩]
  patterns := []
  openRule := none
  policy := .allow

theorem steps_of_inner? {p : Program} (h : inner? p = some (.link growth)) :
    p.steps = [.check (.kind .dict), .members ⟨some innerItems, none⟩] := by
  rw [inner?] at h
  split at h
  · rename_i hsteps
    cases h
    exact hsteps
  · cases h

theorem growing_again : ∃ p, growing.bindings.lookup again.number = some p ∧ p.number = 0 ∧
    p.steps = [.anyOf [.link growth], .oneOf [.link again]] := by
  have hprogram : (growing.bindings.lookup again.number).map
      (fun p => (p.number, choices? p)) = some (0, some (.link growth, .link again)) := by
    decide +kernel
  obtain ⟨p, hp, heq⟩ := Option.map_eq_some_iff.1 hprogram
  obtain ⟨hnumber, hchoices⟩ := Prod.mk.inj heq
  exact ⟨p, hp, hnumber, steps_of_choices? hchoices⟩

theorem growing_growth : ∃ p, growing.bindings.lookup growth.number = some p ∧ p.number = 1 ∧
    p.steps = [.check (.kind .dict), .members ⟨some innerItems, none⟩] := by
  have hprogram : (growing.bindings.lookup growth.number).map
      (fun p => (p.number, inner? p)) = some (1, some (.link growth)) := by
    decide +kernel
  obtain ⟨p, hp, heq⟩ := Option.map_eq_some_iff.1 hprogram
  obtain ⟨hnumber, hinner⟩ := Prod.mk.inj heq
  exact ⟨p, hp, hnumber, steps_of_inner? hinner⟩

/-- So many mappings inside an empty one. -/
def tower : Nat → Value
  | 0 => .mapping []
  | n + 1 => .mapping [("inner", tower n)]

theorem nodes_tower (n : Nat) : (tower n).nodes = n + 1 := by
  induction n with
  | zero => rfl
  | succ n ih => simp [tower, Value.nodes, Value.nodesEntries, ih]

theorem eq_of_same_tower {m n : Nat} (h : (tower m).same (tower n) = true) : m = n := by
  have hnodes := Value.nodes_eq_of_same _ _ h
  rw [nodes_tower, nodes_tower] at hnodes
  omega

theorem inFlight_cons_of_ne {frames : List Frame} {k m : Nat} (k' n : Nat)
    (hfree : inFlight frames (Frame.enter k (tower m)) = false) (hne : k' = k → n ≠ m) :
    inFlight (Frame.enter k' (tower n) :: frames) (Frame.enter k (tower m)) = false := by
  rw [inFlight, List.any_cons, ← inFlight, hfree, Bool.or_false, Bool.eq_false_iff]
  intro hsame
  obtain ⟨hnumber, hvalue⟩ := (Frame.same_iff _ _).1 hsame
  exact hne hnumber (eq_of_same_tower hvalue)

theorem apply_innerItems {call : Call Callee} {v w : Value}
    (hcall : call (.link growth) v = pure w) :
    innerItems.apply call none [("inner", v)] = pure (.mapping [("inner", w)]) := by
  have hentry : Entry.apply call none [("inner", v)] [("inner", v)] ⟨"inner", "inner", [],
      .link growth, some (.literal (.mapping [])), false⟩ = pure [("inner", w)] := by
    have hfound : Entry.find? ⟨"inner", "inner", [], Callee.link growth,
        some (.literal (.mapping [])), false⟩ [("inner", v)] = some ("inner", v) := rfl
    rw [Entry.apply, hfound]
    dsimp only
    rw [hcall]
    rfl
  rw [MappingItems.apply]
  dsimp only [innerItems, MappingItems.initial]
  rw [List.foldlM_cons, hentry]
  rfl

theorem runSteps_inner {call : Call Callee} {v w : Value} (hcall : call (.link growth) v = pure w) :
    runSteps call none [.check (.kind .dict), .members ⟨some innerItems, none⟩]
      (.mapping [("inner", v)]) = pure (.mapping [("inner", w)]) := by
  have hmembers : Structure.apply ⟨some innerItems, none⟩ call none (.mapping [("inner", v)]) =
      pure (.mapping [("inner", w)]) := apply_innerItems hcall
  change runSteps call none [.members _] _ = _
  rw [runSteps, Step.apply, hmembers]
  rfl

/-- The rule for nested mappings makes a higher tower of each. -/
theorem follow_growth {n : Nat} {frames : List Frame}
    (hfree : ∀ m, m ≤ n → inFlight frames (Frame.enter 1 (tower m)) = false) :
    follow growing.bindings none (n + 1) frames growth (tower n) = pure (tower (n + 1)) := by
  obtain ⟨p, hp, hnumber, hsteps⟩ := growing_growth
  induction n generalizing frames with
  | zero =>
    rw [follow, hp]
    dsimp only
    rw [Program.run, hnumber, hfree 0 (Nat.le_refl 0), hsteps]
    rfl
  | succ n ih =>
    have hinner := ih fun m hm => inFlight_cons_of_ne 1 (n + 1)
      (hfree m (Nat.le_succ_of_le hm)) fun _ => by omega
    rw [follow, hp]
    dsimp only
    rw [Program.run, hnumber, hfree (n + 1) (Nat.le_refl _), hsteps]
    exact runSteps_inner hinner

theorem runSteps_choices {call : Call Callee} {c d : Callee} {v w : Value}
    (hcall : call c v = unfinished ∨ call c v = pure w) (hagain : call d w = unfinished) :
    runSteps call none [.anyOf [c], .oneOf [d]] v = unfinished := by
  rcases hcall with hcall | hcall
  · rw [runSteps, Step.apply, firstOf, hcall]
    rfl
  · have honly : onlyOf call w [d] = unfinished := by
      rw [onlyOf, List.mapM_cons, hagain]
      rfl
    rw [runSteps, Step.apply, firstOf, hcall]
    change runSteps call none [.oneOf [d]] w = unfinished
    rw [runSteps, Step.apply, honly]
    rfl

/-- The rule that goes on does not end with any tower. -/
theorem follow_again {depth n : Nat} {frames : List Frame}
    (hgrowth : ∀ m, inFlight frames (Frame.enter 1 (tower m)) = false)
    (hagain : ∀ m, n ≤ m → inFlight frames (Frame.enter 0 (tower m)) = false) :
    follow growing.bindings none depth frames again (tower n) = unfinished := by
  obtain ⟨p, hp, hnumber, hsteps⟩ := growing_again
  induction depth generalizing n frames with
  | zero => rfl
  | succ depth ih =>
    rw [follow, hp]
    dsimp only
    rw [Program.run, hnumber, hagain n (Nat.le_refl n), hsteps]
    refine runSteps_choices (w := tower (n + 1)) ?_ ?_
    · -- The first choice has not ended yet or makes a higher tower.
      have hpass : follow growing.bindings none (n + 1) (Frame.enter 0 (tower n) :: frames) growth
          (tower n) = pure (tower (n + 1)) :=
        follow_growth fun m _ => inFlight_cons_of_ne 0 n (hgrowth m) fun h => absurd h (by decide)
      rcases Nat.le_total depth (n + 1) with hle | hle
      · have hbelow := follow_below hle growing.bindings none (Frame.enter 0 (tower n) :: frames)
          growth (tower n)
        rw [hpass] at hbelow
        exact hbelow
      · have hbelow := follow_below hle growing.bindings none (Frame.enter 0 (tower n) :: frames)
          growth (tower n)
        exact Or.inr (hbelow.run_eq (congrArg ExceptT.run hpass))
    · refine ih ?_ ?_
      · exact fun m => inFlight_cons_of_ne 0 n (hgrowth m) fun h => absurd h (by decide)
      · exact fun m hm => inFlight_cons_of_ne 0 n (hagain m (by omega)) fun _ => by omega

/-- Checking an empty mapping does not end at any depth, although all programs of the
registry break loops. -/
theorem validate_growing (depth : Nat) :
    growing.validateWithin depth ⟨"again", again⟩ (.mapping []) none = none := by
  have hunfinished : follow growing.bindings none depth [] again (tower 0) = unfinished :=
    follow_again (fun _ => rfl) (fun _ _ => rfl)
  exact congrArg ExceptT.run hunfinished

end Registry
end Rulebook
