import Mathlib.Algebra.Order.BigOperators.Group.List
import Mathlib.Algebra.Order.Group.Nat
import Rulebook.Proofs.Compilation.Linkage

/-!
# Rules interpreted as they are written

A rule of a batch can be applied to a value without compiling it.  Names are
looked up in the batch when they are met, chains of bases are flattened on the
spot, and a rule inside a rule is interpreted in its place, under the options of
the batch overridden by every rule around it.  There are no links, no cache and
no programs, so that nothing is shared.

What is being interpreted is kept with the values it was met with.  A rule met
again with the same value is satisfied; it is recognized by its identity, and a
schema that is only a name of another by its own name.
-/

namespace Rulebook

/-- What a value is checked against. -/
inductive Subject where
  /-- A schema of the batch. -/
  | name (n : String)
  /-- A rule written in place, flattened, with the options in force for it. -/
  | rule (features : Entries Value) (options : Options)

/-- Something that is being interpreted, and the value it was met with. -/
structure Visit where
  target : Target
  value : Value

/-- Whether something is being interpreted with the same value already. -/
def underway (visits : List Visit) (target : Target) (v : Value) : Bool :=
  visits.any fun u => decide (u.target = target) && u.value.same v

namespace Source

-- A sum starts at the core library's zero, whatever else is imported.
attribute [local instance (high)] Zero.ofOfNat0

/-- What the rule of a batch entry is flattened to, if it is no name and can be
flattened. -/
def flattened? (s : Source) (e : String × Value) : Option (Entries Value) :=
  match e.2 with
  | .null => some []
  | .mapping fs => (s.flatten fs e.1).toOption
  | _ => none

/-- The depth to which rules have to be unfolded for their forms: no rule of the
batch goes deeper. -/
def unfoldLimit (s : Source) : Nat :=
  (s.batch.map fun e => ((s.flattened? e).map s.formDepth).getD 0).sum

/-- The identity of flattened features under options. -/
def identity? (s : Source) (features : Entries Value) (options : Options) : Option SchemaId :=
  (s.formOf s.flattenInline "" s.unfoldLimit features).toOption.map
    fun form => SchemaId.of s.digest form options

/-- Check a value against a rule inside a rule, by a way of checking it against
subjects. -/
def callInner (s : Source) (check : Subject → Value → Run Value) (options : Options) :
    Call Value
  | .null, v => pure v
  | .text n, v => check (.name n) v
  | .mapping fs, v =>
      match s.flattenInline fs with
      | .ok [] => pure v
      | .ok flat => check (.rule flat options) v
      | .error _ => Run.unfinished
  | _, _ => Run.unfinished

/-- Check a value against flattened features: stage by stage, unless that is what
is being done already. -/
def checkRule (s : Source) (context : Option Context)
    (check : List Visit → Subject → Value → Run Value) (visits : List Visit)
    (features : Entries Value) (options : Options) (v : Value) : Run Value :=
  match s.identity? features options, Rule.read? features with
  | some id, some r =>
      if underway visits (.rule id) v then pure v
      else
        let inside := options.overriddenBy r.overrides
        match r.stages s.coercions s.outlook inside with
        | some plan => runSteps (s.callInner (check (⟨.rule id, v⟩ :: visits)) inside) context plan v
        | none => Run.unfinished
  | _, _ => Run.unfinished

/-- Check a value against a subject, to a given depth of subjects inside each
other.  What cannot be interpreted does not end. -/
def interpret (s : Source) (context : Option Context) :
    Nat → List Visit → Subject → Value → Run Value
  | 0, _, _, _ => Run.unfinished
  | depth + 1, visits, .rule features options, v =>
      s.checkRule context (s.interpret context depth) visits features options v
  | depth + 1, visits, .name n, v =>
      match s.lookup n with
      | none => Run.fail (.undefinedSchema n)
      | some (.text m) =>
          if underway visits (.name n) v then pure v
          else s.interpret context depth (⟨.name n, v⟩ :: visits) (.name m) v
      | some rule =>
          match s.flattened? (n, rule) with
          | some flat => s.checkRule context (s.interpret context depth) visits flat s.options v
          | none => Run.unfinished

/-! ## Depths of unfolding -/

variable {s : Source}

theorem le_unfoldLimit {n : String} {v : Value} {flat : Entries Value} (hmem : (n, v) ∈ s.batch)
    (hflat : s.Flattens n v flat) : s.formDepth flat ≤ s.unfoldLimit := by
  have hflattened : s.flattened? (n, v) = some flat := by
    cases hflat with
    | null => rfl
    | mapping h =>
      simp only [flattened?, h]
      rfl
  refine List.le_sum_of_mem (List.mem_map.2 ⟨(n, v), hmem, ?_⟩)
  rw [hflattened]
  rfl

end Source
end Rulebook
