import Rulebook.Error

/-!
# Runs

A run ends with a result, with a failure, or not within the depth it was given.
The last is kept apart from the others: no rule can observe it, and a deeper run
may end either way.
-/

namespace Rulebook

/-- A run that ends with a result or a failure, or not in time. -/
abbrev Run (α : Type) := ExceptT ValidationError Option α

namespace Run

variable {α : Type}

/-- A run that has not ended within its depth. -/
def unfinished : Run α := ExceptT.mk none

/-- A run that fails at the value it was given. -/
def fail (f : Failure) : Run α := throw (ValidationError.here f)

/-- A run whose outcome is known. -/
def ofExcept (x : Except ValidationError α) : Run α := ExceptT.mk (some x)

/-- The outcome of a run as a result. -/
def attempt (x : Run α) : Run (Except ValidationError α) :=
  ExceptT.mk (x.run.map Except.ok)

/-- A run for a member of a container: a failure is located under the member. -/
def under (segment : PathSegment) (x : Run α) : Run α :=
  ExceptT.mk (x.run.map fun o => o.mapError (ValidationError.within segment))

end Run

end Rulebook
