import Rulebook.Value.Comparison

/-!
# Tables of values

The allowed values of an enumeration and the substitutions of a remap.  Both are
prepared once: scalars are found by their key, and containers, of which only an
enumeration can have any, by going through them.
-/

namespace Rulebook

/-- The allowed values of an enumeration. -/
structure Enumeration where
  allowed : List Value
  /-- The keys of the scalars among them. -/
  keys : List ScalarKey
  /-- The containers among them. -/
  containers : List Value

namespace Enumeration

/-- Prepare a list of allowed values. -/
def ofList (allowed : List Value) : Enumeration where
  allowed
  keys := allowed.filterMap ScalarKey.of?
  containers := allowed.filter fun v => (ScalarKey.of? v).isNone

/-- Whether a value is allowed. -/
def contains (e : Enumeration) (v : Value) : Bool :=
  match ScalarKey.of? v with
  | some key => e.keys.contains key
  | none => e.containers.any fun a => a.equivalent v

end Enumeration

/-- Substitutions for scalars. -/
structure Remap where
  /-- Substitutes by key; the last one for a key counts. -/
  table : List (ScalarKey × Value)
  /-- The substitute for scalars that have none of their own. -/
  fallback : Option Value

namespace Remap

/-- The substitute that the last pair for a key gives. -/
def find? (key : ScalarKey) : List (ScalarKey × Value) → Option Value
  | [] => none
  | (k, v) :: rest =>
      match find? key rest with
      | some w => some w
      | none => if k = key then some v else none

/-- The substitute for a value; containers have none. -/
def lookup (r : Remap) (v : Value) : Option Value :=
  match ScalarKey.of? v with
  | some key => (find? key r.table).or r.fallback
  | none => none

end Remap

end Rulebook
