import Rulebook.Value.Basic

/-!
# Size of values

The number of nodes of a nested value: one for itself and those of its members.
Values of different size are never the same, so that sizes settle most
comparisons without descending.
-/

namespace Rulebook
namespace Value

mutual

/-- The number of nodes of a value. -/
def nodes : Value → Nat
  | list xs => nodesList xs + 1
  | mapping es => nodesEntries es + 1
  | _ => 1

/-- The number of nodes of the elements of a list. -/
def nodesList : List Value → Nat
  | [] => 0
  | x :: xs => x.nodes + nodesList xs

/-- The number of nodes of the members of a mapping. -/
def nodesEntries : List (String × Value) → Nat
  | [] => 0
  | (_, v) :: rest => v.nodes + nodesEntries rest

end

mutual

theorem nodes_eq_of_same : (a b : Value) → a.same b = true → a.nodes = b.nodes
  | list a, b, h => by
      cases b <;> simp only [same, Bool.false_eq_true] at h
      rw [nodes, nodes, nodesList_eq_of_same a _ h]
  | mapping a, b, h => by
      cases b <;> simp only [same, Bool.false_eq_true] at h
      rw [nodes, nodes, nodesEntries_eq_of_same a _ h]
  | null, b, h | bool _, b, h | number _, b, h | text _, b, h => by
      cases b <;> simp [same, nodes] at h ⊢

theorem nodesList_eq_of_same : (a b : List Value) → sameList a b = true →
    nodesList a = nodesList b
  | [], [], _ => rfl
  | [], _ :: _, h | _ :: _, [], h => by simp [sameList] at h
  | x :: xs, y :: ys, h => by
      simp only [sameList, Bool.and_eq_true] at h
      rw [nodesList, nodesList, nodes_eq_of_same x y h.1, nodesList_eq_of_same xs ys h.2]

theorem nodesEntries_eq_of_same : (a b : List (String × Value)) → sameEntries a b = true →
    nodesEntries a = nodesEntries b
  | [], [], _ => rfl
  | [], _ :: _, h | _ :: _, [], h => by simp [sameEntries] at h
  | (_, x) :: xs, (_, y) :: ys, h => by
      simp only [sameEntries, Bool.and_eq_true] at h
      rw [nodesEntries, nodesEntries, nodes_eq_of_same x y h.1.2,
        nodesEntries_eq_of_same xs ys h.2]

end

end Value
end Rulebook
