import Mathlib.Data.Set.Finite.Lattice
import Mathlib.Data.Set.Finite.List
import Mathlib.Logic.Relation
import Rulebook.Value.Size

/-!
# Parts of values

The members of a container are smaller than the container, and so are its keys
and indices.  What can be reached from a value by going on to members, keys and
indices is therefore finite.  The values inside a value, without keys and indices,
are listed as its parts: there are as many as it has nodes.  The height of a value is how
deep they stand inside one another.
-/

namespace Rulebook
namespace Value

theorem nodes_pos (v : Value) : 0 < v.nodes := by
  cases v <;> exact Nat.succ_pos _

theorem nodes_le_nodesEntries {es : Entries Value} {e : String × Value} (he : e ∈ es) :
    e.2.nodes ≤ nodesEntries es := by
  induction es with
  | nil => cases he
  | cons f es ih =>
    rw [nodesEntries]
    rcases List.mem_cons.1 he with rfl | he
    · exact Nat.le_add_right _ _
    · exact Nat.le_trans (ih he) (Nat.le_add_left _ _)

theorem nodes_le_nodesList {xs : List Value} {x : Value} (hx : x ∈ xs) :
    x.nodes ≤ nodesList xs := by
  induction xs with
  | nil => cases hx
  | cons y xs ih =>
    rw [nodesList]
    rcases List.mem_cons.1 hx with rfl | hx
    · exact Nat.le_add_right _ _
    · exact Nat.le_trans (ih hx) (Nat.le_add_left _ _)

theorem nodes_lt_mapping {es : Entries Value} {e : String × Value} (he : e ∈ es) :
    e.2.nodes < (mapping es).nodes := Nat.lt_succ_of_le (nodes_le_nodesEntries he)

theorem nodes_lt_list {xs : List Value} {x : Value} (hx : x ∈ xs) :
    x.nodes < (list xs).nodes := Nat.lt_succ_of_le (nodes_le_nodesList hx)

/-! ## Members, keys and indices -/

/-- The members of a container, with their keys or indices. -/
def members : Value → List Value
  | .mapping es => es.map (·.2) ++ es.map fun e => .text e.1
  | .list xs => xs ++ (List.range xs.length).map Value.ofNat
  | _ => []

theorem nodes_lt_of_mem_members {v w : Value} (hw : w ∈ v.members) : w.nodes < v.nodes := by
  cases v with
  | mapping es =>
    rcases List.mem_append.1 hw with hw | hw
    · obtain ⟨e, he, rfl⟩ := List.mem_map.1 hw
      exact nodes_lt_mapping he
    · obtain ⟨e, he, rfl⟩ := List.mem_map.1 hw
      exact Nat.lt_of_le_of_lt (nodes_pos e.2) (nodes_lt_mapping he)
  | list xs =>
    rcases List.mem_append.1 hw with hw | hw
    · exact nodes_lt_list hw
    · obtain ⟨i, hi, rfl⟩ := List.mem_map.1 hw
      have hmem := List.getElem_mem (List.mem_range.1 hi)
      exact Nat.lt_of_le_of_lt (nodes_pos _) (nodes_lt_list hmem)
  | _ => cases hw

/-- A value leads to another by going on to members, keys and indices. -/
abbrev Leads : Value → Value → Prop := Relation.ReflTransGen fun v w => w ∈ v.members

/-- A value leads to finitely many values. -/
theorem finite_leads (v : Value) : {w | v.Leads w}.Finite := by
  induction h : v.nodes using Nat.strong_induction_on generalizing v with
  | _ n ih =>
    have hmembers : (⋃ w ∈ {w | w ∈ v.members}, {u | w.Leads u}).Finite :=
      (List.finite_toSet _).biUnion fun w hw =>
        ih w.nodes (h ▸ nodes_lt_of_mem_members hw) w rfl
    refine ((Set.finite_singleton v).union hmembers).subset fun u hu => ?_
    rcases Relation.ReflTransGen.cases_head hu with rfl | ⟨w, hw, hu⟩
    · exact Or.inl rfl
    · exact Or.inr (Set.mem_biUnion hw hu)

/-! ## Parts -/

mutual

/-- A value and all values inside it. -/
def parts : Value → List Value
  | list xs => list xs :: partsList xs
  | mapping es => mapping es :: partsEntries es
  | null => [null]
  | bool b => [bool b]
  | number n => [number n]
  | text t => [text t]

/-- The parts of the elements of a list. -/
def partsList : List Value → List Value
  | [] => []
  | x :: xs => x.parts ++ partsList xs

/-- The parts of the members of a mapping. -/
def partsEntries : List (String × Value) → List Value
  | [] => []
  | (_, v) :: rest => v.parts ++ partsEntries rest

end

mutual

theorem length_parts : (v : Value) → v.parts.length = v.nodes
  | list xs => congrArg (· + 1) (length_partsList xs)
  | mapping es => congrArg (· + 1) (length_partsEntries es)
  | null | bool _ | number _ | text _ => rfl

theorem length_partsList : (xs : List Value) → (partsList xs).length = nodesList xs
  | [] => rfl
  | x :: xs => by
      rw [partsList, nodesList, List.length_append, length_parts x, length_partsList xs]

theorem length_partsEntries : (es : List (String × Value)) →
    (partsEntries es).length = nodesEntries es
  | [] => rfl
  | (_, v) :: es => by
      rw [partsEntries, nodesEntries, List.length_append, length_parts v, length_partsEntries es]

end

theorem mem_parts_self (v : Value) : v ∈ v.parts := by
  cases v <;> exact List.mem_cons_self ..

theorem mem_partsList {xs : List Value} {v : Value} :
    v ∈ partsList xs ↔ ∃ x ∈ xs, v ∈ x.parts := by
  induction xs with
  | nil => simp [partsList]
  | cons x xs ih => simp [partsList, ih]

theorem mem_partsEntries {es : List (String × Value)} {v : Value} :
    v ∈ partsEntries es ↔ ∃ e ∈ es, v ∈ e.2.parts := by
  induction es with
  | nil => simp [partsEntries]
  | cons e es ih => simp [partsEntries, ih]

/-- The parts of a part of a value are parts of the value. -/
theorem parts_trans {u v w : Value} (hu : u ∈ v.parts) (hv : v ∈ w.parts) : u ∈ w.parts := by
  induction h : w.nodes using Nat.strong_induction_on generalizing w with
  | _ n ih =>
    cases w with
    | list xs =>
      rcases List.mem_cons.1 hv with rfl | hv
      · exact hu
      · obtain ⟨x, hx, hv⟩ := mem_partsList.1 hv
        exact List.mem_cons_of_mem _
          (mem_partsList.2 ⟨x, hx, ih _ (h ▸ nodes_lt_list hx) hv rfl⟩)
    | mapping es =>
      rcases List.mem_cons.1 hv with rfl | hv
      · exact hu
      · obtain ⟨e, he, hv⟩ := mem_partsEntries.1 hv
        exact List.mem_cons_of_mem _
          (mem_partsEntries.2 ⟨e, he, ih _ (h ▸ nodes_lt_mapping he) hv rfl⟩)
    | _ => exact List.mem_singleton.1 hv ▸ hu

theorem mem_parts_of_mem_mapping {es : Entries Value} {e : String × Value} (he : e ∈ es) :
    e.2 ∈ (mapping es).parts :=
  List.mem_cons_of_mem _ (mem_partsEntries.2 ⟨e, he, mem_parts_self e.2⟩)

theorem mem_parts_of_mem_list {xs : List Value} {x : Value} (hx : x ∈ xs) :
    x ∈ (list xs).parts :=
  List.mem_cons_of_mem _ (mem_partsList.2 ⟨x, hx, mem_parts_self x⟩)

/-! ## Height -/

mutual

/-- The number of values that stand inside one another in a value. -/
def height : Value → Nat
  | list xs => heightList xs + 1
  | mapping es => heightEntries es + 1
  | _ => 1

/-- The height of the highest element of a list. -/
def heightList : List Value → Nat
  | [] => 0
  | x :: xs => max x.height (heightList xs)

/-- The height of the highest member of a mapping. -/
def heightEntries : List (String × Value) → Nat
  | [] => 0
  | (_, v) :: rest => max v.height (heightEntries rest)

end

theorem height_pos (v : Value) : 0 < v.height := by
  cases v <;> exact Nat.succ_pos _

theorem height_lt_list {xs : List Value} {x : Value} (hx : x ∈ xs) :
    x.height < (list xs).height := by
  rw [height, Nat.lt_succ_iff]
  induction xs with
  | nil => cases hx
  | cons y xs ih =>
    rw [heightList]
    rcases List.mem_cons.1 hx with rfl | hx
    · exact Nat.le_max_left _ _
    · exact Nat.le_trans (ih hx) (Nat.le_max_right _ _)

theorem height_lt_mapping {es : Entries Value} {e : String × Value} (he : e ∈ es) :
    e.2.height < (mapping es).height := by
  rw [height, Nat.lt_succ_iff]
  induction es with
  | nil => cases he
  | cons f es ih =>
    rw [heightEntries]
    rcases List.mem_cons.1 he with rfl | he
    · exact Nat.le_max_left _ _
    · exact Nat.le_trans (ih he) (Nat.le_max_right _ _)

end Value
end Rulebook
