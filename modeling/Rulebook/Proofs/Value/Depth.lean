import Rulebook.Proofs.Value.Ordered
import Rulebook.Proofs.Value.Parts

/-!
# Depth of values

The depth of a value is how often one can go on from it to a member: not at all for a
scalar, and once more than for its deepest member for a container.

Going on to members, keys and indices makes values lower and smaller.  What a value leads to
is therefore the value itself if it has the same depth, or the same size.
-/

namespace Rulebook
namespace Value

/-- How often one can go on to a member. -/
def depth (v : Value) : Nat := v.height - 1

theorem height_eq_depth_succ (v : Value) : v.height = v.depth + 1 :=
  (Nat.sub_add_cancel v.height_pos).symm

example : (mapping [("key", list [text "element"])]).depth = 2 := by decide

/-! ## Going on to members -/

theorem height_lt_of_mem_members {v w : Value} (hw : w ∈ v.members) : w.height < v.height := by
  cases v with
  | mapping es =>
    rcases List.mem_append.1 hw with hw | hw
    · obtain ⟨e, he, rfl⟩ := List.mem_map.1 hw
      exact height_lt_mapping he
    · obtain ⟨e, he, rfl⟩ := List.mem_map.1 hw
      exact Nat.lt_of_le_of_lt e.2.height_pos (height_lt_mapping he)
  | list xs =>
    rcases List.mem_append.1 hw with hw | hw
    · exact height_lt_list hw
    · obtain ⟨i, hi, rfl⟩ := List.mem_map.1 hw
      have hmem := List.getElem_mem (List.mem_range.1 hi)
      exact Nat.lt_of_le_of_lt (height_pos _) (height_lt_list hmem)
  | _ => cases hw

theorem depth_lt_of_mem_members {v w : Value} (hw : w ∈ v.members) : w.depth < v.depth := by
  have hlt := height_lt_of_mem_members hw
  rw [height_eq_depth_succ, height_eq_depth_succ] at hlt
  exact Nat.lt_of_succ_lt_succ hlt

/-- By a measure that members are below in, a value is above all others that it leads to. -/
theorem Leads.eq_or_lt {measure : Value → Nat}
    (hmeasure : ∀ v w : Value, w ∈ v.members → measure w < measure v) {v w : Value}
    (h : v.Leads w) : w = v ∨ measure w < measure v := by
  induction h with
  | refl => exact Or.inl rfl
  | tail _ hmem ih =>
    right
    rcases ih with rfl | hlt
    · exact hmeasure _ _ hmem
    · exact (hmeasure _ _ hmem).trans hlt

theorem Leads.depth_le {v w : Value} (h : v.Leads w) : w.depth ≤ v.depth := by
  rcases h.eq_or_lt fun _ _ hmem => depth_lt_of_mem_members hmem with rfl | hlt
  · exact Nat.le_refl _
  · exact hlt.le

/-- A value leads to no other of its depth. -/
theorem Leads.eq_of_depth {v w : Value} (h : v.Leads w) (hdepth : w.depth = v.depth) : w = v := by
  rcases h.eq_or_lt fun _ _ hmem => depth_lt_of_mem_members hmem with heq | hlt
  · exact heq
  · exact absurd hdepth hlt.ne

theorem Leads.nodes_le {v w : Value} (h : v.Leads w) : w.nodes ≤ v.nodes := by
  rcases h.eq_or_lt fun _ _ hmem => nodes_lt_of_mem_members hmem with rfl | hlt
  · exact Nat.le_refl _
  · exact hlt.le

/-- A value leads to no other of its size. -/
theorem Leads.eq_of_nodes {v w : Value} (h : v.Leads w) (hnodes : v.nodes ≤ w.nodes) : w = v := by
  rcases h.eq_or_lt fun _ _ hmem => nodes_lt_of_mem_members hmem with heq | hlt
  · exact heq
  · exact absurd hnodes hlt.not_ge

/-! ## Ordered values -/

theorem Ordered.of_mem_members {v w : Value} (hv : v.Ordered) (hw : w ∈ v.members) :
    w.Ordered := by
  cases v with
  | mapping es =>
    rcases List.mem_append.1 hw with hw | hw
    · obtain ⟨e, he, rfl⟩ := List.mem_map.1 hw
      exact (ordered_mapping.1 hv).2 e he
    · obtain ⟨e, -, rfl⟩ := List.mem_map.1 hw
      trivial
  | list xs =>
    rcases List.mem_append.1 hw with hw | hw
    · exact ordered_list.1 hv w hw
    · obtain ⟨i, -, rfl⟩ := List.mem_map.1 hw
      trivial
  | _ => cases hw

/-- An ordered value leads to ordered ones. -/
theorem Leads.ordered {v w : Value} (h : v.Leads w) (hv : v.Ordered) : w.Ordered := by
  induction h with
  | refl => exact hv
  | tail _ hmem ih => exact ih.of_mem_members hmem

end Value
end Rulebook
