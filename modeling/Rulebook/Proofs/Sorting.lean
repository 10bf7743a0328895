import Mathlib.Data.List.Forall2
import Rulebook.Sorting

/-!
# Sorted lists

Sorting gives the elements of a list in an order that respects the comparison,
and it treats lists alike whose elements compare alike.
-/

namespace Rulebook
namespace Sorting

variable {α β : Type} {before : α → α → Bool}

theorem insert_perm (a : α) (as : List α) : (insert before a as).Perm (a :: as) := by
  induction as with
  | nil => exact List.Perm.refl _
  | cons b as ih =>
    rw [insert]
    split
    · exact List.Perm.refl _
    · exact (ih.cons b).trans (List.Perm.swap a b as)

theorem sort_perm (as : List α) : (sort before as).Perm as := by
  induction as with
  | nil => exact List.Perm.refl _
  | cons a as ih => exact (insert_perm a _).trans (ih.cons a)

theorem pairwise_insert (htotal : ∀ a b, before a b = true ∨ before b a = true)
    (htrans : ∀ a b c, before a b = true → before b c = true → before a c = true) (a : α)
    {as : List α} (h : as.Pairwise fun a b => before a b = true) :
    (insert before a as).Pairwise fun a b => before a b = true := by
  induction as with
  | nil => exact List.pairwise_singleton _ _
  | cons b as ih =>
    obtain ⟨hb, has⟩ := List.pairwise_cons.1 h
    rw [insert]
    split
    · rename_i hab
      refine List.pairwise_cons.2 ⟨fun c hc => ?_, h⟩
      rcases List.mem_cons.1 hc with rfl | hc
      · exact hab
      · exact htrans a b c hab (hb c hc)
    · rename_i hab
      have hba : before b a = true := (htotal a b).resolve_left hab
      refine List.pairwise_cons.2 ⟨fun c hc => ?_, ih has⟩
      rcases List.mem_cons.1 ((insert_perm a as).mem_iff.1 hc) with rfl | hc
      · exact hba
      · exact hb c hc

theorem pairwise_sort (htotal : ∀ a b, before a b = true ∨ before b a = true)
    (htrans : ∀ a b c, before a b = true → before b c = true → before a c = true)
    (as : List α) : (sort before as).Pairwise fun a b => before a b = true := by
  induction as with
  | nil => exact List.Pairwise.nil
  | cons a as ih => exact pairwise_insert htotal htrans a ih

section

variable {before' : β → β → Bool} {R : α → β → Prop}
  (h : ∀ a b a' b', R a a' → R b b' → before a b = before' a' b')
include h

theorem forall₂_insert {a : α} {b : β} (hab : R a b) {as : List α} {bs : List β}
    (habs : List.Forall₂ R as bs) : List.Forall₂ R (insert before a as) (insert before' b bs) := by
  induction habs with
  | nil => exact .cons hab .nil
  | cons hcd hrest ih =>
    rw [insert, insert, h _ _ _ _ hab hcd]
    split
    · exact .cons hab (.cons hcd hrest)
    · exact .cons hcd ih

/-- Elements that correspond to each other are put in corresponding places. -/
theorem forall₂_sort {as : List α} {bs : List β} (habs : List.Forall₂ R as bs) :
    List.Forall₂ R (sort before as) (sort before' bs) := by
  induction habs with
  | nil => exact .nil
  | cons hab _ ih => exact forall₂_insert h hab ih

end

end Sorting
end Rulebook
