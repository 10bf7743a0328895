import Rulebook.Proofs.Evaluation.Failing

/-!
# Traversals

A traversal goes through a list and drops the results.  It passes if all elements pass, and
fails with the error of the first element that fails: those before it pass, and those after it
are not looked at.  A traversal that keeps its results ends in the same way.
-/

namespace Rulebook
namespace Run

variable {α β : Type} {e : ValidationError}

/-- A run of which only matters how it ends. -/
def dropResult (x : Run α) : Run Unit := x >>= fun _ => pure ()

theorem passes_dropResult {x : Run α} : Passes x.dropResult () ↔ ∃ a, Passes x a := by
  rw [dropResult, passes_bind]
  exact ⟨fun ⟨a, ha, _⟩ => ⟨a, ha⟩, fun ⟨a, ha⟩ => ⟨a, ha, rfl⟩⟩

theorem fails_dropResult {x : Run α} : Fails x.dropResult e ↔ Fails x e := fails_bind_pure

theorem dropResult_bind_pure (x : Run α) (f : α → β) :
    (x >>= fun a => pure (f a)).dropResult = x.dropResult := by
  simp only [dropResult, bind_assoc, pure_bind]

theorem dropResult_bind (x : Run α) (y : Run β) :
    (x >>= fun _ => y).dropResult = x.dropResult >>= fun _ => y.dropResult := by
  simp only [dropResult, bind_assoc, pure_bind]

theorem dropResult_mapM (f : α → Run β) (xs : List α) :
    (xs.mapM f).dropResult = forM xs fun x => (f x).dropResult := by
  induction xs with
  | nil => rfl
  | cons x xs ih =>
    rw [List.mapM_cons, List.forM_cons, ← ih, ← dropResult_bind]
    simp only [dropResult, bind_assoc, pure_bind]

theorem forM_congr {f g : α → Run Unit} {xs : List α} (h : ∀ x ∈ xs, f x = g x) :
    forM xs f = forM xs g := by
  induction xs with
  | nil => rfl
  | cons x xs ih =>
    rw [List.forM_cons, List.forM_cons, h x (List.mem_cons_self ..),
      ih fun y hy => h y (List.mem_cons_of_mem _ hy)]

theorem forM_filter (p : α → Bool) (f : α → Run Unit) (xs : List α) :
    forM (xs.filter p) f = forM xs fun x => if p x then f x else pure () := by
  induction xs with
  | nil => rfl
  | cons x xs ih =>
    rw [List.forM_cons, List.filter_cons]
    by_cases hx : p x = true
    · rw [if_pos hx, if_pos hx, List.forM_cons, ih]
    · rw [if_neg hx, if_neg hx, pure_bind, ih]

theorem passes_forM {f : α → Run Unit} {xs : List α} :
    Passes (forM xs f) () ↔ ∀ x ∈ xs, Passes (f x) () := by
  induction xs with
  | nil => exact iff_of_true rfl fun x hx => absurd hx List.not_mem_nil
  | cons x xs ih =>
    rw [List.forM_cons, passes_bind, List.forall_mem_cons, ← ih]
    exact ⟨fun ⟨_, hx, hxs⟩ => ⟨hx, hxs⟩, fun ⟨hx, hxs⟩ => ⟨(), hx, hxs⟩⟩

/-- In a traversal some elements pass and the next one fails. -/
structure FailsAfter (f : α → Run Unit) (xs before : List α) (x : α) (e : ValidationError) :
    Prop where
  split : ∃ after, xs = before ++ x :: after
  passed : ∀ y ∈ before, Passes (f y) ()
  fails : Fails (f x) e

/-- A traversal fails with the error of the first element that fails. -/
theorem fails_forM {f : α → Run Unit} {xs : List α} :
    Fails (forM xs f) e ↔ ∃ before x, FailsAfter f xs before x e := by
  induction xs with
  | nil =>
    refine iff_of_false not_fails_pure ?_
    rintro ⟨before, x, ⟨after, hsplit⟩, -, -⟩
    exact absurd hsplit.symm (List.append_ne_nil_of_right_ne_nil _ (List.cons_ne_nil _ _))
  | cons y ys ih =>
    rw [List.forM_cons, fails_bind, ih]
    constructor
    · rintro (hy | ⟨_, hy, before, x, ⟨after, rfl⟩, hpassed, hfails⟩)
      · exact ⟨[], y, ⟨ys, rfl⟩, fun z hz => absurd hz List.not_mem_nil, hy⟩
      · exact ⟨y :: before, x, ⟨after, rfl⟩, List.forall_mem_cons.2 ⟨hy, hpassed⟩, hfails⟩
    · rintro ⟨before, x, ⟨after, hsplit⟩, hpassed, hfails⟩
      cases before with
      | nil =>
        cases hsplit
        exact Or.inl hfails
      | cons z before =>
        cases hsplit
        obtain ⟨hy, hpassed⟩ := List.forall_mem_cons.1 hpassed
        exact Or.inr ⟨(), hy, before, x, ⟨after, rfl⟩, hpassed, hfails⟩

end Run
end Rulebook
