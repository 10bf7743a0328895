import Mathlib.Data.List.Forall2
import Rulebook.Compilation.Basic

/-!
# Compilations that succeed

`m.Yields st a st'` says that a compilation, started in one staging area, gives a
result and leaves another staging area.  There is one equivalence for each way in
which compilations are put together, so that what a successful compilation did
can be read off its parts, and a rule for lists by induction.
-/

namespace Rulebook

variable {α β : Type}

/-- A computation that succeeds after another did so at both. -/
theorem Except.bind_eq_ok_iff {ε : Type} {x : Except ε α} {f : α → Except ε β} {b : β} :
    (x >>= f) = .ok b ↔ ∃ a, x = .ok a ∧ f a = .ok b := by
  cases x with
  | error e => simp [bind, Except.bind]
  | ok a => simp [bind, Except.bind]

namespace Compile

/-- The compilation gives `a` and leaves `st'`. -/
def Yields (m : Compile α) (st : Staging) (a : α) (st' : Staging) : Prop :=
  m.run st = .ok (a, st')

variable {st st' st'' : Staging} {a : α} {b : β}

theorem yields_pure {a b : α} : Yields (pure a) st b st' ↔ a = b ∧ st = st' := by
  change Except.ok (a, st) = .ok (b, st') ↔ _
  rw [Except.ok.injEq, Prod.mk.injEq]

theorem yields_bind {m : Compile α} {f : α → Compile β} :
    Yields (m >>= f) st b st'' ↔ ∃ a st', m.Yields st a st' ∧ (f a).Yields st' b st'' := by
  simp only [Yields, StateT.run_bind, Except.bind_eq_ok_iff, Prod.exists]

theorem yields_get {u : Staging} : Yields get st u st' ↔ st = u ∧ st = st' := by
  constructor
  · intro h
    cases h
    exact ⟨rfl, rfl⟩
  · rintro ⟨rfl, rfl⟩
    rfl

theorem yields_set {u : Staging} {x : PUnit} : Yields (set u) st x st' ↔ st' = u := by
  constructor
  · intro h
    cases h
    rfl
  · rintro rfl
    rfl

theorem yields_modify {f : Staging → Staging} {x : PUnit} :
    Yields (modify f) st x st' ↔ st' = f st := by
  constructor
  · intro h
    cases h
    rfl
  · rintro rfl
    rfl

theorem yields_throw {e : SchemaError} : Yields (throw e : Compile α) st a st' ↔ False := by
  constructor
  · intro h
    cases h
  · exact False.elim

theorem yields_lift {x : Except SchemaError α} :
    Yields (liftM x : Compile α) st a st' ↔ x = .ok a ∧ st = st' := by
  cases x with
  | error e =>
    constructor
    · intro h
      cases h
    · rintro ⟨h, _⟩
      cases h
  | ok b =>
    constructor
    · intro h
      cases h
      exact ⟨rfl, rfl⟩
    · rintro ⟨h, rfl⟩
      cases h
      rfl

/-- What holds of the results one by one, and persists, holds of all of them in
the end; meanwhile the staging area went from step to step. -/
theorem Yields.mapM {P : Staging → Staging → Prop} {Q : Staging → α → β → Prop}
    {f : α → Compile β} (hrefl : ∀ st, P st st)
    (htrans : ∀ {st st' st''}, P st st' → P st' st'' → P st st'')
    (hmono : ∀ {st st' a b}, P st st' → Q st a b → Q st' a b) {as : List α}
    (hstep : ∀ a ∈ as, ∀ {st b st'}, (f a).Yields st b st' → P st st' ∧ Q st' a b)
    {bs : List β} (h : Yields (as.mapM f) st bs st') :
    P st st' ∧ List.Forall₂ (Q st') as bs := by
  induction as generalizing st bs with
  | nil =>
    rw [List.mapM_nil, yields_pure] at h
    obtain ⟨rfl, rfl⟩ := h
    exact ⟨hrefl _, .nil⟩
  | cons a as ih =>
    simp only [List.mapM_cons, yields_bind, yields_pure] at h
    obtain ⟨b, st₁, hb, bs, st₂, hbs, rfl, rfl⟩ := h
    obtain ⟨hP, hQ⟩ := hstep a (List.mem_cons_self ..) hb
    obtain ⟨hP', hQ'⟩ := ih (fun a ha => hstep a (List.mem_cons_of_mem _ ha)) hbs
    exact ⟨htrans hP hP', .cons (hmono hP' hQ) hQ'⟩

end Compile
end Rulebook
