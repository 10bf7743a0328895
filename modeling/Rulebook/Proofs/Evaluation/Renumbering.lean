import Mathlib.Order.Monotone.Basic
import Rulebook.Proofs.Evaluation.Callees
import Rulebook.Proofs.Evaluation.Relink

/-!
# Other numbers for links and programs

The numbers of links and programs are given out one after the other, and some are lost on
the way.  If others are used in the same order, throughout, then the links are bound to
programs that do the same, so that every call goes as it went.
-/

namespace Rulebook

variable {γ δ γ' δ' : Type}

/-! ## Related steps that are carried over -/

section

variable {R : γ → γ' → Prop} {Q : δ → δ' → Prop} {f : γ → δ} {g : γ' → δ'}
  (hQ : ∀ c d, R c d → Q (f c) (g d))
include hQ

theorem optionRel_map {o : Option γ} {p : Option γ'} (h : Option.Rel R o p) :
    Option.Rel Q (o.map f) (p.map g) := by
  cases h with
  | none => exact .none
  | some hcd => exact .some (hQ _ _ hcd)

theorem forall₂_map {cs : List γ} {ds : List γ'} (h : List.Forall₂ R cs ds) :
    List.Forall₂ Q (cs.map f) (ds.map g) := by
  rw [List.forall₂_map_left_iff, List.forall₂_map_right_iff]
  exact h.imp hQ

theorem OpenRule.Rel.map {o : OpenRule γ} {p : OpenRule γ'} (h : OpenRule.Rel R o p) :
    OpenRule.Rel Q (o.map f) (p.map g) :=
  ⟨optionRel_map hQ h.keys, optionRel_map hQ h.values⟩

theorem MappingItems.Rel.map {m : MappingItems γ} {n : MappingItems γ'}
    (h : MappingItems.Rel R m n) : MappingItems.Rel Q (m.map f) (n.map g) where
  entries := forall₂_map (fun _ _ hef =>
    ⟨hef.key, hef.output, hef.synonyms, hQ _ _ hef.callee, hef.default, hef.required⟩) h.entries
  patterns := forall₂_map (fun _ _ hpq => ⟨hpq.pattern, hpq.rename, hQ _ _ hpq.callee⟩) h.patterns
  openRule := optionRel_map (fun _ _ hop => OpenRule.Rel.map hQ hop) h.openRule
  policy := h.policy

/-- Related steps are carried over to related ones. -/
theorem Step.Rel.map {s : Step γ} {t : Step γ'} (h : Step.Rel R s t) :
    Step.Rel Q (s.map f) (t.map g) := by
  cases h with
  | check c => exact .check c
  | members h =>
    have hsequence := optionRel_map (f := fun p => SequenceItems.mk (OpenRule.map f p.openRule))
      (g := fun q => SequenceItems.mk (OpenRule.map g q.openRule))
      (Q := fun p q => OpenRule.Rel Q p.openRule q.openRule)
      (fun _ _ hpq => OpenRule.Rel.map hQ hpq) h.sequence
    exact .members ⟨optionRel_map (fun _ _ hmn => MappingItems.Rel.map hQ hmn) h.mapping, hsequence⟩
  | anyOf h => exact .anyOf (forall₂_map hQ h)
  | oneOf h => exact .oneOf (forall₂_map hQ h)
  | refer h => exact .refer (hQ _ _ h)

end

theorem Step.map_id (s : Step γ) : s.map id = s :=
  Step.Rel.map_eq (fun _ _ h => h) (Step.Rel.refl s)

/-- A step is related to what it is carried over to. -/
theorem Step.rel_map {Q : γ → δ → Prop} {f : γ → δ} (h : ∀ c, Q c (f c)) (s : Step γ) :
    Step.Rel Q s (s.map f) := by
  have hmap : Step.Rel Q (s.map id) (s.map f) :=
    Step.Rel.map (fun c _ hcd => hcd ▸ h c) (Step.Rel.refl s)
  rwa [Step.map_id] at hmap

/-- What steps are carried over to depends on their callees only. -/
theorem Step.map_congr {f g : γ → δ} {s : Step γ} (h : ∀ c ∈ s.callees, f c = g c) :
    s.map f = s.map g := by
  have hself : Step.Rel (fun c d => c = d ∧ f c = g c) s s :=
    Step.Rel.self fun c hc => ⟨rfl, h c hc⟩
  have hmap : Step.Rel Eq (s.map f) (s.map g) :=
    Step.Rel.map (fun c _ hcd => hcd.1 ▸ hcd.2) hself
  have heq := Step.Rel.map_eq (f := id) (fun _ _ hcd => hcd) hmap
  rwa [Step.map_id] at heq

/-! ## Renumbering -/

/-- Other numbers for links and programs, in the same order. -/
structure Renumbering where
  link : Nat → Nat
  program : Nat → Nat
  link_strictMono : StrictMono link
  program_strictMono : StrictMono program

namespace Renumbering

variable (ρ : Renumbering)

/-- The link under its other number. -/
def onLink (l : Link) : Link := ⟨ρ.link l.number, l.name⟩

/-- The program under its other number, with the links it calls under theirs. -/
def onProgram (p : Program) : Program := p.relink ρ.onLink (ρ.program p.number)

/-- The bindings of the links and programs under their other numbers. -/
def onBindings (bindings : Bindings) : Bindings :=
  bindings.map fun e => (ρ.link e.1, ρ.onProgram e.2)

theorem lookup_onBindings (bindings : Bindings) (k : Nat) :
    (ρ.onBindings bindings).lookup (ρ.link k) = (bindings.lookup k).map ρ.onProgram := by
  induction bindings with
  | nil => rfl
  | cons e bindings ih =>
    rw [onBindings, List.map_cons, List.lookup_cons, List.lookup_cons, ← onBindings, ih]
    by_cases h : k = e.1
    · simp [h]
    · have hne : ρ.link k ≠ ρ.link e.1 := fun heq => h (ρ.link_strictMono.injective heq)
      rw [beq_eq_false_iff_ne.2 h, beq_eq_false_iff_ne.2 hne]

theorem onBindings_append (bindings bindings' : Bindings) :
    ρ.onBindings (bindings ++ bindings') = ρ.onBindings bindings ++ ρ.onBindings bindings' :=
  List.map_append

/-- Links and programs under other numbers simulate those under the old ones. -/
theorem simulates (bindings : Bindings) :
    bindings.Simulates (fun l l' => l' = ρ.onLink l) (fun k k' => k' = ρ.program k)
      (ρ.onBindings bindings) := by
  refine ⟨?_, ?_, ?_⟩
  · rintro l _ rfl
    rfl
  · rintro l _ rfl
    rw [onLink, lookup_onBindings]
    cases bindings.lookup l.number with
    | none => exact .none
    | some p =>
      refine .some ⟨rfl, rfl, ?_⟩
      rw [onProgram, Program.relink, List.forall₂_map_right_iff]
      refine List.forall₂_same.2 fun s _ => Step.rel_map (fun c => ?_) s
      cases c with
      | pass => exact .pass
      | link l => exact .link rfl
  · rintro a _ b _ rfl rfl
    exact ρ.program_strictMono.injective.eq_iff.symm

/-- Every call goes alike under other numbers. -/
theorem evaluate_onBindings (depth : Nat) (bindings : Bindings) (context : Option Context)
    (l : Link) (v : Value) :
    evaluate depth (ρ.onBindings bindings) context (ρ.onLink l) v =
      evaluate depth bindings context l v :=
  ((ρ.simulates bindings).evaluate_eq depth context rfl v).symm

end Renumbering
end Rulebook
