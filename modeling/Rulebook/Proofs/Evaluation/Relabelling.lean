import Rulebook.Proofs.Evaluation.Renumbering

/-!
# Other names for links

The name of a link is only reported.  If what links are bound to matches in two bindings,
but the links have other names in the second, then the programs of the first may be given
links with those names, and then they report what those of the second do.
-/

namespace Rulebook

variable {Λ : Link → Link → Prop} {N : Nat → Nat → Prop} {B B' : Bindings} {ρ : Link → Link}

/-- The bindings with other links in the steps of all programs. -/
def Bindings.relabel (ρ : Link → Link) (B : Bindings) : Bindings :=
  B.map fun e => (e.1, e.2.relink ρ e.2.number)

theorem Bindings.lookup_relabel (ρ : Link → Link) (B : Bindings) (k : Nat) :
    (B.relabel ρ).lookup k = (B.lookup k).map fun p => p.relink ρ p.number := by
  induction B with
  | nil => rfl
  | cons e B ih =>
    rw [relabel, List.map_cons, List.lookup_cons, List.lookup_cons]
    split
    · rfl
    · exact ih

/-- Links can be given the names that corresponding links have, if these agree. -/
theorem exists_relabel (hΛ : ∀ {l l' l''}, Λ l l' → Λ l l'' → l'.name = l''.name) :
    ∃ ρ : Link → Link, (∀ l, (ρ l).number = l.number) ∧ ∀ l l', Λ l l' → (ρ l).name = l'.name := by
  classical
  refine ⟨fun l => if h : ∃ l', Λ l l' then ⟨l.number, h.choose.name⟩ else l, ?_, ?_⟩
  · intro l
    dsimp only
    split <;> rfl
  · intro l l' hl
    have hsome : ∃ l', Λ l l' := ⟨l', hl⟩
    dsimp only
    rw [dif_pos hsome]
    have hname : hsome.choose.name = l'.name := hΛ hsome.choose_spec hl
    exact hname

/-- Under the names of the corresponding links, links are followed as these are. -/
theorem Bindings.Matches.follow_relabel (h : B.Matches Λ N B')
    (hnumber : ∀ l, (ρ l).number = l.number) (hname : ∀ l l', Λ l l' → (ρ l).name = l'.name)
    (context : Option Context) (depth : Nat) {l l' : Link} (hl : Λ l l') (v : Value) :
    follow (B.relabel ρ) context depth [] (ρ l) v = follow B' context depth [] l' v := by
  have hsimulates : (B.relabel ρ).Simulates (fun m l' => ∃ l, m = ρ l ∧ Λ l l') N B' := by
    refine ⟨?_, ?_, h.injective⟩
    · rintro _ l' ⟨l, rfl, hl⟩
      exact hname l l' hl
    · rintro _ l' ⟨l, rfl, hl⟩
      rw [hnumber, Bindings.lookup_relabel]
      have hbound := h.bound hl
      generalize B.lookup l.number = x, B'.lookup l'.number = y at hbound ⊢
      cases hbound with
      | none => exact .none
      | @some p q hpq =>
        refine .some ⟨hpq.number, hpq.breakLoops, ?_⟩
        change List.Forall₂ _ (p.steps.map (Step.map (Callee.relink ρ))) q.steps
        rw [List.forall₂_map_left_iff]
        refine hpq.steps.imp fun s t hst => ?_
        rw [← Step.map_id t]
        refine Step.Rel.map (fun c d hcd => ?_) hst
        cases hcd with
        | pass => exact .pass
        | link hl' => exact .link ⟨_, rfl, hl'⟩
  exact hsimulates.follow_eq context depth .nil ⟨l, rfl, hl⟩ v

end Rulebook
