import Rulebook.Proofs.Evaluation.Order

/-!
# Links and programs under other numbers

The numbers of links and programs only tell them apart.  So calls are followed alike
in two bindings if the links that occur correspond to each other, corresponding links
are bound to programs that differ in corresponding links only, and the programs can be
told apart in the one where they can be told apart in the other.
-/

namespace Rulebook

/-- Callees by corresponding links. -/
inductive Callee.Rel (Λ : Link → Link → Prop) : Callee → Callee → Prop where
  | pass : Callee.Rel Λ .pass .pass
  | link {l l' : Link} (h : Λ l l') : Callee.Rel Λ (.link l) (.link l')

/-- Programs under corresponding numbers that differ in corresponding links only. -/
structure Program.Rel (Λ : Link → Link → Prop) (N : Nat → Nat → Prop) (p q : Program) : Prop where
  number : N p.number q.number
  breakLoops : p.breakLoops = q.breakLoops
  steps : List.Forall₂ (Step.Rel (Callee.Rel Λ)) p.steps q.steps

/-- Frames of corresponding programs, entered with one value. -/
structure Frame.Rel (N : Nat → Nat → Prop) (f g : Frame) : Prop where
  number : N f.number g.number
  value : f.value = g.value

/-- Corresponding links are bound to corresponding programs, and the numbers of these
correspond one to one. -/
structure Bindings.Matches (Λ : Link → Link → Prop) (N : Nat → Nat → Prop)
    (B B' : Bindings) : Prop where
  bound : ∀ {l l'}, Λ l l' →
    Option.Rel (Program.Rel Λ N) (B.lookup l.number) (B'.lookup l'.number)
  injective : ∀ {a a' b b'}, N a a' → N b b' → (a = b ↔ a' = b')

/-- Corresponding links have one name and are bound to corresponding programs, and
the numbers of these correspond one to one. -/
structure Bindings.Simulates (Λ : Link → Link → Prop) (N : Nat → Nat → Prop)
    (B B' : Bindings) : Prop where
  name : ∀ {l l'}, Λ l l' → l.name = l'.name
  bound : ∀ {l l'}, Λ l l' →
    Option.Rel (Program.Rel Λ N) (B.lookup l.number) (B'.lookup l'.number)
  injective : ∀ {a a' b b'}, N a a' → N b b' → (a = b ↔ a' = b')

variable {Λ : Link → Link → Prop} {N : Nat → Nat → Prop} {B B' : Bindings}

theorem Bindings.Matches.congr {C C' : Bindings} (h : B.Matches Λ N B')
    (hB : ∀ k, C.lookup k = B.lookup k) (hB' : ∀ k, C'.lookup k = B'.lookup k) :
    C.Matches Λ N C' where
  bound hl := by
    rw [hB, hB']
    exact h.bound hl
  injective := h.injective

/-- A program is in flight where the corresponding one is. -/
theorem inFlight_eq (hN : ∀ {a a' b b'}, N a a' → N b b' → (a = b ↔ a' = b'))
    {frames frames' : List Frame} (hframes : List.Forall₂ (Frame.Rel N) frames frames')
    {f g : Frame} (hfg : Frame.Rel N f g) : inFlight frames f = inFlight frames' g := by
  have hsame : ∀ {a b}, Frame.Rel N a b → a.same f = b.same g := by
    intro a b hab
    rw [Bool.eq_iff_iff, Frame.same_iff, Frame.same_iff, hab.value, hfg.value,
      hN hab.number hfg.number]
  induction hframes with
  | nil => rfl
  | cons hab _ ih =>
    rw [inFlight, inFlight, List.any_cons, List.any_cons, hsame hab]
    exact congrArg _ ih

/-- The name of a link is reported where nothing is bound to it, and where its program
is entered again and takes that for a failure. -/
def Bindings.Reports (B : Bindings) (l : Link) : Prop :=
  ∀ p, B.lookup l.number = some p → p.breakLoops = false

/-- Corresponding links are followed alike, to every depth, if they have one name where
it is reported. -/
theorem Bindings.Matches.follow_eq (h : B.Matches Λ N B')
    (hname : ∀ {l l'}, Λ l l' → B.Reports l → l.name = l'.name) (context : Option Context)
    (depth : Nat) {frames frames' : List Frame}
    (hframes : List.Forall₂ (Frame.Rel N) frames frames') {l l' : Link} (hl : Λ l l') (v : Value) :
    follow B context depth frames l v = follow B' context depth frames' l' v := by
  induction depth generalizing frames frames' l l' v with
  | zero => rfl
  | succ depth ih =>
    rw [follow, follow]
    have hbound := h.bound hl
    have hreported := hname hl
    rw [Bindings.Reports] at hreported
    generalize B.lookup l.number = x, B'.lookup l'.number = y at hbound hreported
    cases hbound with
    | none =>
      dsimp only
      rw [hreported fun p hp => by cases hp]
    | @some p q hpq =>
      have hframe : Frame.Rel N (Frame.enter p.number v) (Frame.enter q.number v) :=
        ⟨hpq.number, rfl⟩
      dsimp only
      rw [Program.run, Program.run, inFlight_eq h.injective hframes hframe, ← hpq.breakLoops]
      split
      · split
        · rfl
        · rename_i hloops
          rw [hreported fun _ hp => by rw [← Option.some.inj hp]; exact Bool.eq_false_iff.2 hloops]
      · refine runSteps_eq (R := Callee.Rel Λ) (fun c d hcd w => ?_) hpq.steps context v
        cases hcd with
        | pass => rfl
        | link hl' => exact ih (.cons hframe hframes) hl' w

/-- Corresponding links are followed alike, to every depth. -/
theorem Bindings.Simulates.follow_eq (h : B.Simulates Λ N B') (context : Option Context)
    (depth : Nat) {frames frames' : List Frame}
    (hframes : List.Forall₂ (Frame.Rel N) frames frames') {l l' : Link} (hl : Λ l l') (v : Value) :
    follow B context depth frames l v = follow B' context depth frames' l' v :=
  Matches.follow_eq ⟨h.bound, h.injective⟩ (fun hl' _ => h.name hl') context depth hframes hl v

theorem Bindings.Simulates.evaluate_eq (h : B.Simulates Λ N B') (depth : Nat)
    (context : Option Context) {l l' : Link} (hl : Λ l l') (v : Value) :
    evaluate depth B context l v = evaluate depth B' context l' v := by
  rw [evaluate, evaluate, h.follow_eq context depth .nil hl v]

end Rulebook
