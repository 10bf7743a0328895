import Rulebook.Proofs.Evaluation.Simulation

/-!
# Programs that may stand for each other

What a program does depends on its steps and on how it meets itself again, not on
the number by which it is told apart.  So a program may be exchanged for one with
the same steps under a number of its own, wherever it is bound.

Steps may be carried over to other links.  If what two steps call is related, and
related callees are carried over to each other, then so are the steps.
-/

namespace Rulebook

variable {γ δ : Type}

/-! ## Carrying steps over -/

/-- An entry that calls something else. -/
def Entry.map (f : γ → δ) (e : Entry γ) : Entry δ :=
  ⟨e.key, e.output, e.synonyms, f e.callee, e.default, e.required⟩

/-- A pattern entry that calls something else. -/
def PatternEntry.map (f : γ → δ) (p : PatternEntry γ) : PatternEntry δ :=
  ⟨p.pattern, p.rename, f p.callee⟩

/-- An open rule that calls something else. -/
def OpenRule.map (f : γ → δ) (o : OpenRule γ) : OpenRule δ := ⟨o.keys.map f, o.values.map f⟩

/-- Items of a mapping that call something else. -/
def MappingItems.map (f : γ → δ) (m : MappingItems γ) : MappingItems δ :=
  ⟨m.entries.map (Entry.map f), m.patterns.map (PatternEntry.map f),
    m.openRule.map (OpenRule.map f), m.policy⟩

/-- A structure that calls something else. -/
def Structure.map (f : γ → δ) (s : Structure γ) : Structure δ :=
  ⟨s.mapping.map (MappingItems.map f), s.sequence.map fun q => ⟨OpenRule.map f q.openRule⟩⟩

/-- A step that calls something else. -/
def Step.map (f : γ → δ) : Step γ → Step δ
  | .check c => .check c
  | .members s => .members (s.map f)
  | .anyOf bs => .anyOf (bs.map f)
  | .oneOf bs => .oneOf (bs.map f)
  | .refer c => .refer (f c)

section

variable {R : γ → δ → Prop} {f : γ → δ} (h : ∀ c d, R c d → f c = d)
include h

theorem map_eq_of_forall₂ {cs : List γ} {ds : List δ} (hcs : List.Forall₂ R cs ds) :
    cs.map f = ds := by
  induction hcs with
  | nil => rfl
  | cons hcd _ ih => rw [List.map_cons, h _ _ hcd, ih]

theorem map_eq_of_optionRel {o : Option γ} {p : Option δ} (hop : Option.Rel R o p) :
    o.map f = p := by
  cases hop with
  | none => rfl
  | some hcd => rw [Option.map_some, h _ _ hcd]

theorem Entry.Rel.map_eq {e : Entry γ} {e' : Entry δ} (he : Entry.Rel R e e') : e.map f = e' := by
  obtain ⟨hkey, houtput, hsynonyms, hcallee, hdefault, hrequired⟩ := he
  cases e'
  simp only [Entry.map, hkey, houtput, hsynonyms, h _ _ hcallee, hdefault, hrequired]

theorem PatternEntry.Rel.map_eq {p : PatternEntry γ} {q : PatternEntry δ}
    (hpq : PatternEntry.Rel R p q) : p.map f = q := by
  obtain ⟨hpattern, hrename, hcallee⟩ := hpq
  cases q
  simp only [PatternEntry.map, hpattern, hrename, h _ _ hcallee]

theorem OpenRule.Rel.map_eq {o : OpenRule γ} {p : OpenRule δ} (hop : OpenRule.Rel R o p) :
    o.map f = p := by
  obtain ⟨hkeys, hvalues⟩ := hop
  cases p
  simp only [OpenRule.map, map_eq_of_optionRel h hkeys, map_eq_of_optionRel h hvalues]

theorem MappingItems.Rel.map_eq {m : MappingItems γ} {n : MappingItems δ}
    (hmn : MappingItems.Rel R m n) : m.map f = n := by
  obtain ⟨hentries, hpatterns, hopen, hpolicy⟩ := hmn
  cases n
  simp only [MappingItems.map, map_eq_of_forall₂ (fun _ _ he => Entry.Rel.map_eq h he) hentries,
    map_eq_of_forall₂ (fun _ _ hp => PatternEntry.Rel.map_eq h hp) hpatterns,
    map_eq_of_optionRel (fun _ _ ho => OpenRule.Rel.map_eq h ho) hopen, hpolicy]

theorem Structure.Rel.map_eq {s : Structure γ} {t : Structure δ} (hst : Structure.Rel R s t) :
    s.map f = t := by
  obtain ⟨hmapping, hsequence⟩ := hst
  cases t
  have hitems : ∀ (p : SequenceItems γ) (q : SequenceItems δ),
      OpenRule.Rel R p.openRule q.openRule → SequenceItems.mk (OpenRule.map f p.openRule) = q := by
    intro p q hpq
    cases q
    rw [OpenRule.Rel.map_eq h hpq]
  simp only [Structure.map, map_eq_of_optionRel (fun _ _ hm => MappingItems.Rel.map_eq h hm) hmapping,
    map_eq_of_optionRel hitems hsequence]

/-- Steps whose callees are carried over to each other are carried over to each
other. -/
theorem Step.Rel.map_eq {s : Step γ} {t : Step δ} (hst : Step.Rel R s t) : s.map f = t := by
  cases hst with
  | check c => rfl
  | members hm => rw [Step.map, Structure.Rel.map_eq h hm]
  | anyOf hbs => rw [Step.map, map_eq_of_forall₂ h hbs]
  | oneOf hbs => rw [Step.map, map_eq_of_forall₂ h hbs]
  | refer hcd => rw [Step.map, h _ _ hcd]

end

/-- The same callee under another link. -/
def Callee.relink (ρ : Link → Link) : Callee → Callee
  | .pass => .pass
  | .link l => .link (ρ l)

/-- The program with other links in its steps, under another number. -/
def Program.relink (p : Program) (ρ : Link → Link) (number : Nat) : Program :=
  { p with number, steps := p.steps.map (Step.map (Callee.relink ρ)) }

/-! ## Exchanging a program -/

/-- The bindings with another program in place of the one with a number. -/
def exchange (bindings : Bindings) (number : Nat) (q : Program) : Bindings :=
  bindings.map fun e => (e.1, if e.2.number = number then q else e.2)

/-- Programs that do the same, under numbers that correspond to each other. -/
structure Program.Alike (σ : Nat → Nat) (p q : Program) : Prop where
  number : q.number = σ p.number
  breakLoops : q.breakLoops = p.breakLoops
  steps : q.steps = p.steps

variable {σ : Nat → Nat} {B B' : Bindings}

theorem lookup_alike (hB : List.Forall₂ (fun e f => e.1 = f.1 ∧ Program.Alike σ e.2 f.2) B B')
    (k : Nat) :
    Option.Rel (fun p q => Program.Alike σ p q ∧ ∃ e ∈ B, e.2 = p) (B.lookup k) (B'.lookup k) := by
  induction hB with
  | nil => exact .none
  | @cons e f es fs hef _ ih =>
    obtain ⟨a, p⟩ := e
    obtain ⟨b, q⟩ := f
    obtain ⟨hkey, halike⟩ := hef
    dsimp only at hkey halike
    subst hkey
    rw [List.lookup_cons, List.lookup_cons]
    split
    · exact .some ⟨halike, _, List.mem_cons_self .., rfl⟩
    · refine optionRel_mono ?_ ih
      rintro p q ⟨halike', e, he, hp⟩
      exact ⟨halike', e, List.mem_cons_of_mem _ he, hp⟩

/-- Bindings to programs that do the same simulate each other. -/
theorem simulates_of_alike
    (hB : List.Forall₂ (fun e f => e.1 = f.1 ∧ Program.Alike σ e.2 f.2) B B')
    (hσ : ∀ e ∈ B, ∀ f ∈ B, σ e.2.number = σ f.2.number → e.2.number = f.2.number) :
    B.Simulates Eq (fun a a' => (∃ e ∈ B, e.2.number = a) ∧ a' = σ a) B' := by
  refine ⟨fun h => congrArg Link.name h, ?_, ?_⟩
  · rintro l _ rfl
    refine optionRel_mono ?_ (lookup_alike hB l.number)
    rintro p q ⟨⟨hnumber, hloops, hsteps⟩, e, he, rfl⟩
    refine ⟨⟨⟨e, he, rfl⟩, hnumber⟩, hloops.symm, ?_⟩
    rw [hsteps]
    refine (Step.Rel.forall₂Refl _).imp fun _ _ hst => hst.mono ?_
    rintro c _ rfl
    cases c with
    | pass => exact .pass
    | link l => exact .link rfl
  · rintro _ _ _ _ ⟨⟨e, he, rfl⟩, rfl⟩ ⟨⟨f, hf, rfl⟩, rfl⟩
    exact ⟨congrArg σ, hσ e he f hf⟩

/-- A program may be exchanged for one with the same steps and a number of its own. -/
theorem follow_exchange {B : Bindings} {p q : Program}
    (hp : ∀ e ∈ B, e.2.number = p.number → e.2 = p) (hq : ∀ e ∈ B, e.2.number ≠ q.number)
    (hloops : q.breakLoops = p.breakLoops) (hsteps : q.steps = p.steps)
    (context : Option Context) (depth : Nat) (l : Link) (v : Value) :
    follow (exchange B p.number q) context depth [] l v = follow B context depth [] l v := by
  refine ((simulates_of_alike (σ := fun k => if k = p.number then q.number else k) ?_ ?_).follow_eq
    context depth .nil rfl v).symm
  · rw [exchange, List.forall₂_map_right_iff]
    refine List.forall₂_same.2 fun e he => ⟨rfl, ?_⟩
    by_cases hnumber : e.2.number = p.number
    · rw [if_pos hnumber, hp e he hnumber]
      exact ⟨(if_pos rfl).symm, hloops, hsteps⟩
    · rw [if_neg hnumber]
      exact ⟨(if_neg hnumber).symm, rfl, rfl⟩
  · intro e he f hf heq
    split at heq
    · rename_i hep
      split at heq
      · rename_i hfp
        rw [hep, hfp]
      · exact absurd heq.symm (hq f hf)
    · split at heq
      · exact absurd heq (hq e he)
      · exact heq

end Rulebook
