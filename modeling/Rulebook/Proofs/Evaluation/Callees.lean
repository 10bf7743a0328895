import Rulebook.Proofs.Evaluation.Simulation

/-!
# What programs call

A step lists its callees.  Steps that differ in what they call list callees that
correspond to each other, one by one.

A link calls those that its program, if it is bound to one, lists.  What is
followed from a link depends only on the programs of the links that can be
reached from it by such calls.
-/

namespace Rulebook

variable {γ δ : Type}

/-- The callees of an open rule. -/
def OpenRule.callees (o : OpenRule γ) : List γ := o.keys.toList ++ o.values.toList

/-- The callees of the items of a mapping. -/
def MappingItems.callees (m : MappingItems γ) : List γ :=
  m.entries.map Entry.callee ++ m.patterns.map PatternEntry.callee ++
    m.openRule.toList.flatMap OpenRule.callees

/-- The callees of a structure. -/
def Structure.callees (s : Structure γ) : List γ :=
  s.mapping.toList.flatMap MappingItems.callees ++
    s.sequence.toList.flatMap fun q => q.openRule.callees

/-- The callees of a step. -/
def Step.callees : Step γ → List γ
  | .check _ => []
  | .members s => s.callees
  | .anyOf bs | .oneOf bs => bs
  | .refer c => [c]

/-! ## Steps that differ in what they call -/

section

variable {R : γ → δ → Prop}

theorem forall₂_toList {o : Option γ} {p : Option δ} (h : Option.Rel R o p) :
    List.Forall₂ R o.toList p.toList := by
  cases h with
  | none => exact .nil
  | some hcd => exact .cons hcd .nil

theorem forall₂_flatMap {α β : Type} {Q : α → β → Prop} {f : α → List γ} {g : β → List δ}
    (hfg : ∀ a b, Q a b → List.Forall₂ R (f a) (g b)) {as : List α} {bs : List β}
    (h : List.Forall₂ Q as bs) : List.Forall₂ R (as.flatMap f) (bs.flatMap g) := by
  induction h with
  | nil => exact .nil
  | cons hab _ ih =>
    rw [List.flatMap_cons, List.flatMap_cons]
    exact List.rel_append (hfg _ _ hab) ih

theorem OpenRule.Rel.callees {o : OpenRule γ} {p : OpenRule δ} (h : OpenRule.Rel R o p) :
    List.Forall₂ R o.callees p.callees :=
  List.rel_append (forall₂_toList h.keys) (forall₂_toList h.values)

theorem MappingItems.Rel.callees {m : MappingItems γ} {n : MappingItems δ}
    (h : MappingItems.Rel R m n) : List.Forall₂ R m.callees n.callees := by
  refine List.rel_append (List.rel_append ?_ ?_) ?_
  · rw [List.forall₂_map_left_iff, List.forall₂_map_right_iff]
    exact h.entries.imp fun _ _ hef => hef.callee
  · rw [List.forall₂_map_left_iff, List.forall₂_map_right_iff]
    exact h.patterns.imp fun _ _ hpq => hpq.callee
  · exact forall₂_flatMap (fun _ _ hop => OpenRule.Rel.callees hop) (forall₂_toList h.openRule)

theorem Structure.Rel.callees {s : Structure γ} {t : Structure δ} (h : Structure.Rel R s t) :
    List.Forall₂ R s.callees t.callees :=
  List.rel_append
    (forall₂_flatMap (fun _ _ hmn => MappingItems.Rel.callees hmn) (forall₂_toList h.mapping))
    (forall₂_flatMap (fun _ _ hpq => OpenRule.Rel.callees hpq) (forall₂_toList h.sequence))

/-- Steps that differ in what they call list corresponding callees. -/
theorem Step.Rel.callees {s : Step γ} {t : Step δ} (h : Step.Rel R s t) :
    List.Forall₂ R s.callees t.callees := by
  cases h with
  | check c => exact .nil
  | members h => exact Structure.Rel.callees h
  | anyOf h => exact h
  | oneOf h => exact h
  | refer h => exact .cons h .nil

theorem exists_of_forall₂ {cs : List γ} {ds : List δ} (h : List.Forall₂ R cs ds) {d : δ}
    (hd : d ∈ ds) : ∃ c ∈ cs, R c d := by
  induction h with
  | nil => cases hd
  | cons hcd _ ih =>
    rcases List.mem_cons.1 hd with rfl | hd
    · exact ⟨_, List.mem_cons_self .., hcd⟩
    · obtain ⟨c, hc, hcd⟩ := ih hd
      exact ⟨c, List.mem_cons_of_mem _ hc, hcd⟩

end

/-! ## A step is related to itself -/

section

variable {R : γ → γ → Prop}

theorem Entry.Rel.self {e : Entry γ} (h : R e.callee e.callee) : Entry.Rel R e e :=
  ⟨rfl, rfl, rfl, h, rfl, rfl⟩

theorem optionRel_self {o : Option γ} (h : ∀ c ∈ o.toList, R c c) : Option.Rel R o o := by
  cases o with
  | none => exact .none
  | some c => exact .some (h c (List.mem_singleton_self _))

theorem OpenRule.Rel.self {o : OpenRule γ} (h : ∀ c ∈ o.callees, R c c) : OpenRule.Rel R o o :=
  ⟨optionRel_self fun c hc => h c (List.mem_append_left _ hc),
    optionRel_self fun c hc => h c (List.mem_append_right _ hc)⟩

theorem MappingItems.Rel.self {m : MappingItems γ} (h : ∀ c ∈ m.callees, R c c) :
    MappingItems.Rel R m m where
  entries := List.forall₂_same.2 fun e he => Entry.Rel.self (h e.callee
    (List.mem_append_left _ (List.mem_append_left _ (List.mem_map_of_mem he))))
  patterns := List.forall₂_same.2 fun p hp => ⟨rfl, rfl, h p.callee
    (List.mem_append_left _ (List.mem_append_right _ (List.mem_map_of_mem hp)))⟩
  openRule := optionRel_self fun o ho => OpenRule.Rel.self fun c hc => h c
    (List.mem_append_right _ (List.mem_flatMap.2 ⟨o, ho, hc⟩))
  policy := rfl

theorem Structure.Rel.self {s : Structure γ} (h : ∀ c ∈ s.callees, R c c) :
    Structure.Rel R s s where
  mapping := optionRel_self fun m hm => MappingItems.Rel.self fun c hc => h c
    (List.mem_append_left _ (List.mem_flatMap.2 ⟨m, hm, hc⟩))
  sequence := optionRel_self fun q hq => OpenRule.Rel.self fun c hc => h c
    (List.mem_append_right _ (List.mem_flatMap.2 ⟨q, hq, hc⟩))

/-- A step is related to itself if its callees are. -/
theorem Step.Rel.self {s : Step γ} (h : ∀ c ∈ s.callees, R c c) : Step.Rel R s s := by
  cases s with
  | check c => exact .check c
  | members s => exact .members (Structure.Rel.self h)
  | anyOf bs => exact .anyOf (List.forall₂_same.2 h)
  | oneOf bs => exact .oneOf (List.forall₂_same.2 h)
  | refer c => exact .refer (h c (List.mem_singleton_self _))

end

/-! ## Links that are reached -/

/-- The program calls the link in one of its steps. -/
def Program.Mentions (p : Program) (l : Link) : Prop := ∃ s ∈ p.steps, Callee.link l ∈ s.callees

namespace Bindings

/-- The program of the first link calls the second link. -/
def Calls (bindings : Bindings) (l l' : Link) : Prop :=
  ∃ p, bindings.lookup l.number = some p ∧ p.Mentions l'

/-- The second link is reached from the first one by calls. -/
abbrev Reaches (bindings : Bindings) : Link → Link → Prop :=
  Relation.ReflTransGen bindings.Calls

/-- The programs that are reached from a link by calls. -/
def programsFrom (bindings : Bindings) (l : Link) : Set Program :=
  {p | ∃ l', bindings.Reaches l l' ∧ bindings.lookup l'.number = some p}

variable {bindings : Bindings} {l l' : Link} {p : Program}

theorem mem_programsFrom_of_lookup (hp : bindings.lookup l.number = some p) :
    p ∈ bindings.programsFrom l := ⟨l, .refl, hp⟩

theorem programsFrom_subset (h : bindings.Calls l l') :
    bindings.programsFrom l' ⊆ bindings.programsFrom l := by
  rintro p ⟨l'', hreaches, hp⟩
  exact ⟨l'', .head h hreaches, hp⟩

end Bindings

/-- Bindings that agree on the links reached from a link are followed alike from it. -/
theorem follow_congr {B B' : Bindings} (context : Option Context) (depth : Nat)
    (frames : List Frame) {l : Link} (h : ∀ l', B.Reaches l l' →
      B'.lookup l'.number = B.lookup l'.number) (v : Value) :
    follow B' context depth frames l v = follow B context depth frames l v := by
  have hsimulates : B.Simulates (fun a b => a = b ∧ B.Reaches l a) Eq B' := by
    refine ⟨?_, ?_, ?_⟩
    · rintro a _ ⟨rfl, -⟩
      rfl
    · rintro a _ ⟨rfl, hreaches⟩
      rw [h a hreaches]
      refine optionRel_self fun p hp => ⟨rfl, rfl, List.forall₂_same.2 fun s hs => ?_⟩
      refine Step.Rel.self fun c hc => ?_
      cases c with
      | pass => exact .pass
      | link a' => exact .link ⟨rfl, hreaches.tail ⟨p, Option.mem_toList.1 hp, s, hs, hc⟩⟩
    · rintro a _ b _ rfl rfl
      rfl
  have hframes : List.Forall₂ (Frame.Rel Eq) frames frames :=
    List.forall₂_same.2 fun _ _ => ⟨rfl, rfl⟩
  exact (hsimulates.follow_eq context depth hframes ⟨rfl, .refl⟩ v).symm

end Rulebook
