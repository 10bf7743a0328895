import Rulebook.Proofs.Compilation.Invariant

/-!
# What names are bound to

The link of a rule keeps the program it is bound to.  The link of a name of the
batch is bound to the program of the rule the name stands for, or, if the rule
is a name, to a program that refers to that name.  When a compilation has ended,
every name of the batch is bound in this way.
-/

namespace Rulebook
namespace Source

variable {s : Source} {good : Source → Prop} {st st' : Staging}

/-- The programs to which a name of the batch may be bound. -/
inductive NameProgram (s : Source) (st : Staging) (n : String) : Program → Prop where
  | refer {m : String} {number : Nat} {t : Link} (hmem : (n, .text m) ∈ s.batch)
      (ht : (s.links st).name m = some t) : NameProgram s st n (s.aliasProgram n m number t)
  | rule {v : Value} {l t : Link} {p : Program} (hstands : s.Stands (s.links st) n v (l, t))
      (hp : s.bound st t = some p) : NameProgram s st n p

theorem NameProgram.exists_mem {n : String} {p : Program} (h : s.NameProgram st n p) :
    ∃ v, (n, v) ∈ s.batch := by
  cases h with
  | refer hmem _ => exact ⟨_, hmem⟩
  | rule hstands _ =>
    obtain ⟨hmem, -, -, -, -⟩ := hstands
    exact ⟨_, hmem⟩

/-- Names are bound in this batch to what they stand for. -/
def NamesHold (s : Source) (st : Staging) : Prop :=
  ∀ k p, (k, p) ∈ st.bindings → ∀ n l, (s.links st).name n = some l → l.number = k →
    s.NameProgram st n p

theorem Sound.rule_ne_name {P : Position} (h : s.Sound good P) {i : SchemaId} {n : String}
    {t l : Link} (ht : (s.links P.staging).rule i = some t)
    (hl : (s.links P.staging).name n = some l) : t.number ≠ l.number := by
  intro heq
  have hab : Target.rule i = Target.name n := h.numbered.injective ht hl heq
  cases hab

/-- The link of a rule keeps its program. -/
theorem Sound.bound_rule {P Q : Position} (h : s.Sound good P) (hmove : s.Move P Q)
    {i : SchemaId} {t : Link} {p : Program} (ht : (s.links P.staging).rule i = some t)
    (hp : s.bound P.staging t = some p) : s.bound Q.staging t = some p := by
  have hother : ∀ {k q}, t.number ≠ k →
      ((k, q) :: (P.staging.bindings ++ s.bindings)).lookup t.number = some p := by
    intro k q hne
    rw [Linkage.lookup_cons, if_neg hne]
    exact hp
  cases hmove with
  | grow hgrow =>
    cases hgrow with
    | name _ => exact hp
    | rule _ _ _ => exact hp
  | take _ => exact hp
  | @finish st task r q _ _ _ _ =>
    refine hother ?_
    obtain ⟨hlink, hnone⟩ := h.compiled.unbound task (List.mem_cons_self ..)
    intro heq
    rw [← heq] at hnone
    exact absurd (hnone.symm.trans hp) (by simp)
  | refer _ hl _ => exact hother (h.rule_ne_name ht hl)
  | name _ _ _ _ _ => exact hp
  | bind hmem _ =>
    obtain ⟨n, v, hstands⟩ := h.named _ hmem
    obtain ⟨-, -, -, hl, -⟩ := hstands
    exact hother (h.rule_ne_name ht hl)

theorem Sound.bound_rule_moves {P Q : Position} (hgood : good s) (h : s.Sound good P)
    (hmoves : s.Moves P Q) {i : SchemaId} {t : Link} {p : Program}
    (ht : (s.links P.staging).rule i = some t) (hp : s.bound P.staging t = some p) :
    s.bound Q.staging t = some p := by
  induction hmoves with
  | refl => exact hp
  | tail hmoves hmove ih =>
    exact (h.moves hgood hmoves).bound_rule hmove ((Moves.links_within hmoves).rule ht) ih

theorem NameProgram.move {P Q : Position} (h : s.Sound good P) (hmove : s.Move P Q) {n : String}
    {p : Program} (hp : s.NameProgram P.staging n p) : s.NameProgram Q.staging n p := by
  cases hp with
  | refer hmem ht => exact .refer hmem (hmove.links_within.name ht)
  | rule hstands hp =>
    have hrule := hstands
    obtain ⟨-, -, -, -, ht⟩ := hrule
    exact .rule (hstands.mono hmove.links_within) (h.bound_rule hmove ht hp)

/-- The name of a link that was known before it was handed out again is the same. -/
theorem Sound.name_of_move {P Q : Position} (h : s.Sound good P) (hmove : s.Move P Q)
    {k : Nat} {p : Program} (hk : (k, p) ∈ P.staging.bindings ++ s.bindings) {n : String}
    {l : Link} (hl : (s.links Q.staging).name n = some l) (hnumber : l.number = k) :
    (s.links P.staging).name n = some l := by
  cases hmove with
  | @grow busy st st' hgrow =>
    have hlt : k < st.nextLink := (h.numbered.bound hk).1
    cases hgrow with
    | @name m hnew =>
      have hlink : ((s.linkage st).withLink (.name m) ⟨st.nextLink, m⟩).links.link (.name n) =
          some l := by
        rw [← linkage_withName hnew]
        exact hl
      rcases Linkage.link_withLink hlink with ⟨-, rfl⟩ | ⟨-, hold⟩
      · exact absurd (hnumber ▸ hlt) (Nat.lt_irrefl _)
      · exact hold
    | rule _ _ _ => exact hl
  | _ => exact hl

theorem Sound.name_of_moves {P Q : Position} (hgood : good s) (h : s.Sound good P)
    (hmoves : s.Moves P Q) {k : Nat} {p : Program} (hk : (k, p) ∈ P.staging.bindings ++ s.bindings)
    {n : String} {l : Link} (hl : (s.links Q.staging).name n = some l) (hnumber : l.number = k) :
    (s.links P.staging).name n = some l := by
  induction hmoves with
  | refl => exact hl
  | tail hmoves hmove ih =>
    obtain ⟨added, hadded⟩ := Moves.bindings_suffix hmoves
    refine ih ((h.moves hgood hmoves).name_of_move hmove (p := p) ?_ hl hnumber)
    rw [← hadded, List.append_assoc]
    exact List.mem_append_right _ hk

theorem NamesHold.move {P Q : Position} (h : s.Sound good P) (hmove : s.Move P Q)
    (hnames : s.NamesHold P.staging) : s.NamesHold Q.staging := by
  have hold : ∀ k p, (k, p) ∈ P.staging.bindings → ∀ n l,
      (s.links Q.staging).name n = some l → l.number = k → s.NameProgram Q.staging n p := by
    intro k p hk n l hl hnumber
    exact (hnames k p hk n l (h.name_of_move hmove (List.mem_append_left _ hk) hl hnumber)
      hnumber).move h hmove
  cases hmove with
  | grow hgrow =>
    cases hgrow with
    | name _ => exact hold
    | rule _ _ _ => exact hold
  | take _ => exact hold
  | @finish st task r p hread hnumber hid hemits =>
    intro k q hk n l hl heq
    rcases List.mem_cons.1 hk with hk | hk
    · cases hk
      have htask := (h.compiled.unbound task (List.mem_cons_self ..)).1
      exact absurd heq.symm (h.rule_ne_name htask hl)
    · exact hold k q hk n l hl heq
  | @refer st n m l t hmem hl ht =>
    intro k q hk n' l' hl' heq
    rcases List.mem_cons.1 hk with hk | hk
    · cases hk
      have hn : Target.name n' = Target.name n := h.numbered.injective hl' hl heq
      cases hn
      exact .refer hmem ht
    · exact hold k q hk n' l' hl' heq
  | name _ _ _ _ _ => exact hold
  | @bind st l t p hmem hp =>
    obtain ⟨n, v, hstands⟩ := h.named _ hmem
    have hlinks := hstands
    obtain ⟨-, -, -, hl, ht⟩ := hlinks
    intro k q hk n' l' hl' heq
    rcases List.mem_cons.1 hk with hk | hk
    · cases hk
      have hn : Target.name n' = Target.name n := h.numbered.injective hl' hl heq
      cases hn
      exact .rule hstands (h.bound_rule (.bind hmem hp) ht hp)
    · exact hold k q hk n' l' hl' heq

theorem NamesHold.moves {P Q : Position} (hgood : good s) (h : s.Sound good P)
    (hmoves : s.Moves P Q) (hnames : s.NamesHold P.staging) : s.NamesHold Q.staging := by
  induction hmoves with
  | refl => exact hnames
  | tail hmoves hmove ih => exact NamesHold.move (h.moves hgood hmoves) hmove ih

/-! ## The end of a compilation -/

theorem Flattens.unique {n : String} {v : Value} {flat flat' : Entries Value}
    (h : s.Flattens n v flat) (h' : s.Flattens n v flat') : flat = flat' := by
  cases h with
  | null =>
    cases h'
    rfl
  | mapping h =>
    cases h' with
    | mapping h' => exact Except.ok.inj (h.symm.trans h')

section

variable (hgood : good s) (hsound : s.Sound good ⟨none, st⟩) (hready : s.Ready st)
  (hfresh : st.bindings = []) (hcompile : s.compileBatch.Yields st () st')
  (hbatch : Entries.Sorted s.batch)
include hgood hsound hready hcompile

/-- The name of a rule that was compiled is bound. -/
theorem compileBatch_named {pair : Link × Link} (hpair : pair ∈ st'.named) :
    (st'.bindings.lookup pair.1.number).isSome := by
  obtain ⟨-, -, -, st₁, hmoves₁, -, hdone₁, hnamed, hbound⟩ := Moves.compileBatch hcompile hready
  have hwaiting : (Position.mk none st₁).waiting = [] := by
    rw [Position.waiting, hdone₁]
    rfl
  have hsound₁ := hsound.moves hgood hmoves₁
  rw [hnamed] at hpair
  -- The rule was bound before the names were.
  obtain ⟨n, v, hstands⟩ := hsound₁.named _ hpair
  obtain ⟨-, -, -, -, ht⟩ := hstands
  obtain ⟨q, hq, -⟩ := hsound₁.rule_built hwaiting ht
  refine hbound _ hpair ?_
  rw [hq]
  rfl

/-- Every name of the batch is bound. -/
theorem compileBatch_bound {n : String} {v : Value} (hmem : (n, v) ∈ s.batch) :
    ∃ l, (s.links st').name n = some l ∧ (st'.bindings.lookup l.number).isSome := by
  obtain ⟨-, -, hsettled, -⟩ := Moves.compileBatch hcompile hready
  cases hsettled _ hmem with
  | refer hl hbound => exact ⟨_, hl, hbound⟩
  | rule hstands hpair =>
    have hbound := compileBatch_named hgood hsound hready hcompile hpair
    obtain ⟨-, -, -, hl, -⟩ := hstands
    exact ⟨_, hl, hbound⟩

include hfresh

theorem compileBatch_sound : s.Sound good ⟨none, st'⟩ ∧ s.NamesHold st' ∧ st'.todo = [] := by
  obtain ⟨hmoves, hdone, -⟩ := Moves.compileBatch hcompile hready
  have hnames : s.NamesHold st := by
    intro k p hk
    rw [hfresh] at hk
    cases hk
  exact ⟨hsound.moves hgood hmoves, NamesHold.moves hgood hsound hmoves hnames, hdone⟩

include hbatch

/-- A name of the batch is bound to the program of its rule. -/
theorem compileBatch_rule {n : String} {v : Value} (hmem : (n, v) ∈ s.batch)
    (hv : ∀ m, v ≠ .text m) :
    ∃ flat form l t p, s.Flattens n v flat ∧ s.form flat n = .ok form ∧
      (s.links st').name n = some l ∧
      (s.links st').rule (SchemaId.of s.digest form s.options) = some t ∧
      s.bound st' l = some p ∧ s.bound st' t = some p := by
  obtain ⟨hsound', hnames, hdone⟩ := compileBatch_sound hgood hsound hready hfresh hcompile
  obtain ⟨-, -, hsettled, -⟩ := Moves.compileBatch hcompile hready
  have hunique : ∀ {v'}, (n, v') ∈ s.batch → v = v' := by
    intro v' hmem'
    exact Option.some.inj (((Entries.lookup_eq_some_iff hbatch).2 hmem).symm.trans
      ((Entries.lookup_eq_some_iff hbatch).2 hmem'))
  have hpair : ∃ pair, s.Stands (s.links st') n v pair ∧ pair ∈ st'.named := by
    cases hsettled _ hmem with
    | refer _ _ => exact absurd rfl (hv _)
    | rule hpair hpairMem => exact ⟨_, hpair, hpairMem⟩
  obtain ⟨⟨l, t⟩, hstands, hpairMem⟩ := hpair
  have hstaged := compileBatch_named hgood hsound hready hcompile hpairMem
  obtain ⟨p, hp⟩ := Option.isSome_iff_exists.1 hstaged
  obtain ⟨-, hflat, hform, hl, ht⟩ := hstands
  refine ⟨_, _, l, t, p, hflat, hform, hl, ht, ?_, ?_⟩
  · rw [bound, List.lookup_append, hp, Option.some_or]
  · cases hnames _ _ (Linkage.mem_of_lookup hp) n l hl rfl with
    | refer hrefer _ => exact absurd (hunique hrefer) (hv _)
    | @rule v₂ l₂ t₂ _ hstands₂ hp₂ =>
      obtain ⟨hmem₂, hflat₂, hform₂, -, ht₂⟩ := hstands₂
      rw [← hunique hmem₂] at hflat₂
      rw [hflat₂.unique hflat, hform] at hform₂
      rw [← Except.ok.inj hform₂, ht] at ht₂
      rw [Option.some.inj ht₂]
      exact hp₂

/-- A name of the batch whose rule is a name is bound to a program that refers to it. -/
theorem compileBatch_refer {n m : String} (hmem : (n, .text m) ∈ s.batch) :
    ∃ l t number, (s.links st').name n = some l ∧ (s.links st').name m = some t ∧
      s.bound st' l = some (s.aliasProgram n m number t) := by
  obtain ⟨hsound', hnames, hdone⟩ := compileBatch_sound hgood hsound hready hfresh hcompile
  obtain ⟨l, hl, hstaged⟩ := compileBatch_bound hgood hsound hready hcompile hmem
  obtain ⟨p, hp⟩ := Option.isSome_iff_exists.1 hstaged
  have hlookup : s.bound st' l = some p := by
    rw [bound, List.lookup_append, hp, Option.some_or]
  cases hnames _ _ (Linkage.mem_of_lookup hp) n l hl rfl with
  | @refer m' number t hmem' ht =>
    have hv := Option.some.inj (((Entries.lookup_eq_some_iff hbatch).2 hmem).symm.trans
      ((Entries.lookup_eq_some_iff hbatch).2 hmem'))
    cases hv
    exact ⟨l, t, number, hl, ht, hlookup⟩
  | @rule v l₂ t₂ _ hstands _ =>
    obtain ⟨hmem₂, hflat₂, -, -, -⟩ := hstands
    have hv := Option.some.inj (((Entries.lookup_eq_some_iff hbatch).2 hmem).symm.trans
      ((Entries.lookup_eq_some_iff hbatch).2 hmem₂))
    rw [← hv] at hflat₂
    cases hflat₂

end

end Source
end Rulebook
