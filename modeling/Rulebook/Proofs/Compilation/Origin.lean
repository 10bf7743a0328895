import Rulebook.Proofs.Compilation.Names
import Rulebook.Proofs.Evaluation.Callees

/-!
# What bound programs were made of

A program that is bound to a link was made either of the name of another rule or
of a rule of its identity.  So what it calls are the links of names, as the
linkage has them, and the links of identities, and nothing else.

Every move keeps this, and no move puts an identity into the cache twice.
-/

namespace Rulebook

/-- What a bound program was made of, in some batch that was in order: the name of
another rule, or a rule of the program's identity. -/
inductive Origin (good : Source → Prop) (T : Links) : Program → Prop where
  | refer {s : Source} {n m : String} {number : Nat} {t : Link} (hgood : good s)
      (hmem : (n, .text m) ∈ s.batch) (ht : T.name m = some t) :
      Origin good T (s.aliasProgram n m number t)
  | rule {p : Program} (hbuilt : Built good T p.id p) : Origin good T p

theorem Built.id_eq {good : Source → Prop} {T : Links} {i : SchemaId} {p : Program}
    (h : Built good T i p) : p.id = i := by
  obtain ⟨s, features, form, options, hgood, hocc, hform, hi, hid, hemits⟩ := h
  exact hid

namespace Origin

variable {good : Source → Prop} {T U : Links} {p : Program}

theorem of_built {i : SchemaId} (h : Built good T i p) : Origin good T p := by
  refine .rule ?_
  rw [h.id_eq]
  exact h

theorem mono (h : T.Within U) (hp : Origin good T p) : Origin good U p := by
  cases hp with
  | refer hgood hmem ht => exact .refer hgood hmem (h.name ht)
  | rule hbuilt => exact .rule (hbuilt.mono h)

/-- What a program calls is the link of a name or of an identity. -/
theorem mentions (hp : Origin good T p) {l : Link} (hl : p.Mentions l) :
    ∃ a, T.link a = some l := by
  obtain ⟨step, hstep, hcallee⟩ := hl
  cases hp with
  | @refer s n m number t hgood hmem ht =>
    cases List.mem_singleton.1 hstep
    cases List.mem_singleton.1 hcallee
    exact ⟨.name m, ht⟩
  | rule hbuilt =>
    obtain ⟨s, features, form, options, -, -, -, -, -, hemits⟩ := hbuilt
    obtain ⟨-, rule, plan, -, -, hsteps⟩ := hemits
    obtain ⟨stage, -, hrel⟩ := exists_of_forall₂ hsteps hstep
    obtain ⟨v, -, href⟩ := exists_of_forall₂ hrel.callees hcallee
    cases href with
    | @name m _ hname => exact ⟨.name m, hname⟩
    | rule _ _ hrule => exact ⟨.rule _, hrule⟩

end Origin

/-- No stage of a rule refers to a whole other rule. -/
theorem Source.steps_ne_refer {s : Source} {T : Links} {features : Entries Value}
    {options : Options} {p : Program} (h : s.Emits T features options p) (t : Callee) : p.steps ≠ [.refer t] := by
  intro heq
  obtain ⟨-, r, plan, -, hplan, hsteps⟩ := h
  rw [heq] at hsteps
  cases hsteps with
  | cons hstep _ =>
    cases hstep with
    | refer _ => exact Rule.ne_refer_of_mem_stages hplan (List.mem_cons_self ..) _ rfl

/-- Every bound program has an origin. -/
def Linkage.Published (good : Source → Prop) (L : Linkage) : Prop :=
  ∀ k p, (k, p) ∈ L.bindings → Origin good L.links p

namespace Source

variable {s : Source} {good : Source → Prop} {P Q : Position}

/-- Every move binds programs with an origin only. -/
theorem published_move (hgood : good s) (h : s.Sound good P) (hmove : s.Move P Q)
    (hpublished : (s.linkage P.staging).Published good) :
    (s.linkage Q.staging).Published good := by
  have hwithin := hmove.links_within
  have hold : ∀ k p, (k, p) ∈ P.staging.bindings ++ s.bindings →
      Origin good (s.links Q.staging) p := fun k p hk => (hpublished k p hk).mono hwithin
  cases hmove with
  | grow hgrow =>
    cases hgrow with
    | name _ => exact hold
    | rule _ _ _ => exact hold
  | take _ => exact hold
  | @finish st task r p hread hnumber hid hemits =>
    intro k q hk
    rcases List.mem_cons.1 hk with hk | hk
    · cases hk
      have htask : s.Waits task := h.waits task (List.mem_cons_self ..)
      exact .of_built ⟨s, _, _, _, hgood, htask.occurs, htask.form, htask.id.symm, hid, hemits⟩
    · exact hold k q hk
  | refer hmem _ ht =>
    intro k q hk
    rcases List.mem_cons.1 hk with hk | hk
    · cases hk
      exact .refer hgood hmem ht
    · exact hold k q hk
  | name _ _ _ _ _ => exact hold
  | bind _ hp =>
    intro k q hk
    rcases List.mem_cons.1 hk with hk | hk
    · cases hk
      exact hold _ _ (Linkage.mem_of_lookup hp)
    · exact hold k q hk

theorem published_moves (hgood : good s) (h : s.Sound good P) (hmoves : s.Moves P Q)
    (hpublished : (s.linkage P.staging).Published good) :
    (s.linkage Q.staging).Published good := by
  induction hmoves with
  | refl => exact hpublished
  | tail hmoves hmove ih => exact published_move hgood (h.moves hgood hmoves) hmove ih

end Source

/-! ## Programs that refer to a name -/

/-- A program that only refers to another is bound to the name that it is labelled with. -/
def Linkage.Labelled (L : Linkage) : Prop :=
  ∀ a l p c, L.links.link a = some l → L.bindings.lookup l.number = some p →
    p.steps = [.refer c] → a = .name p.label

namespace Source

variable {s : Source} {good : Source → Prop} {P Q : Position}

/-- Every move labels the programs that refer to a name with the name they are bound to. -/
theorem labelled_move (h : s.Sound good P) (hmove : s.Move P Q)
    (hlabelled : (s.linkage P.staging).Labelled) : (s.linkage Q.staging).Labelled := by
  -- A program that is bound to one more link is looked for among the old ones elsewhere.
  have hbind : ∀ {k q}, (∀ a l c, (s.links P.staging).link a = some l → l.number = k →
      q.steps = [.refer c] → a = .name q.label) → ∀ a l p c,
      (s.links P.staging).link a = some l →
      ((k, q) :: (P.staging.bindings ++ s.bindings)).lookup l.number = some p →
      p.steps = [.refer c] → a = .name p.label := by
    intro k q hq a l p c ha hp hsteps
    rw [Linkage.lookup_cons] at hp
    split at hp
    · rename_i hk
      cases hp
      exact hq a l c ha hk hsteps
    · exact hlabelled a l p c ha hp hsteps
  have hgrow : ∀ {a l'}, (s.linkage P.staging).nextLink = l'.number →
      ((s.linkage P.staging).withLink a l').Labelled := by
    intro a l' hnumber b l p c hb hp hsteps
    rcases Linkage.link_withLink hb with ⟨-, rfl⟩ | ⟨-, hb⟩
    · have hnone := h.numbered.unbound (Nat.le_of_eq hnumber)
      exact absurd (hnone.symm.trans hp) (by simp)
    · exact hlabelled b l p c hb hp hsteps
  cases hmove with
  | grow hmove =>
    cases hmove with
    | name hnew =>
      rw [linkage_withName hnew]
      exact hgrow rfl
    | rule _ hlink hnew =>
      rw [linkage_withTask hnew]
      exact hgrow hlink.symm
  | take _ => exact hlabelled
  | finish _ _ _ hemits =>
    exact hbind fun _ _ c _ _ hsteps => absurd hsteps (steps_ne_refer hemits c)
  | refer _ hl _ => exact hbind fun _ _ _ ha hk _ => h.numbered.injective ha hl hk
  | name _ _ _ _ _ => exact hlabelled
  | bind hmem hp =>
    obtain ⟨_, _, -, -, -, -, ht⟩ := h.named _ hmem
    obtain ⟨_, _, _, _, -, -, -, -, -, hemits⟩ := h.built_of_bound ht hp
    exact hbind fun _ _ c _ _ hsteps => absurd hsteps (steps_ne_refer hemits c)

theorem labelled_moves (hgood : good s) (h : s.Sound good P) (hmoves : s.Moves P Q)
    (hlabelled : (s.linkage P.staging).Labelled) : (s.linkage Q.staging).Labelled := by
  induction hmoves with
  | refl => exact hlabelled
  | tail hmoves hmove ih => exact labelled_move (h.moves hgood hmoves) hmove ih

/-! ## The cache -/

/-- Different entries of a cache have different identities. -/
def DistinctRules (cache : List (SchemaId × Link)) : Prop := cache.Pairwise fun e f => e.1 ≠ f.1

theorem DistinctRules.lookup_of_mem {cache : List (SchemaId × Link)} (h : DistinctRules cache)
    {i : SchemaId} {l : Link} (hmem : (i, l) ∈ cache) : cache.lookup i = some l := by
  induction cache with
  | nil => cases hmem
  | cons e cache ih =>
    obtain ⟨hhead, htail⟩ := List.pairwise_cons.1 h
    rw [Linkage.lookup_cons]
    rcases List.mem_cons.1 hmem with rfl | hmem
    · rw [if_pos rfl]
    · rw [if_neg fun heq => hhead _ hmem heq.symm]
      exact ih htail hmem

/-- No move puts an identity into the cache twice. -/
theorem distinctRules_move (hmove : s.Move P Q)
    (h : DistinctRules (P.staging.cache ++ s.cache)) :
    DistinctRules (Q.staging.cache ++ s.cache) := by
  cases hmove with
  | grow hgrow =>
    cases hgrow with
    | name _ => exact h
    | @rule task htask _ hnew =>
      refine List.pairwise_cons.2 ⟨?_, h⟩
      rintro ⟨i, l⟩ hmem rfl
      have hlookup := DistinctRules.lookup_of_mem h hmem
      obtain ⟨hold, hstaged⟩ := Option.or_eq_none_iff.1 hnew
      rw [List.lookup_append, hold, hstaged] at hlookup
      cases hlookup
  | _ => exact h

theorem distinctRules_moves (hmoves : s.Moves P Q)
    (h : DistinctRules (P.staging.cache ++ s.cache)) :
    DistinctRules (Q.staging.cache ++ s.cache) := by
  induction hmoves with
  | refl => exact h
  | tail _ hmove ih => exact distinctRules_move hmove ih

end Source
end Rulebook
