import Rulebook.Proofs.Compilation.Contained
import Rulebook.Proofs.Evaluation.Relabelling
import Rulebook.Proofs.Interpretation.Identities

/-!
# Contained rules compiled alone and with the rest

Rules that stand by themselves in a larger batch are compiled without the rest of it and
with it.  A name that one of them mentions has a link in both, and so has the identity of a
rule inside them, though under other numbers.  Links of one target are bound to programs
that differ in such links only: both go with the stages of one rule.

The link of a rule is created under the name of the schema that came first, and this may
be one of the rest.  So the links of a rule may have two names, and no more than that.
-/

namespace Rulebook
namespace Source

open Rule

variable {s t : Source} {st st' : Staging} {features : Entries Value} {options : Options}

/-- Links of one target in two compilations: of an identity, or of a name that stands for
the same rule in both. -/
inductive Counterpart (s t : Source) (st st' : Staging) : Link → Link → Prop where
  | name {n : String} {l l' : Link} (hlookup : s.lookup n = t.lookup n)
      (hl : (s.links st).name n = some l) (hl' : (t.links st').name n = some l') :
      Counterpart s t st st' l l'
  | rule {i : SchemaId} {l l' : Link} (hl : (s.links st).rule i = some l)
      (hl' : (t.links st').rule i = some l') : Counterpart s t st st' l l'

/-- The numbers of the programs that one target has in two compilations. -/
inductive Twins (s t : Source) (st st' : Staging) : Nat → Nat → Prop where
  | target {a : Target} {p q : Program} (hp : s.Owns st a p) (hq : t.Owns st' a q) :
      Twins s t st st' p.number q.number

/-! ## Names -/

/-- The links of a rule have one name in two compilations. -/
def SameLabels (s t : Source) (st st' : Staging) : Prop :=
  ∀ i l l', (s.links st).rule i = some l → (t.links st').rule i = some l' → l.name = l'.name

/-- A link has one counterpart, or several of one name. -/
theorem Counterpart.name_eq (hs : s.Complete st) (ht : t.Complete st') {l l' l'' : Link}
    (h : Counterpart s t st st' l l') (k : Counterpart s t st st' l l'') : l'.name = l''.name := by
  cases h with
  | name _ hl hl' =>
    cases k with
    | name _ hm hm' =>
      have hnames := (hs.sound.numbered.named hl).symm.trans (hs.sound.numbered.named hm)
      rw [ht.sound.numbered.named hl', ht.sound.numbered.named hm', hnames]
    | rule hm _ => exact absurd rfl (hs.sound.rule_ne_name hm hl)
  | @rule i _ _ hl hl' =>
    cases k with
    | name _ hm _ => exact absurd rfl (hs.sound.rule_ne_name hl hm)
    | @rule j _ _ hm hm' =>
      have hij : Target.rule i = .rule j := hs.sound.numbered.injective hl hm rfl
      cases hij
      rw [Option.some.inj (hl'.symm.trans hm')]

/-- Links have the name of their counterparts where it is reported, if re-entered rules
succeed or the links of a rule have one name. -/
theorem Counterpart.name_eq_of_reports (hs : s.Complete st) (ht : t.Complete st')
    (hlabels : s.options.breakLoops = true ∨ SameLabels s t st st') {l l' : Link}
    (h : Counterpart s t st st' l l') (hreports : Bindings.Reports (st.bindings ++ s.bindings) l) :
    l.name = l'.name := by
  cases h with
  | name _ hl hl' => rw [hs.sound.numbered.named hl, ht.sound.numbered.named hl']
  | @rule i _ _ hl hl' =>
    rcases hlabels with hbreak | hlabels
    · obtain ⟨p, hp, howned⟩ := hs.exists_owned hl
      obtain ⟨-, _, features, form, options, rfl, hoccurs, -, -, -, hemits⟩ := hs.owns_rule howned
      have hloops := hreports p hp
      rw [hemits.breakLoops, hoccurs.breakLoops_eq, hbreak] at hloops
      cases hloops
    · exact hlabels i _ _ hl hl'

/-! ## Programs -/

/-- Callees for one inner rule are counterparts. -/
theorem Refers.counterparts {v : Value} {c c' : Callee}
    (hlookup : ∀ n, v = .text n → s.lookup n = t.lookup n)
    (h : t.Refers (s.links st) options v c) (h' : t.Refers (t.links st') options v c') :
    Callee.Rel (Counterpart s t st st') c c' := by
  cases h with
  | null =>
    cases h' with
    | null => exact .pass
    | rule hflat _ _ =>
      obtain ⟨_, hnull, -⟩ := hflat.flatten
      cases hnull
  | name hl =>
    cases h' with
    | name hl' => exact .link (.name (hlookup _ rfl) hl hl')
    | rule hflat _ _ =>
      obtain ⟨_, htext, -⟩ := hflat.flatten
      cases htext
  | empty hnil =>
    cases h' with
    | empty _ => exact .pass
    | rule hflat _ _ =>
      obtain ⟨⟨_, heq, hfs⟩, hne⟩ := hflat
      cases heq
      exact absurd (Except.ok.inj (hfs.symm.trans hnil)) hne
  | @rule _ flat form _ hflat hform hl =>
    obtain ⟨⟨fs, rfl, hfs⟩, hne⟩ := id hflat
    cases h' with
    | empty hnil => exact absurd (Except.ok.inj (hfs.symm.trans hnil)) hne
    | rule hflat' hform' hl' =>
      rw [hflat'.unique hflat] at hform'
      rw [hform'.unique hform] at hl'
      exact .link (.rule hl hl')

section

variable (h : Contained s t) (hs : s.Complete st) (ht : t.Complete st')
  (hidentified : t.Identified)
  (hplain : ∀ {features options}, t.Occurs features options → t.PlainEntries features)
include h hs ht hidentified hplain

/-- The programs of an identity differ in counterparts only. -/
theorem Contained.program_rel {i : SchemaId} {p q : Program} (hp : s.Owns st (.rule i) p)
    (hq : t.Owns st' (.rule i) q) :
    Program.Rel (Counterpart s t st st') (Twins s t st st') p q := by
  obtain ⟨-, _, features, form, options, rfl, hoccurs, hform, rfl, -, hemits⟩ := hs.owns_rule hp
  -- The rule that the one was compiled from occurs in the whole batch too.
  have hgathers := h.gathers hoccurs
  have hwhole := h.occurs hoccurs
  have hform' := (h.readAlike.formIs_iff hgathers).1 hform
  have hnames : NamesMatch s t features features :=
    ((h.readAlike.plainEntries_iff hgathers).2 (hplain hwhole)).namesMatch (hplain hwhole)
  obtain ⟨hbreak, r, plan, hread, hplan, hsteps⟩ :=
    hemits.steps_of_sameForm h.digest h.coercions hform hform' hnames rfl
  have howns := hq
  rw [h.digest] at howns
  obtain ⟨hbreak', r', plan', hread', hplan', hsteps'⟩ :=
    ht.steps_rel hidentified hplain hwhole hform' howns
  obtain rfl : r = r' := Option.some.inj (hread.symm.trans hread')
  obtain rfl : plan = plan' := Option.some.inj (hplan.symm.trans hplan')
  refine ⟨.target hp hq, hbreak.trans (hwhole.breakLoops_eq.trans hbreak'.symm), ?_⟩
  have hback : List.Forall₂ (Step.Rel fun c w => t.Refers (s.links st)
      (options.overriddenBy r.overrides) w c ∧ w ∈ r.subRules) p.steps plan :=
    hsteps.flip.imp fun _ _ hst => hst.flip
  refine (Step.Rel.forall₂Comp hback hsteps').imp fun _ _ hst => hst.mono ?_
  rintro c c' ⟨w, ⟨hc, hmem⟩, hc'⟩
  refine hc.counterparts (fun n hn => ?_) hc'.refers
  obtain ⟨fs, hfs, hinside⟩ := hgathers.inside (inside_of_subRule hread hmem)
  rw [hn] at hinside
  exact h.lookup_mentioned (.inner hfs hinside)

/-- A name that stands for the same rule in both is bound to programs that differ in
counterparts only, or to none. -/
theorem Contained.bound_name {n : String} (hlookup : s.lookup n = t.lookup n) {l l' : Link}
    (hl : (s.links st).name n = some l) (hl' : (t.links st').name n = some l') :
    Option.Rel (Program.Rel (Counterpart s t st st') (Twins s t st st')) (s.bound st l)
      (t.bound st' l') := by
  cases hv : s.lookup n with
  | none =>
    rw [hs.absent hv hl, ht.absent (hlookup.symm.trans hv) hl']
    exact .none
  | some v =>
    have hmem := h.mem_of_lookup hv
    have hmem' := h.rules.subset hmem
    by_cases htext : ∃ m, v = .text m
    · obtain ⟨m, rfl⟩ := htext
      obtain ⟨_, u, number, hn, hu, hp⟩ := hs.refer hmem
      obtain ⟨_, u', number', hn', hu', hp'⟩ := ht.refer hmem'
      obtain rfl := Option.some.inj (hn.symm.trans hl)
      obtain rfl := Option.some.inj (hn'.symm.trans hl')
      have hmentioned := h.lookup_mentioned (.named hmem)
      rw [hp, hp']
      refine .some ⟨.target (.name hmem hl hp) (.name hmem' hl' hp'), ?_, ?_⟩
      · exact congrArg Options.breakLoops h.options
      · exact .cons (.refer (.link (.name hmentioned hu hu'))) .nil
    · obtain ⟨flat, form, _, u, p, hflat, hform, hn, hu, hp, hpu⟩ :=
        hs.rule hmem (not_exists.1 htext)
      obtain ⟨flat', form', _, u', p', hflat', hform', hn', hu', hp', hpu'⟩ :=
        ht.rule hmem' (not_exists.1 htext)
      obtain rfl := Option.some.inj (hn.symm.trans hl)
      obtain rfl := Option.some.inj (hn'.symm.trans hl')
      -- The rule has one identity in both.
      have hsame := (h.readAlike.flattens (.named hmem) hflat).unique hflat'
      subst hsame
      have hgathers := h.gathers (.named hmem hflat)
      have hforms := ((h.readAlike.formIs_iff hgathers).1 (formIs_of_form hform)).unique
        (formIs_of_form hform')
      subst hforms
      rw [← h.digest, ← h.options] at hu'
      rw [hp, hp']
      exact .some (h.program_rel hs ht hidentified hplain (.rule hu hpu) (.rule hu' hpu'))

/-- The bindings of both compilations match. -/
theorem Contained.matches :
    Bindings.Matches (Counterpart s t st st') (Twins s t st st') (st.bindings ++ s.bindings)
      (st'.bindings ++ t.bindings) where
  bound hll' := by
    cases hll' with
    | name hlookup hl hl' => exact h.bound_name hs ht hidentified hplain hlookup hl hl'
    | rule hl hl' =>
      obtain ⟨p, hp, howned⟩ := hs.exists_owned hl
      obtain ⟨q, hq, howned'⟩ := ht.exists_owned hl'
      rw [bound] at hp hq
      rw [hp, hq]
      exact .some (h.program_rel hs ht hidentified hplain howned howned')
  injective ha hb := by
    cases ha with
    | target hp hq =>
      cases hb with
      | target hp' hq' => exact (hs.owns_iff hp hp').trans (ht.owns_iff hq hq').symm

end

end Source
end Rulebook
