import Rulebook.Proofs.Compilation.Origin
import Rulebook.Proofs.Compilation.SameForm
import Rulebook.Proofs.Interpretation.Basic

/-!
# Compiled rules do what the interpreted ones do

A batch that is compiled from nothing is followed through its links and
interpreted as it is written, side by side.  A link goes with a subject: that of
a name with the name, that of a rule with each rule of its identity.  A frame
goes with a visit if the program that runs in it belongs to what is visited.

A program may have been compiled from another rule of the same identity.  Its
steps still correspond to the stages of the rule at hand, callee by callee, since
rules of one form differ in inner rules of one form only.
-/

namespace Rulebook
namespace Source

open Run

variable {s : Source} {st : Staging}

/-- What the compilation of a batch leaves behind if it starts from nothing. -/
structure Complete (s : Source) (st : Staging) : Prop where
  sound : s.Sound (fun t => s = t) ⟨none, st⟩
  done : st.todo = []
  refer : ∀ {n m}, (n, .text m) ∈ s.batch → ∃ l t number, (s.links st).name n = some l ∧
    (s.links st).name m = some t ∧ s.bound st l = some (s.aliasProgram n m number t)
  rule : ∀ {n v}, (n, v) ∈ s.batch → (∀ m, v ≠ .text m) → ∃ flat form l t p,
    s.Flattens n v flat ∧ s.form flat n = .ok form ∧ (s.links st).name n = some l ∧
    (s.links st).rule (SchemaId.of s.digest form s.options) = some t ∧
    s.bound st l = some p ∧ s.bound st t = some p
  absent : ∀ {n l}, s.lookup n = none → (s.links st).name n = some l → s.bound st l = none
  sorted : Entries.Sorted s.batch
  fresh : s.registered = []

/-- A compilation without anything registered before is complete. -/
theorem compileBatch_complete {start : Staging} (hsound : s.Sound (fun t => s = t) ⟨none, start⟩)
    (hready : s.Ready start) (hfresh : start.bindings = [])
    (hcompile : s.compileBatch.Yields start () st) (hbatch : Entries.Sorted s.batch)
    (hregistered : s.registered = []) (hbindings : s.bindings = []) : s.Complete st := by
  obtain ⟨hsound', hnames, hdone⟩ := compileBatch_sound rfl hsound hready hfresh hcompile
  refine {
    sound := hsound', done := hdone, sorted := hbatch, fresh := hregistered
    refer := fun hmem => compileBatch_refer rfl hsound hready hfresh hcompile hbatch hmem
    rule := fun hmem hv => compileBatch_rule rfl hsound hready hfresh hcompile hbatch hmem hv
    absent := ?_ }
  intro n l hlookup hl
  by_contra hbound
  obtain ⟨p, hp⟩ := Option.ne_none_iff_exists'.1 hbound
  rw [bound, hbindings, List.append_nil] at hp
  obtain ⟨v, hv⟩ := (hnames _ _ (Linkage.mem_of_lookup hp) n l hl rfl).exists_mem
  rw [lookup, (Entries.lookup_eq_some_iff hbatch).2 hv] at hlookup
  cases hlookup

theorem Complete.exists_link (h : s.Complete st) {n : String} {v : Value}
    (hmem : (n, v) ∈ s.batch) : ∃ l, (s.links st).name n = some l := by
  by_cases htext : ∃ m, v = .text m
  · obtain ⟨m, rfl⟩ := htext
    obtain ⟨l, _, _, hl, -⟩ := h.refer hmem
    exact ⟨l, hl⟩
  · obtain ⟨_, _, l, _, _, -, -, hl, -⟩ := h.rule hmem (not_exists.1 htext)
    exact ⟨l, hl⟩

/-- A rule of the batch that is no name has a form and is bound by its identity. -/
theorem Complete.rule_of_flattens (h : s.Complete st) {n : String} {v : Value}
    {flat : Entries Value} (hmem : (n, v) ∈ s.batch) (hflat : s.Flattens n v flat) :
    ∃ form l t p, s.form flat n = .ok form ∧ (s.links st).name n = some l ∧
      (s.links st).rule (SchemaId.of s.digest form s.options) = some t ∧
      s.bound st l = some p ∧ s.bound st t = some p := by
  have htext : ∀ m, v ≠ .text m := by
    rintro m rfl
    cases hflat
  obtain ⟨flat', form, l, t, p, hflat', hbound⟩ := h.rule hmem htext
  rw [hflat'.unique hflat] at hbound
  exact ⟨form, l, t, p, hbound⟩

/-- Rules of the batch that have one identity have one form, and agree in the
options that take part in it. -/
def Identified (s : Source) : Prop :=
  ∀ ⦃features options form features' options' form'⦄, s.Occurs features options →
    s.FormIs features form → s.Occurs features' options' → s.FormIs features' form' →
    SchemaId.of s.digest form options = SchemaId.of s.digest form' options' →
    form = form' ∧ SchemaId.policy options = SchemaId.policy options'

/-- Rules under the same options are identified if the identities of their forms differ. -/
theorem identified_of_forms {options : Options} {forms : List Value}
    (hforms : ∀ {features options' form}, s.Occurs features options' → s.FormIs features form →
      options' = options ∧ form ∈ forms)
    (hdistinct : ∀ f ∈ forms, ∀ g ∈ forms,
      SchemaId.of s.digest f options = SchemaId.of s.digest g options → f = g) :
    s.Identified := by
  intro features options₁ form features' options₂ form' h hform h' hform' hid
  obtain ⟨rfl, hmem⟩ := hforms h hform
  obtain ⟨rfl, hmem'⟩ := hforms h' hform'
  exact ⟨hdistinct _ hmem _ hmem' hid, rfl⟩

theorem Occurs.breakLoops_eq {features : Entries Value} {options : Options}
    (h : s.Occurs features options) : options.breakLoops = s.options.breakLoops := by
  induction h with
  | named _ _ => rfl
  | inner _ _ _ _ ih => exact ih

/-! ## Forms that exist -/

/-- Every rule of the batch has a form within the limit. -/
theorem Complete.formOf_eq_ok (h : s.Complete st) {features : Entries Value} {options : Options}
    (hoccurs : s.Occurs features options) :
    ∃ form, s.formOf s.flattenInline "" s.unfoldLimit features = .ok form := by
  have hagree {k m : Nat} (hkm : k ≤ m) :
      Agrees (s.formOf s.flattenInline "" k) (s.formOf s.flattenInline "" m) :=
    formOf_agrees (fun _ _ h => h) "" "" hkm
  induction hoccurs with
  | @named n v flat hmem hflat =>
    obtain ⟨form, -, -, -, hform, -⟩ := h.rule_of_flattens hmem hflat
    refine ⟨form, hagree (le_unfoldLimit hmem hflat) _ _ ?_⟩
    exact formOf_agrees (fun _ _ => flattenInline_of_flatten) n "" (Nat.le_refl _) _ _ hform
  | inner _ hread hmem hunfolds ih =>
    obtain ⟨form, hform⟩ := ih
    cases hlimit : s.unfoldLimit with
    | zero =>
      rw [hlimit] at hform
      cases hform
    | succ depth =>
      rw [hlimit, formOf_succ_eq_ok_iff] at hform
      obtain ⟨fs, hfs, -⟩ := hform
      obtain ⟨gs, rfl, hgs⟩ := hunfolds.flatten
      obtain ⟨b, hb⟩ := (formOf_of_formWith hfs).exists_of_inside
        (Rule.inside_of_subRule hread hmem) (by simp)
      simp only [subForm, Except.bind_eq_ok_iff] at hb
      obtain ⟨flat, hflat, hb⟩ := hb
      rw [hgs] at hflat
      rw [← Except.ok.inj hflat] at hb
      exact ⟨b, hagree (Nat.le_succ depth) _ _ hb⟩

theorem Complete.identity?_eq (h : s.Complete st) {features : Entries Value}
    {options : Options} (hoccurs : s.Occurs features options) {form : Value}
    (hform : s.FormIs features form) :
    s.identity? features options = some (SchemaId.of s.digest form options) := by
  obtain ⟨form', hform'⟩ := h.formOf_eq_ok hoccurs
  have hsame := hform.unique ⟨_, hform'⟩
  rw [identity?, hform', hsame]
  rfl

/-! ## Programs and what they belong to -/

/-- Entering the program is a visit to the target. -/
inductive Owns (s : Source) (st : Staging) : Target → Program → Prop where
  | name {n m : String} {l : Link} {p : Program} (hmem : (n, .text m) ∈ s.batch)
      (hl : (s.links st).name n = some l) (hp : s.bound st l = some p) : Owns s st (.name n) p
  | rule {i : SchemaId} {t : Link} {p : Program} (ht : (s.links st).rule i = some t)
      (hp : s.bound st t = some p) : Owns s st (.rule i) p

/-- A target owns one program. -/
theorem Owns.unique {a : Target} {p q : Program} (h : s.Owns st a p) (k : s.Owns st a q) :
    p = q := by
  cases h with
  | name _ hl hp =>
    cases k with
    | name _ hl' hq =>
      rw [hl] at hl'
      rw [← Option.some.inj hl', hp] at hq
      exact Option.some.inj hq
  | rule ht hp =>
    cases k with
    | rule ht' hq =>
      rw [ht] at ht'
      rw [← Option.some.inj ht', hp] at hq
      exact Option.some.inj hq

theorem Owns.bound_mem {a : Target} {p : Program} (h : s.Owns st a p) :
    ∃ k, (k, p) ∈ st.bindings ++ s.bindings := by
  cases h with
  | name _ _ hp => exact ⟨_, Linkage.mem_of_lookup hp⟩
  | rule _ hp => exact ⟨_, Linkage.mem_of_lookup hp⟩

/-- The link of an identity is bound to the program that the identity owns. -/
theorem Complete.exists_owned (h : s.Complete st) {i : SchemaId} {l : Link}
    (hl : (s.links st).rule i = some l) : ∃ p, s.bound st l = some p ∧ s.Owns st (.rule i) p := by
  have hnone : (Position.mk none st).waiting = [] := by
    rw [Position.waiting, h.done]
    rfl
  obtain ⟨p, hp, -⟩ := h.sound.rule_built hnone hl
  exact ⟨p, hp, .rule hl hp⟩

/-- The program of a rule is known by its identity. -/
theorem Complete.owns_rule (h : s.Complete st) {i : SchemaId} {p : Program}
    (hp : s.Owns st (.rule i) p) : p.id = i ∧ Built (fun t => s = t) (s.links st) i p := by
  have hnone : (Position.mk none st).waiting = [] := by
    rw [Position.waiting, h.done]
    rfl
  cases hp with
  | rule ht hp =>
    obtain ⟨q, hq, hbuilt⟩ := h.sound.rule_built hnone ht
    rw [hp] at hq
    rw [Option.some.inj hq]
    obtain ⟨-, -, -, -, -, -, -, -, hid, -⟩ := id hbuilt
    exact ⟨hid, hbuilt⟩

/-- The program of a name refers to the name it stands for. -/
theorem Complete.owns_name (h : s.Complete st) {n : String} {p : Program}
    (hp : s.Owns st (.name n) p) : ∃ m t number, (n, .text m) ∈ s.batch ∧
      (s.links st).name m = some t ∧ p = s.aliasProgram n m number t := by
  cases hp with
  | @name _ m _ _ hmem hl hp =>
    obtain ⟨l', t, number, hl', ht, hbound⟩ := h.refer hmem
    rw [hl] at hl'
    rw [← Option.some.inj hl', hp] at hbound
    exact ⟨m, t, number, hmem, ht, Option.some.inj hbound⟩

/-- Programs with one number belong to one target. -/
theorem Complete.owns_iff (h : s.Complete st) {a b : Target} {p q : Program}
    (hp : s.Owns st a p) (hq : s.Owns st b q) : p.number = q.number ↔ a = b := by
  constructor
  · intro hnumber
    obtain ⟨k, hk⟩ := hp.bound_mem
    obtain ⟨k', hk'⟩ := hq.bound_mem
    have hpq : p = q := h.sound.numbered.numbered hk hk' hnumber
    subst hpq
    have hclash : ∀ {n i}, s.Owns st (.name n) p → s.Owns st (.rule i) p → False := by
      intro n i hn hi
      obtain ⟨m, t, number, -, -, heq⟩ := h.owns_name hn
      obtain ⟨-, _, _, _, _, rfl, -, -, -, -, hemits⟩ := h.owns_rule hi
      exact steps_ne_refer hemits (.link t) (by rw [heq]; rfl)
    cases a with
    | name n =>
      cases b with
      | name m =>
        obtain ⟨_, _, _, -, -, heq⟩ := h.owns_name hp
        obtain ⟨_, _, _, -, -, heq'⟩ := h.owns_name hq
        have hlabel : n = m := by
          rw [heq] at heq'
          exact congrArg Program.label heq'
        rw [hlabel]
      | rule i => exact (hclash hp hq).elim
    | rule i =>
      cases b with
      | name m => exact (hclash hq hp).elim
      | rule j => rw [← (h.owns_rule hp).1, ← (h.owns_rule hq).1]
  · rintro rfl
    rw [hp.unique hq]

/-! ## Programs and the stages of a rule -/

/-- A callee goes with an inner rule if it refers to it, and the rule occurs. -/
structure Calls (s : Source) (st : Staging) (options : Options) (w : Value) (c : Callee) :
    Prop where
  refers : s.Refers (s.links st) options w c
  occurs : ∀ {flat}, s.Unfolds w flat → s.Occurs flat options

/-- The steps of the program of an identity go with the stages of each rule of that
identity. -/
theorem Complete.steps_rel (h : s.Complete st) (hidentified : s.Identified)
    (hplain : ∀ {features options}, s.Occurs features options → s.PlainEntries features)
    {features : Entries Value} {options : Options} (hoccurs : s.Occurs features options)
    {form : Value} (hform : s.FormIs features form) {p : Program}
    (hp : s.Owns st (.rule (SchemaId.of s.digest form options)) p) :
    p.breakLoops = s.options.breakLoops ∧ ∃ r plan, Rule.read? features = some r ∧
      r.stages s.coercions s.outlook (options.overriddenBy r.overrides) = some plan ∧
      List.Forall₂ (Step.Rel (s.Calls st (options.overriddenBy r.overrides))) plan p.steps := by
  obtain ⟨-, _, features', form', options', rfl, hoccurs', hform', hid, -, hemits⟩ :=
    h.owns_rule hp
  obtain ⟨rfl, hpolicy⟩ := hidentified hoccurs' hform' hoccurs hform hid
  obtain ⟨hbreak, r, plan, hread, hplan, hsteps⟩ := hemits.steps_of_sameForm rfl rfl hform' hform
    ((hplain hoccurs').namesMatch (hplain hoccurs)) hpolicy
  refine ⟨hbreak.trans hoccurs.breakLoops_eq, r, plan, hread, hplan, ?_⟩
  refine hsteps.imp fun _ _ hst => hst.mono fun w c hwc => ⟨hwc.1, fun hflat => ?_⟩
  exact .inner hoccurs hread hwc.2 hflat

/-! ## Frames and visits -/

/-- A frame goes with a visit. -/
structure Accords (s : Source) (st : Staging) (f : Frame) (u : Visit) : Prop where
  owns : ∃ p, s.Owns st u.target p ∧ p.number = f.number
  value : f.value = u.value

/-- A program is running where what it belongs to is being interpreted. -/
theorem Complete.inFlight_eq (h : s.Complete st) {frames : List Frame} {visits : List Visit}
    (hvisits : List.Forall₂ (s.Accords st) frames visits) {a : Target} {p : Program}
    (hp : s.Owns st a p) (v : Value) :
    inFlight frames (Frame.enter p.number v) = underway visits a v := by
  induction hvisits with
  | nil => rfl
  | @cons f u _ _ hfu _ ih =>
    obtain ⟨⟨q, hq, hnumber⟩, hvalue⟩ := hfu
    have hsame : f.same (Frame.enter p.number v) =
        (decide (u.target = a) && u.value.same v) := by
      rw [Bool.eq_iff_iff, Frame.same_iff, Bool.and_eq_true, decide_eq_true_iff, hvalue,
        ← hnumber, ← h.owns_iff hq hp]
      rfl
    rw [inFlight, underway] at ih ⊢
    rw [List.any_cons, List.any_cons, hsame, ih]

/-! ## Links and subjects -/

/-- A link goes with a subject. -/
inductive Leads (s : Source) (st : Staging) : Link → Subject → Prop where
  | name {n : String} {l : Link} (hl : (s.links st).name n = some l) : Leads s st l (.name n)
  | rule {features : Entries Value} {options : Options} {form : Value} {l : Link}
      (hoccurs : s.Occurs features options) (hform : s.FormIs features form)
      (hl : (s.links st).rule (SchemaId.of s.digest form options) = some l) :
      Leads s st l (.rule features options)

/-- A callee does what its inner rule does if links do what their subjects do. -/
theorem Calls.call_eq {options : Options} {w : Value} {c : Callee} (h : s.Calls st options w c)
    {follow : Link → Value → Run Value} {check : Subject → Value → Run Value}
    (heq : ∀ l a, s.Leads st l a → ∀ v, follow l v = check a v) (v : Value) :
    s.callInner check options w v = c.call follow v := by
  obtain ⟨hrefers, hoccurs⟩ := h
  cases hrefers with
  | null => rfl
  | name hl => exact (heq _ _ (.name hl) v).symm
  | empty hflat =>
    rw [callInner, hflat]
    rfl
  | @rule _ flat form l hflat hform hl =>
    have hlead := heq _ _ (.rule (hoccurs hflat) hform hl) v
    obtain ⟨⟨fs, rfl, hfs⟩, hne⟩ := hflat
    rw [callInner, hfs, Callee.call, hlead]
    cases flat with
    | nil => exact absurd rfl hne
    | cons e es => rfl

section

variable (h : s.Complete st) (hidentified : s.Identified)
  (hplain : ∀ {features options}, s.Occurs features options → s.PlainEntries features)
  (hbreak : s.options.breakLoops = true) (context : Option Context)
include h hidentified hplain hbreak

/-- Running the program of an identity is checking against a rule of it, if this is
so for all that they call. -/
theorem Complete.run_eq {follow : List Frame → Link → Value → Run Value}
    {check : List Visit → Subject → Value → Run Value}
    (heq : ∀ frames visits, List.Forall₂ (s.Accords st) frames visits →
      ∀ l a, s.Leads st l a → ∀ v, follow frames l v = check visits a v)
    {frames : List Frame} {visits : List Visit}
    (hvisits : List.Forall₂ (s.Accords st) frames visits) {features : Entries Value}
    {options : Options} (hoccurs : s.Occurs features options) {form : Value}
    (hform : s.FormIs features form) {p : Program}
    (hp : s.Owns st (.rule (SchemaId.of s.digest form options)) p) (name : String) (v : Value) :
    p.run follow context frames name v =
      s.checkRule context check visits features options v := by
  obtain ⟨hloops, r, plan, hread, hplan, hsteps⟩ :=
    h.steps_rel hidentified hplain hoccurs hform hp
  rw [Program.run, checkRule, h.identity?_eq hoccurs hform, hread]
  dsimp only
  rw [h.inFlight_eq hvisits hp, hloops, hbreak, hplan]
  split
  · rfl
  · refine (runSteps_eq ?_ hsteps context v).symm
    intro w c hwc v'
    refine hwc.call_eq (heq _ _ (.cons ⟨⟨p, hp, rfl⟩, rfl⟩ hvisits)) v'

omit h hidentified hplain hbreak in
/-- A program that refers to another rule does what that rule does. -/
theorem runSteps_refer (call : Call Callee) (t : Callee) (v : Value) :
    runSteps call context [.refer t] v = call t v := by
  simp only [runSteps, Step.apply, bind_assoc, pure_bind, bind_pure]

omit hidentified hplain in
/-- Running the program of a name that stands for another name is checking against the
other name, if this is so for all links. -/
theorem Complete.run_alias_eq {follow : List Frame → Link → Value → Run Value}
    {check : List Visit → Subject → Value → Run Value}
    (heq : ∀ frames visits, List.Forall₂ (s.Accords st) frames visits →
      ∀ l a, s.Leads st l a → ∀ v, follow frames l v = check visits a v)
    {frames : List Frame} {visits : List Visit}
    (hvisits : List.Forall₂ (s.Accords st) frames visits) {n m : String} {number : Nat}
    {t : Link} (hp : s.Owns st (.name n) (s.aliasProgram n m number t))
    (ht : (s.links st).name m = some t) (name : String) (v : Value) :
    (s.aliasProgram n m number t).run follow context frames name v =
      if underway visits (.name n) v then pure v
      else check (⟨.name n, v⟩ :: visits) (.name m) v := by
  have hloops : (s.aliasProgram n m number t).breakLoops = true := hbreak
  rw [Program.run, h.inFlight_eq hvisits hp, hloops]
  split
  · rfl
  · rw [aliasProgram, runSteps_refer]
    exact heq _ _ (.cons ⟨⟨_, hp, rfl⟩, rfl⟩ hvisits) _ _ (.name ht) v

omit hidentified hplain hbreak in
/-- What a name stands for is a rule of the batch. -/
theorem Complete.mem_of_lookup {n : String} {rule : Value} (hlookup : s.lookup n = some rule) :
    (n, rule) ∈ s.batch := by
  rw [lookup, h.fresh] at hlookup
  refine (Entries.lookup_eq_some_iff h.sorted).1 ?_
  rw [← hlookup]
  exact Option.or_none.symm

/-- A link is followed as its subject is interpreted, to every depth. -/
theorem Complete.follow_eq_interpret (depth : Nat) {frames : List Frame} {visits : List Visit}
    (hvisits : List.Forall₂ (s.Accords st) frames visits) {l : Link} {a : Subject}
    (hlead : s.Leads st l a) (v : Value) :
    follow (st.bindings ++ s.bindings) context depth frames l v =
      s.interpret context depth visits a v := by
  induction depth generalizing frames visits l a v with
  | zero => cases a <;> rfl
  | succ depth ih =>
    have heq : ∀ frames visits, List.Forall₂ (s.Accords st) frames visits →
        ∀ l a, s.Leads st l a → ∀ v,
          follow (st.bindings ++ s.bindings) context depth frames l v =
            s.interpret context depth visits a v :=
      fun frames visits hvisits l a hlead v => ih hvisits hlead v
    cases hlead with
    | @rule features options form _ hoccurs hform hl =>
      obtain ⟨q, hq, howns⟩ := h.exists_owned hl
      have hlookup : (st.bindings ++ s.bindings).lookup l.number = some q := hq
      rw [follow, hlookup, interpret]
      exact h.run_eq hidentified hplain hbreak context heq hvisits hoccurs hform howns _ v
    | @name n _ hl =>
      rw [follow, interpret]
      cases hlookup : s.lookup n with
      | none =>
        have hbound : (st.bindings ++ s.bindings).lookup l.number = none := h.absent hlookup hl
        have hname : l.name = n := h.sound.numbered.named hl
        rw [hbound, hname]
      | some rule =>
        have hmem := h.mem_of_lookup hlookup
        by_cases htext : ∃ m, rule = .text m
        · obtain ⟨m, rfl⟩ := htext
          obtain ⟨l', t, number, hl', ht, hp⟩ := h.refer hmem
          rw [hl] at hl'
          rw [← Option.some.inj hl'] at hp
          have hbound : (st.bindings ++ s.bindings).lookup l.number =
              some (s.aliasProgram n m number t) := hp
          rw [hbound]
          exact h.run_alias_eq hbreak context heq hvisits (.name hmem hl hp) ht l.name v
        · have hnot : ∀ m, rule ≠ .text m := not_exists.1 htext
          obtain ⟨flat, form, l', t, p, hflat, hform, hl', ht, hp, hp'⟩ := h.rule hmem hnot
          rw [hl] at hl'
          rw [← Option.some.inj hl'] at hp
          have hbound : (st.bindings ++ s.bindings).lookup l.number = some p := hp
          have hrun := h.run_eq hidentified hplain hbreak context heq hvisits (.named hmem hflat)
            (formIs_of_form hform) (.rule ht hp') l.name v
          rw [hbound]
          dsimp only
          rw [hrun]
          cases hflat with
          | null => rfl
          | mapping hflat =>
            simp only [flattened?, hflat]
            rfl

end

end Source
end Rulebook
