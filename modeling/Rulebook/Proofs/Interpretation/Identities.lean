import Rulebook.Proofs.Compilation.Called
import Rulebook.Proofs.Interpretation.Refinement

/-!
# Which identities are compiled

Two complete compilations of one batch may hand out links in different orders and share
programs differently.  But the programs of one identity go with the stages of the same rule
in both, so that they call the same identities.  What is needed in the one is therefore
known to the other.
-/

namespace Rulebook
namespace Source

variable {s : Source} {st st' : Staging} {options : Options}

theorem Unfolds.unique {v : Value} {flat flat' : Entries Value} (h : s.Unfolds v flat)
    (h' : s.Unfolds v flat') : flat = flat' := by
  obtain ⟨⟨fs, rfl, hflat⟩, -⟩ := h
  obtain ⟨⟨fs', heq, hflat'⟩, -⟩ := h'
  cases heq
  exact Except.ok.inj (hflat.symm.trans hflat')

/-- What refers to an inner rule that is written in place is the link of its identity. -/
theorem Refers.exists_rule {T : Links} {v : Value} {c : Callee} (h : s.Refers T options v c)
    {flat : Entries Value} {form : Value} (hflat : s.Unfolds v flat) (hform : s.FormIs flat form) :
    ∃ l, T.rule (SchemaId.of s.digest form options) = some l := by
  have hrule := hflat
  obtain ⟨⟨fs, rfl, hfs⟩, hne⟩ := hrule
  cases h with
  | empty hnil => exact absurd (Except.ok.inj (hfs.symm.trans hnil)) hne
  | rule hflat' hform' hl =>
    rw [hflat'.unique hflat] at hform'
    rw [hform'.unique hform] at hl
    exact ⟨_, hl⟩

/-- The link of an identity refers to an inner rule of that identity. -/
theorem Sound.unfolds_of_refers {good : Source → Prop} (h : s.Sound good ⟨none, st⟩)
    {i : SchemaId} {l : Link} (hl : (s.links st).rule i = some l) {v : Value}
    (hv : s.Refers (s.links st) options v (.link l)) :
    ∃ flat form, s.Unfolds v flat ∧ s.FormIs flat form ∧ SchemaId.of s.digest form options = i := by
  cases hv with
  | name hname => exact absurd rfl (h.rule_ne_name hl hname)
  | @rule _ flat form _ hflat hform hrule =>
    have hab : Target.rule (SchemaId.of s.digest form options) = .rule i :=
      h.numbered.injective hrule hl rfl
    exact ⟨flat, form, hflat, hform, Target.rule.inj hab⟩

/-- What is needed in one complete compilation of a batch has a link in every other. -/
theorem Complete.rule_of_needed (h : s.Complete st) (h' : s.Complete st')
    (hidentified : s.Identified)
    (hplain : ∀ {features options}, s.Occurs features options → s.PlainEntries features)
    {i : SchemaId} (hi : (s.linkage st).Needed s.Heads i) :
    ∃ l, (s.links st').rule i = some l := by
  induction hi with
  | root hhead =>
    obtain ⟨n, v, flat, form, hmem, hflat, hform, rfl⟩ := hhead
    obtain ⟨form', l, t, p, hform', -, ht, -⟩ := h'.rule_of_flattens hmem hflat
    rw [(formIs_of_form hform').unique hform] at ht
    exact ⟨t, ht⟩
  | @called i j t l p _ ht hp hl hj ih =>
    obtain ⟨t', ht'⟩ := ih
    have howns : s.Owns st (.rule i) p := .rule ht hp
    obtain ⟨q, -, howns'⟩ := h'.exists_owned ht'
    -- Both programs go with the stages of the rule that the first one was built from.
    obtain ⟨-, _, features, form, options, rfl, hoccurs, hform, rfl, -⟩ := h.owns_rule howns
    obtain ⟨-, r, plan, hread, hplan, hsteps⟩ :=
      h.steps_rel hidentified hplain hoccurs hform howns
    obtain ⟨-, r', plan', hread', hplan', hsteps'⟩ :=
      h'.steps_rel hidentified hplain hoccurs hform howns'
    obtain rfl : r = r' := Option.some.inj (hread.symm.trans hread')
    obtain rfl : plan = plan' := Option.some.inj (hplan.symm.trans hplan')
    obtain ⟨step, hstep, hcallee⟩ := hl
    obtain ⟨stage, hstage, hrel⟩ := exists_of_forall₂ hsteps hstep
    obtain ⟨v, hv, hcalls⟩ := exists_of_forall₂ hrel.callees hcallee
    obtain ⟨step', -, hrel'⟩ := exists_of_forall₂ hsteps'.flip hstage
    obtain ⟨c, -, hcalls'⟩ := exists_of_forall₂ hrel'.callees.flip hv
    obtain ⟨flat, form', hflat, hform', rfl⟩ := h.sound.unfolds_of_refers hj hcalls.refers
    exact hcalls'.refers.exists_rule hflat hform'

end Source
end Rulebook
