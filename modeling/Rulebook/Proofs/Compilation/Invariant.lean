import Rulebook.Proofs.Compilation.Linkage
import Rulebook.Proofs.Compilation.Moves

/-!
# What every move preserves

A position is sound if its linkage is, counting the rules that wait, and if what
is staged is new.  Every move keeps a position sound, so that a run does.
-/

namespace Rulebook
namespace Source

/-- The linkage of a compilation that has come to a staging area. -/
def linkage (s : Source) (st : Staging) : Linkage :=
  ⟨s.links st, st.bindings ++ s.bindings, st.nextLink, st.nextProgram⟩

/-- What holds at every position of a run. -/
structure Sound (s : Source) (good : Source → Prop) (P : Position) : Prop where
  numbered : (s.linkage P.staging).Numbered
  compiled : (s.linkage P.staging).Compiled good P.waiting
  waits : ∀ task ∈ P.waiting, s.Waits task
  named : ∀ pair ∈ P.staging.named, ∃ n v,
    s.Stands (s.links P.staging) n v pair
  sorted : Entries.Sorted P.staging.nameLinks
  newNames : ∀ n, (Entries.lookup n P.staging.nameLinks).isSome →
    Entries.lookup n s.nameLinks = none
  newRules : ∀ i, (P.staging.cache.lookup i).isSome → s.cache.lookup i = none

variable {s : Source} {good : Source → Prop} {st st' : Staging}

/-! ## Handing out links -/

theorem linkage_withName {n : String} (hnew : (s.links st).name n = none) :
    s.linkage (st.withName n) = (s.linkage st).withLink (.name n) ⟨st.nextLink, n⟩ := by
  obtain ⟨hold, -⟩ := Option.or_eq_none_iff.1 hnew
  have hlinks : s.links (st.withName n) = (s.links st).insert (.name n) ⟨st.nextLink, n⟩ := by
    simp only [links, Links.insert, Links.mk.injEq, reduceCtorEq, if_false]
    refine ⟨?_, rfl⟩
    funext m
    rw [Staging.withName, Entries.lookup_insert]
    by_cases hm : n = m
    · subst hm
      rw [hold, if_pos rfl, if_pos rfl, Option.none_or]
    · rw [if_neg hm, if_neg fun h => hm (Target.name.inj h)]
  rw [linkage, hlinks]
  rfl

theorem linkage_withTask {task : Task} (hnew : (s.links st).rule task.id = none) :
    s.linkage (st.withTask task) = (s.linkage st).withLink (.rule task.id) task.link := by
  obtain ⟨hold, -⟩ := Option.or_eq_none_iff.1 hnew
  have hlinks : s.links (st.withTask task) =
      (s.links st).insert (.rule task.id) task.link := by
    simp only [links, Links.insert, Links.mk.injEq, reduceCtorEq, if_false]
    refine ⟨rfl, ?_⟩
    funext i
    rw [Staging.withTask, Linkage.lookup_cons]
    by_cases hi : task.id = i
    · subst hi
      rw [hold, if_pos rfl, if_pos rfl, Option.none_or]
    · rw [if_neg (Ne.symm hi), if_neg fun h => hi (Target.rule.inj h)]
  rw [linkage, hlinks]
  rfl

theorem Sound.grow {busy : Option Task} (h : s.Sound good ⟨busy, st⟩) (hgrow : s.Grow st st') :
    s.Sound good ⟨busy, st'⟩ := by
  have hwithin := hgrow.links_within
  have hstands : ∀ pair ∈ st.named, ∃ n v, s.Stands (s.links st') n v pair := by
    intro pair hpair
    obtain ⟨n, v, hstands⟩ := h.named pair hpair
    exact ⟨n, v, hstands.mono hwithin⟩
  cases hgrow with
  | @name n hnew =>
    refine ⟨?_, ?_, h.waits, hstands, Entries.sorted_insert h.sorted _ _, ?_, h.newRules⟩
    · rw [linkage_withName hnew]
      exact h.numbered.withLink rfl fun m hm => Target.name.inj hm
    · rw [linkage_withName hnew]
      exact h.compiled.withName hnew
    · intro m hm
      simp only [Staging.withName, Entries.lookup_insert] at hm
      by_cases hnm : n = m
      · rw [← hnm]
        exact (Option.or_eq_none_iff.1 hnew).1
      · rw [if_neg hnm] at hm
        exact h.newNames m hm
  | @rule task htask hnumber hnew =>
    have hwaiting : (Position.mk busy (st.withTask task)).waiting =
        (Position.mk busy st).waiting ++ [task] := (List.append_assoc _ _ _).symm
    refine ⟨?_, ?_, ?_, hstands, h.sorted, h.newNames, ?_⟩
    · rw [linkage_withTask hnew]
      exact h.numbered.withLink hnumber fun m hm => by cases hm
    · rw [linkage_withTask hnew, hwaiting]
      exact h.compiled.withRule h.numbered hnew hnumber
    · intro t ht
      rw [hwaiting] at ht
      rcases List.mem_append.1 ht with ht | ht
      · exact h.waits t ht
      · rw [List.mem_singleton.1 ht]
        exact htask
    · intro i hi
      simp only [Staging.withTask, Linkage.lookup_cons] at hi
      by_cases hti : i = task.id
      · rw [hti]
        exact (Option.or_eq_none_iff.1 hnew).1
      · rw [if_neg hti] at hi
        exact h.newRules i hi

/-! ## All moves -/

/-- Every move keeps a position sound. -/
theorem Sound.move {P Q : Position} (hgood : good s) (h : s.Sound good P) (hmove : s.Move P Q) :
    s.Sound good Q := by
  cases hmove with
  | grow hgrow => exact h.grow hgrow
  | @take st task rest htodo =>
    have hwaiting : (Position.mk (some task) { st with todo := rest }).waiting =
        (Position.mk none st).waiting := by
      simp only [Position.waiting, htodo]
      rfl
    refine ⟨h.numbered, ?_, ?_, h.named, h.sorted, h.newNames, h.newRules⟩
    · rw [hwaiting]
      exact h.compiled
    · rw [hwaiting]
      exact h.waits
  | @finish st task r p hread hnumber hid hemits =>
    have htask : s.Waits task := h.waits task (List.mem_cons_self ..)
    have hbuilt : Built good (s.links st) task.id p :=
      ⟨s, _, _, _, hgood, htask.occurs, htask.form, htask.id.symm, hid, hemits⟩
    have hlink := (h.compiled.unbound task (List.mem_cons_self ..)).1
    refine ⟨?_, ?_, ?_, h.named, h.sorted, h.newNames, h.newRules⟩
    · exact h.numbered.withProgram (a := .rule task.id) hlink (Or.inl ⟨hnumber, rfl⟩)
    · exact Linkage.Compiled.finish h.compiled h.numbered hbuilt _
    · intro t ht
      exact h.waits t (List.mem_cons_of_mem _ ht)
  | @refer st n m l t hmem hl ht =>
    refine ⟨?_, ?_, h.waits, h.named, h.sorted, h.newNames, h.newRules⟩
    · exact h.numbered.withProgram (a := .name n) hl (Or.inl ⟨rfl, rfl⟩)
    · exact h.compiled.bindName h.numbered hl _ _
  | @name st n v form flat l t hmem hflat hform hl ht =>
    refine ⟨h.numbered, h.compiled, h.waits, ?_, h.sorted, h.newNames, h.newRules⟩
    intro pair hpair
    rcases List.mem_append.1 hpair with hpair | hpair
    · exact h.named pair hpair
    · rw [List.mem_singleton.1 hpair]
      exact ⟨n, v, hmem, hflat, hform, hl, ht⟩
  | @bind st l t p hmem hp =>
    obtain ⟨n, v, hstands⟩ := h.named (l, t) hmem
    obtain ⟨-, -, -, hl, -⟩ := hstands
    refine ⟨?_, ?_, h.waits, h.named, h.sorted, h.newNames, h.newRules⟩
    · exact h.numbered.withProgram (a := .name n) hl
        (Or.inr ⟨⟨_, Linkage.mem_of_lookup hp⟩, rfl⟩)
    · exact h.compiled.bindName h.numbered hl _ _

/-- Every run keeps a position sound. -/
theorem Sound.moves {P Q : Position} (hgood : good s) (h : s.Sound good P)
    (hmoves : s.Moves P Q) : s.Sound good Q := by
  induction hmoves with
  | refl => exact h
  | tail _ hmove ih => exact ih.move hgood hmove

/-! ## The programs of rules -/

variable {P : Position}

/-- Where nothing waits the links of rules are bound to what they were compiled to. -/
theorem Sound.rule_built (h : s.Sound good P) (hnone : P.waiting = []) {i : SchemaId} {l : Link}
    (hl : (s.links P.staging).rule i = some l) :
    ∃ p, s.bound P.staging l = some p ∧ Built good (s.links P.staging) i p := by
  rcases h.compiled.built hl with hbuilt | ⟨task, htask, -⟩
  · exact hbuilt
  · rw [hnone] at htask
    cases htask

/-- What the link of a rule is bound to was compiled from a rule of its identity. -/
theorem Sound.built_of_bound (h : s.Sound good P) {i : SchemaId} {l : Link}
    (hl : (s.links P.staging).rule i = some l) {p : Program}
    (hp : s.bound P.staging l = some p) : Built good (s.links P.staging) i p := by
  rcases h.compiled.built hl with ⟨p', hp', hbuilt⟩ | ⟨task, htask, rfl⟩
  · have heq : some p' = some p := hp'.symm.trans hp
    rw [← Option.some.inj heq]
    exact hbuilt
  · obtain ⟨hlink, hnone⟩ := h.compiled.unbound task htask
    have heq : some task.link = some l := hlink.symm.trans hl
    rw [Option.some.inj heq] at hnone
    have hclash : none = some p := hnone.symm.trans hp
    cases hclash

end Source
end Rulebook
