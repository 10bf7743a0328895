import Rulebook.Proofs.Registry.Handles
import Rulebook.Proofs.Registry.Repetition

/-!
# Programs and identities

A schema whose rule is not a name is bound to the one program that the cache holds for the
identity of its rule, whatever batch it came with; so two such schemas of one identity run
one program.  A schema whose rule is a name has a program to itself, which refers to that
name.  Two names for one schema therefore run different programs, although these have the
same identity.
-/

namespace Rulebook
namespace Registry

open Source

variable {r r' : Registry} {depth : Nat} {submitted batch : Entries Value}
  {options : Options} {st : Staging}

/-- Registries that have come about by accepted batches whose schemas were in order. -/
abbrev ReachableInOrder : Registry → Prop :=
  ReachableBy fun _ submitted _ => Entries.Sorted submitted

theorem ReachableBy.reachable {meets : Registry → Entries Value → Options → Prop}
    (hr : ReachableBy meets r) : r.Reachable := by
  induction hr with
  | empty options coercions digest => exact .empty options coercions digest
  | batch _ _ hregister ih => exact .batch ih trivial hregister

/-! ## What registered names are bound to -/

/-- A registered name is bound to a program that refers to the name which is its rule, or
to the program of a cached identity. -/
inductive Holds (r : Registry) (n : String) : Prop where
  | refer {m : String} {l : Link} {p : Program} {c : Callee}
      (hrule : r.rule? n = some (.text m)) (hl : Entries.lookup n r.nameLinks = some l)
      (hp : r.bindings.lookup l.number = some p) (hsteps : p.steps = [.refer c])
  | shared {v : Value} {l t : Link} {p : Program} (hrule : r.rule? n = some v)
      (hv : ∀ m, v ≠ .text m) (hl : Entries.lookup n r.nameLinks = some l)
      (hp : r.bindings.lookup l.number = some p) (ht : r.cache.lookup p.id = some t)
      (hpt : r.bindings.lookup t.number = some p)

theorem rule?_publish_of_mem (hbatch : Entries.Sorted batch) {n : String} {v : Value}
    (hmem : (n, v) ∈ batch) : (r.publish batch options st).rule? n = some v := by
  rw [rule?, publish]
  dsimp only
  rw [Entries.lookup_overlay (Entries.sorted_mapValues hbatch _), Entries.lookup_mapValues,
    (Entries.lookup_eq_some_iff hbatch).2 hmem]
  rfl

theorem rule?_publish_of_outside {n : String} (hn : n ∉ Entries.keys batch) :
    (r.publish batch options st).rule? n = r.rule? n := by
  rw [rule?, rule?, publish]
  dsimp only
  rw [Entries.lookup_overlay_of_not_mem]
  rw [Entries.keys_mapValues]
  exact hn

/-- The names of an accepted batch are bound in one of the two ways. -/
theorem Reachable.holds_of_mem (hr : r.Reachable) (hr' : (r.publish batch options st).Reachable)
    (hbatch : Entries.Sorted batch) (haccepts : r.Accepts depth batch options st) {n : String}
    {v : Value} (hmem : (n, v) ∈ batch) : (r.publish batch options st).Holds n := by
  have hrule : (r.publish batch options st).rule? n = some v := rule?_publish_of_mem hbatch hmem
  by_cases hv : ∃ m, v = .text m
  · obtain ⟨m, rfl⟩ := hv
    obtain ⟨l, t, number, hl, -, hp⟩ := published_refer hr.sound hbatch haccepts hmem
    exact .refer hrule hl hp rfl
  · have hv' : ∀ m, v ≠ .text m := fun m hm => hv ⟨m, hm⟩
    obtain ⟨flat, form, l, t, p, -, -, hl, ht, hp, hpt⟩ :=
      published_rule hr.sound hbatch haccepts hmem hv'
    obtain ⟨q, hq, hid⟩ := hr'.cached (Linkage.mem_of_lookup ht)
    obtain rfl : q = p := Option.some.inj (hq.symm.trans hpt)
    rw [← hid] at ht
    exact .shared hrule hv' hl hp ht hpt

/-- Names outside an accepted batch stay bound as they are. -/
theorem Reachable.holds_of_outside (hr : r.Reachable) (haccepts : r.Accepts depth batch options st)
    {n : String} (hn : n ∉ Entries.keys batch) (hold : r.Holds n) :
    (r.publish batch options st).Holds n := by
  have hwithin := within_publish hr.sound haccepts
  have hrule : (r.publish batch options st).rule? n = r.rule? n := rule?_publish_of_outside hn
  have hbound : ∀ {l p}, Entries.lookup n r.nameLinks = some l →
      r.bindings.lookup l.number = some p →
      (r.publish batch options st).bindings.lookup l.number = some p := fun hl hp =>
    (lookup_published_name hr.sound haccepts hl hn).trans hp
  cases hold with
  | refer hold hl hp hsteps =>
    exact .refer (hrule.trans hold) (hwithin.name hl) (hbound hl hp) hsteps
  | shared hold hv hl hp ht hpt =>
    exact .shared (hrule.trans hold) hv (hwithin.name hl) (hbound hl hp) (hwithin.rule ht)
      ((lookup_published_rule hr.sound haccepts ht).trans hpt)

/-- Every registered name is bound in one of the two ways. -/
theorem ReachableInOrder.holds (hr : r.ReachableInOrder) {n : String}
    (hn : r.contains n = true) : r.Holds n := by
  induction hr with
  | empty options coercions digest => cases hn
  | @batch r r' _ submitted options hr hsubmitted hregister ih =>
    have hr' := (ReachableBy.batch hr hsubmitted hregister).reachable
    obtain ⟨st, haccepts, rfl⟩ := registerWithin_eq_ok_iff.1 hregister
    by_cases hmem : n ∈ Entries.keys (prepare submitted options)
    · obtain ⟨⟨n, v⟩, he, rfl⟩ := List.mem_map.1 hmem
      exact hr.reachable.holds_of_mem hr' (prepare_sorted hsubmitted options) haccepts he
    · rw [contains_publish_of_outside hmem] at hn
      exact hr.reachable.holds_of_outside haccepts hmem (ih hn)

/-! ## When handles share a program -/

/-- Links run one program if their programs cannot be told apart. -/
theorem Reachable.eq_of_number (hr : r.Reachable) {k l : Link} {p q : Program}
    (hp : r.bindings.lookup k.number = some p) (hq : r.bindings.lookup l.number = some q)
    (heq : p.number = q.number) : p = q :=
  hr.sound.numbered.numbered (Linkage.mem_of_lookup hp) (Linkage.mem_of_lookup hq) heq

theorem sameArtifact_iff_of_bound (hr : r.Reachable) {v w : Validator} {p q : Program}
    (hp : r.program? v = some p) (hq : r.program? w = some q) :
    r.sameArtifact v w = true ↔ p = q := by
  simp only [Registry.sameArtifact, hp, hq, beq_iff_eq]
  exact ⟨hr.eq_of_number hp hq, fun heq => by rw [heq]⟩

/-- Schemas whose rules are not names run one program if their programs have one identity. -/
theorem Holds.eq_of_id_eq {a b : String} {k l : Link} {p q : Program} (ha : r.Holds a)
    (hb : r.Holds b) (hrule : ∀ m, r.rule? a ≠ some (.text m))
    (hrule' : ∀ m, r.rule? b ≠ some (.text m)) (hk : Entries.lookup a r.nameLinks = some k)
    (hl : Entries.lookup b r.nameLinks = some l) (hp : r.bindings.lookup k.number = some p)
    (hq : r.bindings.lookup l.number = some q) (hid : p.id = q.id) : p = q := by
  cases ha with
  | refer hname _ _ _ => exact absurd hname (hrule _)
  | @shared _ k' t p' _ _ hk' hp' ht hpt =>
    cases hb with
    | refer hname _ _ _ => exact absurd hname (hrule' _)
    | @shared _ l' u q' _ _ hl' hq' hu hqu =>
      obtain rfl : k' = k := Option.some.inj (hk'.symm.trans hk)
      obtain rfl : l' = l := Option.some.inj (hl'.symm.trans hl)
      obtain rfl : p' = p := Option.some.inj (hp'.symm.trans hp)
      obtain rfl : q' = q := Option.some.inj (hq'.symm.trans hq)
      rw [hid] at ht
      obtain rfl : t = u := Option.some.inj (ht.symm.trans hu)
      exact Option.some.inj (hpt.symm.trans hqu)

/-- A schema whose rule is a name shares its program with no other. -/
theorem Holds.eq_of_rule_text (hr : r.Reachable) {a b m : String} {k l : Link} {p : Program}
    (ha : r.Holds a) (hrule : r.rule? a = some (.text m))
    (hk : Entries.lookup a r.nameLinks = some k) (hl : Entries.lookup b r.nameLinks = some l)
    (hp : r.bindings.lookup k.number = some p) (hq : r.bindings.lookup l.number = some p) :
    a = b := by
  cases ha with
  | @refer _ k' p' c _ hk' hp' hsteps =>
    obtain rfl : k' = k := Option.some.inj (hk'.symm.trans hk)
    obtain rfl : p' = p := Option.some.inj (hp'.symm.trans hp)
    have hlabel := hr.labelled (.name a) k' p' c hk hp hsteps
    have hlabel' := hr.labelled (.name b) l p' c hl hq hsteps
    exact Target.name.inj (hlabel.trans hlabel'.symm)
  | shared hrule' hv _ _ _ _ =>
    rw [hrule] at hrule'
    exact absurd (Option.some.inj hrule').symm (hv m)

/-- Two handles run one program exactly if their programs have one identity and, unless the
handles are on one name, neither rule is a name. -/
theorem sameArtifact_iff (hr : r.ReachableInOrder) {a b : String} {v w : Validator}
    (hv : r.get? a = some v) (hw : r.get? b = some w) :
    r.sameArtifact v w = true ↔ r.identity? v = r.identity? w ∧
      (a = b ∨ (∀ m, r.rule? a ≠ some (.text m)) ∧ ∀ m, r.rule? b ≠ some (.text m)) := by
  have hreachable : r.Reachable := hr.reachable
  obtain ⟨hcontains, hk, -⟩ := get?_eq_some_iff.1 hv
  obtain ⟨hcontains', hl, -⟩ := get?_eq_some_iff.1 hw
  obtain ⟨p, hp⟩ := Option.isSome_iff_exists.1 (hreachable.program?_isSome hv)
  obtain ⟨q, hq⟩ := Option.isSome_iff_exists.1 (hreachable.program?_isSome hw)
  have ha := hr.holds hcontains
  have hb := hr.holds hcontains'
  rw [sameArtifact_iff_of_bound hreachable hp hq, identity?, identity?, hp, hq, Option.map_some,
    Option.map_some, Option.some.injEq]
  constructor
  · rintro rfl
    refine ⟨rfl, Classical.or_iff_not_imp_left.2 fun hne => ⟨fun m hm => ?_, fun m hm => ?_⟩⟩
    · exact hne (ha.eq_of_rule_text hreachable hm hk hl hp hq)
    · exact hne (hb.eq_of_rule_text hreachable hm hl hk hq hp).symm
  · rintro ⟨hid, rfl | ⟨hrule, hrule'⟩⟩
    · obtain rfl : v = w := Option.some.inj (hv.symm.trans hw)
      exact Option.some.inj (hp.symm.trans hq)
    · exact ha.eq_of_id_eq hb hrule hrule' hk hl hp hq hid

/-- A rule for whole numbers and two more names for it. -/
def aliasRules : Entries Value :=
  [("age", .mapping [("type", .text "int")]), ("seniority", .text "age"), ("years", .text "age")]

/-- A registry with all three names. -/
@[irreducible]
def aliases : Registry :=
  ((Registry.empty unchecked ⟨[]⟩ id).registerWith (.mapping aliasRules) unchecked).toOption.getD
    (Registry.empty unchecked ⟨[]⟩ id)

set_option maxRecDepth 100000 in
theorem aliases_reachable : aliases.ReachableInOrder := by
  have hok : ((Registry.empty unchecked ⟨[]⟩ id).registerWith (.mapping aliasRules)
      unchecked).toBool = true := by
    decide +kernel
  have hsorted : Entries.Sorted aliasRules := by
    change ["age", "seniority", "years"].Pairwise (· < ·)
    decide
  have hregister : (Registry.empty unchecked ⟨[]⟩ id).registerWith (.mapping aliasRules)
      unchecked = .ok aliases := by
    unfold aliases
    exact eq_ok_of_toBool hok _
  exact .batch (.empty unchecked ⟨[]⟩ id) hsorted hregister

set_option maxRecDepth 100000 in
/-- The two names for the rule have programs of one identity, and yet run two programs. -/
theorem aliases_not_shared : ∃ v w, aliases.get? "seniority" = some v ∧
    aliases.get? "years" = some w ∧ aliases.identity? v = aliases.identity? w ∧
      aliases.sameArtifact v w = false := by
  obtain ⟨v, hv⟩ : ∃ v, aliases.get? "seniority" = some v :=
    Option.isSome_iff_exists.1 (by decide +kernel)
  obtain ⟨w, hw⟩ : ∃ w, aliases.get? "years" = some w :=
    Option.isSome_iff_exists.1 (by decide +kernel)
  have hids : (aliases.get? "seniority").bind aliases.identity? =
      (aliases.get? "years").bind aliases.identity? := by
    decide +kernel
  have hrule : aliases.rule? "years" = some (.text "age") := by
    decide +kernel
  rw [hv, hw] at hids
  refine ⟨v, w, hv, hw, hids, ?_⟩
  rw [← Bool.not_eq_true, sameArtifact_iff aliases_reachable hv hw]
  rintro ⟨-, hname | ⟨-, hrules⟩⟩
  · exact absurd hname (by decide)
  · exact hrules "age" hrule

end Registry
end Rulebook
