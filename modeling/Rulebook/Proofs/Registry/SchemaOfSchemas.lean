import Rulebook.Proofs.Compilation.Linkage
import Rulebook.Proofs.Evaluation.Passing
import Rulebook.Proofs.Rule.Inside
import Rulebook.Proofs.Value.Parts
import Rulebook.SchemaOfSchemas

/-!
# What the schema of schemas lets through

A batch that passes the schema of schemas has only rules all of whose keys are
features.  The compiled schemas are looked at once, by evaluation: how the
programs for rules, for mappings of rules and for lists of rules call each other.
The rest is an induction along the rules inside rules.

On its way to a rule the evaluation has only met larger values, so that the guard
against loops does not let a rule pass unseen.
-/

namespace Rulebook
namespace SchemaOfSchemas

open Run Rule

/-! ## The compiled schemas -/

/-- The link of a schema. -/
def linkOf (r : Registry) (n : String) : Link := (Entries.lookup n r.nameLinks).getD ⟨0, n⟩

/-- The program of a schema. -/
def programOf? (r : Registry) (n : String) : Option Program :=
  r.bindings.lookup (linkOf r n).number

/-- What a program for mappings calls for each value. -/
def mappingValues? (p : Program) : Option Callee :=
  match p.steps with
  | [.check (.kind .dict), .members ⟨some ⟨[], [], some ⟨none, some c⟩, _⟩, none⟩] => some c
  | _ => none

/-- What a program for lists calls for each element. -/
def listValues? (p : Program) : Option Callee :=
  match p.steps with
  | [.check (.kind .list), .members ⟨none, some ⟨⟨none, some c⟩⟩⟩] => some c
  | _ => none

/-- The branches of a program that is nothing but a choice. -/
def choice? (p : Program) : Option (List Callee) :=
  match p.steps with
  | [.anyOf branches] => some branches
  | _ => none

/-- The kind that a program demands, if it does nothing else. -/
def kind? (p : Program) : Option Kind :=
  match p.steps with
  | [.check (.kind k)] => some k
  | _ => none

/-- The entries of a program for mappings without further keys. -/
def closedEntries? (p : Program) : Option (List (Entry Callee)) :=
  match p.steps with
  | [.check (.kind .dict), .members ⟨some ⟨entries, [], none, .forbid⟩, none⟩] => some entries
  | _ => none

/-- An entry of the schema for rules stands for a feature, and calls the schema that
the feature's argument has to follow. -/
def isFeature (r : Registry) (e : Entry Callee) : Bool :=
  e.synonyms.isEmpty &&
    match features.lookup e.key with
    | some (.text n) => e.callee == .link (linkOf r n)
    | some _ => true
    | none => false

/-- How the schemas for rules call each other. -/
structure Laid (r : Registry) : Prop where
  root : (programOf? r batchRoot).bind mappingValues? = some (.link (linkOf r "rule_ref"))
  ruleMap : (programOf? r "rule_map").bind mappingValues? = some (.link (linkOf r "rule_ref"))
  ruleList : (programOf? r "rule_list").bind listValues? = some (.link (linkOf r "rule_ref"))
  ruleRef : ∃ l, (programOf? r "rule_ref").bind choice? =
      some [.link l, .link (linkOf r "str"), .link (linkOf r "rule")] ∧
    (r.bindings.lookup l.number).bind kind? = some .null ∧
    ∀ t ∈ [l, linkOf r "str", linkOf r "rule"], (r.bindings.lookup t.number).map Program.number ≠
      (programOf? r "rule_ref").map Program.number
  str : (programOf? r "str").bind kind? = some .str
  rule : ∃ entries, (programOf? r "rule").bind closedEntries? = some entries ∧
    (∀ e ∈ entries, isFeature r e = true) ∧ ∀ f ∈ features, ∃ e ∈ entries, e.key = f.1

/-- Whether the schemas for rules call each other so. -/
def isLaid (r : Registry) : Bool :=
  (programOf? r batchRoot).bind mappingValues? == some (.link (linkOf r "rule_ref")) &&
  (programOf? r "rule_map").bind mappingValues? == some (.link (linkOf r "rule_ref")) &&
  (programOf? r "rule_list").bind listValues? == some (.link (linkOf r "rule_ref")) &&
  (match (programOf? r "rule_ref").bind choice? with
    | some [.link l, s, t] => s == .link (linkOf r "str") && t == .link (linkOf r "rule") &&
        (r.bindings.lookup l.number).bind kind? == some .null &&
        [l, linkOf r "str", linkOf r "rule"].all fun t =>
          (r.bindings.lookup t.number).map Program.number !=
            (programOf? r "rule_ref").map Program.number
    | _ => false) &&
  (programOf? r "str").bind kind? == some .str &&
  (match (programOf? r "rule").bind closedEntries? with
    | some entries => entries.all (isFeature r) &&
        features.all fun f => entries.any fun e => e.key == f.1
    | none => false)

theorem laid_of_isLaid {r : Registry} (h : isLaid r = true) : Laid r := by
  simp only [isLaid, Bool.and_eq_true, beq_iff_eq] at h
  obtain ⟨⟨⟨⟨⟨hroot, hmap⟩, hlist⟩, href⟩, hstr⟩, hrule⟩ := h
  refine ⟨hroot, hmap, hlist, ?_, hstr, ?_⟩
  · split at href
    · rename_i l s t hchoice
      simp only [Bool.and_eq_true, beq_iff_eq, List.all_eq_true, bne_iff_ne] at href
      obtain ⟨⟨⟨rfl, rfl⟩, hnull⟩, hdistinct⟩ := href
      exact ⟨l, hchoice, hnull, hdistinct⟩
    · cases href
  · split at hrule
    · rename_i entries hentries
      simp only [Bool.and_eq_true, List.all_eq_true, List.any_eq_true, beq_iff_eq] at hrule
      exact ⟨entries, hentries, hrule.1, hrule.2⟩
    · cases hrule

set_option maxRecDepth 100000 in
theorem registry_isLaid : registry.toOption.map isLaid = some true := by
  decide +kernel

theorem registry_laid {r : Registry} (h : registry = .ok r) : Laid r := by
  have hlaid := registry_isLaid
  rw [h] at hlaid
  exact laid_of_isLaid (Option.some.inj hlaid)

/-! ## Programs of known shape -/

variable {r : Registry} {p : Program}

theorem steps_of_mappingValues? {c : Callee} (h : mappingValues? p = some c) : ∃ policy,
    p.steps = [.check (.kind .dict), .members ⟨some ⟨[], [], some ⟨none, some c⟩, policy⟩, none⟩] := by
  rw [mappingValues?] at h
  split at h
  · rename_i c' policy hsteps
    rw [← Option.some.inj h]
    exact ⟨policy, hsteps⟩
  · cases h

theorem steps_of_listValues? {c : Callee} (h : listValues? p = some c) :
    p.steps = [.check (.kind .list), .members ⟨none, some ⟨⟨none, some c⟩⟩⟩] := by
  rw [listValues?] at h
  split at h
  · rename_i c' hsteps
    rw [← Option.some.inj h]
    exact hsteps
  · cases h

theorem steps_of_choice? {branches : List Callee} (h : choice? p = some branches) :
    p.steps = [.anyOf branches] := by
  rw [choice?] at h
  split at h
  · rename_i bs hsteps
    rw [← Option.some.inj h]
    exact hsteps
  · cases h

theorem steps_of_kind? {k : Kind} (h : kind? p = some k) : p.steps = [.check (.kind k)] := by
  rw [kind?] at h
  split at h
  · rename_i k' hsteps
    rw [← Option.some.inj h]
    exact hsteps
  · cases h

theorem steps_of_closedEntries? {entries : List (Entry Callee)}
    (h : closedEntries? p = some entries) :
    p.steps = [.check (.kind .dict), .members ⟨some ⟨entries, [], none, .forbid⟩, none⟩] := by
  rw [closedEntries?] at h
  split at h
  · rename_i es hsteps
    rw [← Option.some.inj h]
    exact hsteps
  · cases h

/-! ## Values on the way down -/

/-- All values that are being checked are larger. -/
def Fresh (frames : List Frame) (v : Value) : Prop := ∀ f ∈ frames, v.nodes < f.value.nodes

theorem Fresh.inFlight_eq {frames : List Frame} {v : Value} (h : Fresh frames v) (k : Nat) :
    inFlight frames (Frame.enter k v) = false := by
  rw [← Bool.not_eq_true, inFlight_iff]
  rintro ⟨g, hg, -, hsame⟩
  have hlt := h g hg
  have heq := Value.nodes_eq_of_same _ _ hsame
  exact absurd heq (Nat.ne_of_gt hlt)

theorem Fresh.cons {frames : List Frame} {v w : Value} (h : Fresh frames v) (k : Nat)
    (hlt : w.nodes < v.nodes) : Fresh (Frame.enter k v :: frames) w := by
  intro f hf
  rcases List.mem_cons.1 hf with rfl | hf
  · exact hlt
  · exact Nat.lt_trans hlt (h f hf)

/-- A value has passed through a link below some frames. -/
def Passed (r : Registry) (frames : List Frame) (l : Link) (v : Value) : Prop :=
  ∃ depth w, Passes (follow r.bindings none depth frames l v) w

/-- A value has passed a schema below larger values. -/
def Follows (r : Registry) (n : String) (v : Value) : Prop :=
  ∃ frames, Fresh frames v ∧ Passed r frames (linkOf r n) v

/-- A value that has passed through a link has passed the steps of its program. -/
theorem Passed.steps {frames : List Frame} {l : Link} {v : Value} (h : Passed r frames l v)
    (hp : r.bindings.lookup l.number = some p)
    (hfree : inFlight frames (Frame.enter p.number v) = false) :
    ∃ depth w, Passes (runSteps (Callee.call (follow r.bindings none depth
      (Frame.enter p.number v :: frames))) none p.steps v) w := by
  obtain ⟨depth, w, h⟩ := h
  obtain ⟨depth', q, hq, hrun⟩ := passes_follow h
  rw [hp] at hq
  cases hq
  exact ⟨depth', w, hrun hfree⟩

theorem Passed.of_call {frames : List Frame} {depth : Nat} {l : Link} {v w : Value}
    (h : Passes (Callee.call (follow r.bindings none depth frames) (.link l) v) w) :
    Passed r frames l v := ⟨depth, w, h⟩

/-- What passes a schema for mappings of rules is one, of values that pass the schema
for rules. -/
theorem Follows.mapping {n : String}
    (hlaid : (programOf? r n).bind mappingValues? = some (.link (linkOf r "rule_ref")))
    {v : Value} (h : Follows r n v) :
    ∃ es, v = .mapping es ∧ ∀ e ∈ es, Follows r "rule_ref" e.2 := by
  obtain ⟨p, hp, hvalues⟩ := Option.bind_eq_some_iff.1 hlaid
  obtain ⟨policy, hsteps⟩ := steps_of_mappingValues? hvalues
  obtain ⟨frames, hfresh, hpassed⟩ := h
  obtain ⟨depth, w, hrun⟩ := hpassed.steps hp (hfresh.inFlight_eq _)
  rw [hsteps, passes_kind, passes_members] at hrun
  obtain ⟨hkind, hrun⟩ := hrun
  cases v with
  | mapping es =>
    refine ⟨es, rfl, ?_⟩
    intro e he
    obtain ⟨u, hu⟩ := MappingItems.passes_open hrun rfl rfl rfl he
    exact ⟨_, hfresh.cons _ (Value.nodes_lt_mapping he), Passed.of_call hu⟩
  | _ => cases hkind

theorem Follows.list
    (hlaid : (programOf? r "rule_list").bind listValues? = some (.link (linkOf r "rule_ref")))
    {v : Value} (h : Follows r "rule_list" v) :
    ∃ xs, v = .list xs ∧ ∀ x ∈ xs, Follows r "rule_ref" x := by
  obtain ⟨p, hp, hvalues⟩ := Option.bind_eq_some_iff.1 hlaid
  have hsteps := steps_of_listValues? hvalues
  obtain ⟨frames, hfresh, hpassed⟩ := h
  obtain ⟨depth, w, hrun⟩ := hpassed.steps hp (hfresh.inFlight_eq _)
  rw [hsteps, passes_kind, passes_members] at hrun
  obtain ⟨hkind, hrun⟩ := hrun
  cases v with
  | list xs =>
    refine ⟨xs, rfl, ?_⟩
    intro x hx
    obtain ⟨u, hu⟩ := SequenceItems.passes_element hrun rfl hx
    exact ⟨_, hfresh.cons _ (Value.nodes_lt_list hx), Passed.of_call hu⟩
  | _ => cases hkind

/-- A program other than the one that has just been entered is not under way. -/
theorem Fresh.inFlight_cons {frames : List Frame} {v : Value} (h : Fresh frames v) {k m : Nat}
    (hne : m ≠ k) : inFlight (Frame.enter k v :: frames) (Frame.enter m v) = false := by
  have hhead : (Frame.enter k v).same (Frame.enter m v) = false := by
    rw [← Bool.not_eq_true, Frame.same_iff]
    intro hsame
    exact hne hsame.1.symm
  have htail := h.inFlight_eq m
  rw [inFlight] at htail ⊢
  rw [List.any_cons, hhead, htail]
  rfl

/-- A mapping does not pass where another kind is demanded. -/
theorem not_passed_of_kind {frames : List Frame} {es : Entries Value} {l : Link} {k : Kind}
    (hk : (r.bindings.lookup l.number).bind kind? = some k) (hne : k ≠ .dict)
    (hfree : ∀ p, r.bindings.lookup l.number = some p →
      inFlight frames (Frame.enter p.number (.mapping es)) = false) :
    ¬ Passed r frames l (.mapping es) := by
  intro hpassed
  obtain ⟨p, hp, hkind⟩ := Option.bind_eq_some_iff.1 hk
  obtain ⟨depth, w, hrun⟩ := hpassed.steps hp (hfree p hp)
  rw [steps_of_kind? hkind, passes_kind] at hrun
  cases k with
  | dict => exact hne rfl
  | _ => cases hrun.1

/-- A mapping that passes the schema for rules as they stand inside others passes the
schema for rules: it is neither null nor a name. -/
theorem Follows.rule (hlaid : Laid r) {fs : Entries Value}
    (h : Follows r "rule_ref" (.mapping fs)) :
    ∃ frames p, programOf? r "rule" = some p ∧
      inFlight frames (Frame.enter p.number (.mapping fs)) = false ∧
      (∀ k v, v.nodes < (Value.mapping fs).nodes →
        Fresh (Frame.enter k (.mapping fs) :: frames) v) ∧
      Passed r frames (linkOf r "rule") (.mapping fs) := by
  obtain ⟨l, hchoice, hnull, hdistinct⟩ := hlaid.ruleRef
  obtain ⟨q, hq, hbranches⟩ := Option.bind_eq_some_iff.1 hchoice
  obtain ⟨frames, hfresh, hpassed⟩ := h
  obtain ⟨depth, w, hrun⟩ := hpassed.steps hq (hfresh.inFlight_eq _)
  have hfree : ∀ t ∈ [l, linkOf r "str", linkOf r "rule"], ∀ p,
      r.bindings.lookup t.number = some p →
      inFlight (Frame.enter q.number (.mapping fs) :: frames)
        (Frame.enter p.number (.mapping fs)) = false := by
    intro t ht p hp
    refine hfresh.inFlight_cons ?_
    intro heq
    have hne := hdistinct t ht
    rw [hp, hq] at hne
    exact hne (congrArg some heq)
  rw [steps_of_choice? hbranches, passes_anyOf] at hrun
  obtain ⟨c, hc, hpass⟩ := passes_firstOf hrun
  simp only [List.mem_cons, List.not_mem_nil, or_false] at hc
  rcases hc with rfl | rfl | rfl
  · exact (not_passed_of_kind hnull (by decide) (hfree l (by simp)) (Passed.of_call hpass)).elim
  · exact (not_passed_of_kind hlaid.str (by decide) (hfree _ (by simp))
      (Passed.of_call hpass)).elim
  · obtain ⟨entries, hentries, -, -⟩ := hlaid.rule
    obtain ⟨p, hp, -⟩ := Option.bind_eq_some_iff.1 hentries
    refine ⟨_, p, hp, hfree _ (by simp) p hp, ?_, Passed.of_call hpass⟩
    intro k v hlt f hf
    rcases List.mem_cons.1 hf with rfl | hf
    · exact hlt
    · rcases List.mem_cons.1 hf with rfl | hf
      · exact hlt
      · exact Nat.lt_trans hlt (hfresh f hf)

/-- The keys of a rule that passes are features, and their arguments follow the
schemas of those. -/
theorem Follows.arguments (hlaid : Laid r) {fs : Entries Value}
    (h : Follows r "rule_ref" (.mapping fs)) :
    (∀ e ∈ fs, (features.lookup e.1).isSome) ∧
      ∀ key n v, features.lookup key = some (.text n) → Entries.lookup key fs = some v →
        Follows r n v := by
  obtain ⟨frames, p, hp, hfree, hfresh, hpassed⟩ := h.rule hlaid
  obtain ⟨entries, hentries, hfeature, hall⟩ := hlaid.rule
  obtain ⟨p', hp', hclosed⟩ := Option.bind_eq_some_iff.1 hentries
  rw [hp] at hp'
  cases hp'
  obtain ⟨depth, w, hrun⟩ := hpassed.steps hp hfree
  rw [steps_of_closedEntries? hclosed, passes_kind, passes_members] at hrun
  have hmembers := hrun.2
  constructor
  · intro e he
    have hdeclares := MappingItems.passes_forbid hmembers rfl rfl rfl e he
    rw [MappingItems.declares, List.any_eq_true] at hdeclares
    obtain ⟨d, hd, hkey⟩ := hdeclares
    have hd' := hfeature d hd
    rw [isFeature, Bool.and_eq_true, List.isEmpty_iff] at hd'
    rw [hd'.1] at hkey
    have heq : d.key = e.1 := by simpa using hkey
    rw [← heq]
    have hlookup := hd'.2
    cases hfound : features.lookup d.key with
    | some v => rfl
    | none =>
      rw [hfound] at hlookup
      cases hlookup
  · intro key n v hkey hv
    obtain ⟨e, he, heq⟩ := hall (key, .text n) (Linkage.mem_of_lookup hkey)
    have he' := hfeature e he
    rw [isFeature, Bool.and_eq_true, List.isEmpty_iff, heq, hkey] at he'
    have hcallee : e.callee = .link (linkOf r n) := eq_of_beq he'.2
    have hfind : e.find? fs = some (key, v) := by
      rw [Entry.find?, Entry.names, he'.1, heq]
      simp only [List.nil_append, List.findSome?_cons, hv, Option.map_some]
    obtain ⟨u, hu⟩ := MappingItems.passes_entry hmembers he hfind
    rw [hcallee] at hu
    exact ⟨_, hfresh _ v (Value.nodes_lt_mapping (Entries.mem_of_lookup hv)), Passed.of_call hu⟩

/-! ## Batches -/

/-- The rules inside a rule that passes do so. -/
theorem Follows.inside (hlaid : Laid r) {fs : Entries Value}
    (h : Follows r "rule_ref" (.mapping fs)) {v : Value} (hv : Inside fs v) :
    Follows r "rule_ref" v := by
  have hargument := (h.arguments hlaid).2
  cases hv with
  | @entry _ _ es hkey hlookup hmem =>
    have hmap : Follows r "rule_map" (.mapping es) := by
      rcases hkey with rfl | rfl
      · exact hargument "items" "rule_map" _ rfl hlookup
      · exact hargument "pattern_items" "rule_map" _ rfl hlookup
    obtain ⟨es, heq, hes⟩ := hmap.mapping hlaid.ruleMap
    cases heq
    exact hes _ hmem
  | argument hkey hlookup =>
    rcases hkey with rfl | rfl
    · exact hargument "keys" "rule_ref" v rfl hlookup
    · exact hargument "values" "rule_ref" v rfl hlookup
  | @branch _ vs hkey hlookup hmem =>
    have hlist : Follows r "rule_list" (.list vs) := by
      rcases hkey with rfl | rfl
      · exact hargument "any_of" "rule_list" _ rfl hlookup
      · exact hargument "one_of" "rule_list" _ rfl hlookup
    obtain ⟨xs, heq, hxs⟩ := hlist.list hlaid.ruleList
    cases heq
    exact hxs _ hmem

/-- The check follows the schema of batches. -/
theorem check_eq {r : Registry} {handle : Validator} (hr : registry = .ok r)
    (hget : r.get? batchRoot = some handle) (depth : Nat) (batch : Entries Value) :
    check depth batch = judge (evaluate depth r.bindings none handle.link (.mapping batch)) := by
  simp only [check, hr, bind, Except.bind, hget]
  rfl

/-- A batch that is let through follows the schema of batches. -/
theorem follows_of_check {depth : Nat} {batch : Entries Value} (h : check depth batch = .ok ()) :
    ∃ r, Laid r ∧ Follows r batchRoot (.mapping batch) := by
  rw [check, Except.bind_eq_ok_iff] at h
  obtain ⟨r, hr, h⟩ := h
  refine ⟨r, registry_laid hr, [], by simp [Fresh], depth, ?_⟩
  cases hget : r.get? batchRoot with
  | none =>
    rw [hget] at h
    cases h
  | some handle =>
    rw [hget] at h
    dsimp only at h
    rw [judge.eq_def] at h
    split at h
    · rename_i w hw
      refine ⟨w, ?_⟩
      rw [Registry.get?] at hget
      split at hget
      · obtain ⟨l, hl, rfl⟩ := Option.map_eq_some_iff.1 hget
        rw [linkOf, hl]
        exact hw
      · cases hget
    · cases h
    · cases h

/-- All keys of all rules of a batch that is let through are features. -/
theorem isFeature_of_check {depth : Nat} {batch : Entries Value} (h : check depth batch = .ok ())
    {fs : Entries Value} (hpart : Part batch (.mapping fs)) {e : String × Value} (he : e ∈ fs) :
    (features.lookup e.1).isSome := by
  obtain ⟨r, hlaid, hbatch⟩ := follows_of_check h
  have hall : ∀ {v}, Part batch v → Follows r "rule_ref" v := by
    intro v hv
    induction hv with
    | named hmem =>
      obtain ⟨es, heq, hes⟩ := hbatch.mapping hlaid.root
      cases heq
      exact hes _ hmem
    | inner _ hv ih => exact ih.inside hlaid hv
  exact ((hall hpart).arguments hlaid).1 e he

end SchemaOfSchemas
end Rulebook
