import Mathlib.Data.List.Sort
import Rulebook.Proofs.Evaluation.Traversal
import Rulebook.Proofs.Structure.Policies

/-!
# The items of a container

A container is checked item by item: a list by its indices, and a mapping by the declared
entries and then by the keys that are not declared.  What becomes of one item does not depend
on what became of the others.  So a container fails with the error of its first item that
fails, and about keys that nothing claims only if no item fails.

An item adds one step to the error of the rule that it asks: the key or the index of what the
rule was given, or the key of an entry that is missing.  The exception is an entry whose
default is a parameter that the context lacks; that failure is left at the container.
-/

namespace Rulebook

open Run

variable {γ : Type}

/-! ## Items -/

/-- What is checked in one go. -/
inductive Item (γ : Type) where
  /-- A declared entry. -/
  | entry (e : Entry γ)
  /-- A key of the input that is not declared. -/
  | other (key : String)
  /-- An element of a list. -/
  | element (index : Nat)

namespace MappingItems

/-- The declared entries, and then the keys that are not declared. -/
def items (m : MappingItems γ) (input : Entries Value) : List (Item γ) :=
  m.entries.map .entry ++ ((Entries.keys input).filter fun k => !m.declares k).map .other

/-- Check an item on its own. -/
def visit (m : MappingItems γ) (call : Call γ) (context : Option Context)
    (input : Entries Value) : Item γ → Run Unit
  | .entry e => (e.apply call context input []).dropResult
  | .other k =>
      match Entries.lookup k input with
      | some v => (m.applyOther call ⟨[], []⟩ (k, v)).dropResult
      | none => pure ()
  | .element _ => pure ()

end MappingItems

namespace SequenceItems

/-- The indices of a list. -/
def items (input : List Value) : List (Item γ) := (List.range input.length).map .element

/-- Check an item on its own. -/
def visit (q : SequenceItems γ) (call : Call γ) (input : List Value) : Item γ → Run Unit
  | .element i =>
      match input[i]? with
      | some v => (q.element call v i).dropResult
      | none => pure ()
  | _ => pure ()

end SequenceItems

variable {call : Call γ} {context : Option Context} {input : Entries Value}
  {err : ValidationError}

/-! ## Mappings -/

namespace MappingItems

variable {m : MappingItems γ}

theorem visit_entry (e : Entry γ) : m.visit call context input (.entry e) =
    (e.contribution? call context input).dropResult := by
  rw [visit, Entry.apply_eq_write, dropResult_bind_pure]

theorem visit_other (hinput : Entries.Sorted input) {k : String} {v : Value}
    (hmem : (k, v) ∈ input) :
    m.visit call context input (.other k) = (m.receive call (k, v)).dropResult := by
  rw [visit, (Entries.lookup_eq_some_iff hinput).2 hmem]
  dsimp only
  rw [applyOther_eq_after, dropResult_bind_pure]

/-- A survey ends as the traversal of the items does. -/
theorem dropResult_survey (hinput : Entries.Sorted input) :
    (m.survey call context input).dropResult =
      forM (m.items input) (m.visit call context input) := by
  have hothers : forM input (fun e => (m.receive call e).dropResult) =
      forM (((Entries.keys input).filter fun k => !m.declares k).map Item.other)
        (m.visit call context input) := by
    rw [List.forM_map, forM_filter, Entries.keys, List.forM_map]
    apply forM_congr
    rintro ⟨k, v⟩ hmem
    cases hdeclared : m.declares k with
    | true =>
      rw [receive, if_pos hdeclared]
      rfl
    | false =>
      rw [visit_other hinput hmem]
      rfl
  rw [survey, items, List.forM_append, List.forM_map, ← hothers, ← dropResult_mapM]
  simp only [visit_entry]
  rw [← dropResult_mapM, ← dropResult_bind]
  simp only [dropResult, bind_assoc, pure_bind]

/-- The keys of the input that no rule claims, in order. -/
structure Unknown (m : MappingItems γ) (call : Call γ) (input : Entries Value)
    (keys : List String) : Prop where
  ascending : keys.Pairwise (· < ·)
  mem_iff : ∀ k, k ∈ keys ↔ k ∈ Entries.keys input ∧ ¬ m.Claims call k

theorem Unknown.unique {keys keys' : List String} (h : m.Unknown call input keys)
    (h' : m.Unknown call input keys') : keys = keys' :=
  h.ascending.eq_of_mem_iff h'.ascending fun k => (h.mem_iff k).trans (h'.mem_iff k).symm

/-- What is received keeps the order of the input. -/
theorem unclaimed_sublist {es : Entries Value} {rs : List Reception}
    (h : List.Forall₂ (m.Received call context input) es rs) :
    (rs.filterMap Reception.unclaimed?).Sublist (Entries.keys es) := by
  induction h with
  | nil => exact List.Sublist.refl _
  | cons hreceived _ ih =>
    cases hreceived with
    | unclaimed => exact ih.cons_cons _
    | _ => exact ih.cons _

theorem unknown_of_survey (hinput : Entries.Sorted input) {cs : List Contribution}
    {unclaimed : List String} (h : Passes (m.survey call context input) (cs, unclaimed)) :
    m.Unknown call input unclaimed := by
  refine ⟨?_, (surveyed h).unclaimed⟩
  rw [survey] at h
  obtain ⟨found, -, h⟩ := passes_bind.1 h
  obtain ⟨received, hreceived, h⟩ := passes_bind.1 h
  cases passes_pure.1 h
  have hmembers : List.Forall₂ (m.Received call context input) input received :=
    received_of_passes_mapM hreceived
  exact List.Pairwise.sublist (unclaimed_sublist hmembers) hinput

/-- A mapping fails with the error of the first item that fails.  If none fails, it may
still fail about the keys that nothing claims. -/
theorem fails_apply_iff (hinput : Entries.Sorted input) :
    Fails (m.apply call context input) err ↔
      (∃ before item, FailsAfter (m.visit call context input) (m.items input) before item err) ∨
      ((∀ item ∈ m.items input, Passes (m.visit call context input item) ()) ∧
        m.policy = .forbid ∧ ∃ keys ≠ [], m.Unknown call input keys ∧
          err = .here (.unknownKeys keys)) := by
  rw [apply_eq_survey, fails_bind, ← fails_forM, ← passes_forM, ← dropResult_survey hinput,
    fails_dropResult, passes_dropResult]
  apply or_congr_right
  constructor
  · rintro ⟨⟨cs, unclaimed⟩, hsurvey, hfails⟩
    dsimp only at hfails
    split at hfails
    · rename_i hforbid
      exact ⟨⟨_, hsurvey⟩, hforbid.1, unclaimed, hforbid.2, unknown_of_survey hinput hsurvey,
        fails_fail.1 hfails⟩
    · exact (not_fails_pure hfails).elim
  · rintro ⟨⟨⟨cs, unclaimed⟩, hsurvey⟩, hpolicy, keys, hkeys, hunknown, rfl⟩
    obtain rfl := hunknown.unique (unknown_of_survey hinput hsurvey)
    refine ⟨_, hsurvey, ?_⟩
    dsimp only
    rw [if_pos ⟨hpolicy, hkeys⟩]
    exact fails_fail.2 rfl

end MappingItems

/-! ## Where an item fails -/

/-- Where an error about an item of a mapping is located: under the key that an entry was
found under, or under the declared key if it was not found. -/
def Item.place (input : Entries Value) : Item γ → PathSegment
  | .entry e => .key ((e.find? input).elim e.key Prod.fst)
  | .other k => .key k
  | .element i => .index i

/-- None of the names of the entry is present, and its default is a parameter that the
context does not have. -/
structure Entry.LacksParameter (e : Entry γ) (context : Option Context) (input : Entries Value)
    (name : String) : Prop where
  absent : e.find? input = none
  default_eq : e.default = some (.parameter name)
  lacking : context.bind (Entries.lookup name) = none

theorem Substitute.fails_resolve_iff (d : Substitute) :
    Fails (d.resolve context) err ↔ ∃ name, d = .parameter name ∧
      context.bind (Entries.lookup name) = none ∧ err = .here (.missingParameter name) := by
  cases d with
  | literal v =>
    refine iff_of_false not_fails_pure ?_
    rintro ⟨name, hname, -⟩
    cases hname
  | parameter name =>
    rw [resolve]
    cases hlookup : context.bind (Entries.lookup name) with
    | some v =>
      refine iff_of_false not_fails_pure ?_
      rintro ⟨name', hname, hlacking, -⟩
      cases hname
      cases hlookup.symm.trans hlacking
    | none =>
      rw [fails_fail]
      constructor
      · rintro rfl
        exact ⟨name, rfl, hlookup, rfl⟩
      · rintro ⟨name', hname, -, rfl⟩
        cases hname
        rfl

namespace MappingItems

variable {m : MappingItems γ}

/-- What is wrong with an item, as seen from where the error is located. -/
inductive Refuses (m : MappingItems γ) (call : Call γ) (input : Entries Value) :
    Item γ → ValidationError → Prop where
  /-- The rule of an entry fails on what was found. -/
  | found {e : Entry γ} {k : String} {v : Value} {err : ValidationError}
      (hfind : e.find? input = some (k, v)) (hcall : Fails (call e.callee v) err) :
      Refuses m call input (.entry e) err
  /-- An entry that has to be there is not, and has no default. -/
  | missing {e : Entry γ} (hfind : e.find? input = none) (hdefault : e.default = none)
      (hrequired : e.required = true) : Refuses m call input (.entry e) (.here .missing)
  /-- The rule of the first matching pattern fails. -/
  | pattern {k : String} {v : Value} {p : PatternEntry γ} {err : ValidationError}
      (hlookup : Entries.lookup k input = some v) (hdeclared : m.declares k = false)
      (hfirst : (m.patterns.find? fun p => p.pattern.accepts k) = some p)
      (hcall : Fails (call p.callee v) err) : Refuses m call input (.other k) err
  /-- No pattern matches, and the open rule passes the key and fails on the value. -/
  | openRule {k : String} {v output : Value} {r : OpenRule γ} {err : ValidationError}
      (hlookup : Entries.lookup k input = some v) (hdeclared : m.declares k = false)
      (hfirst : (m.patterns.find? fun p => p.pattern.accepts k) = none)
      (hopen : m.openRule = some r) (hkey : Passes (r.key call (.text k)) (some output))
      (hvalue : Fails (r.value call v) err) : Refuses m call input (.other k) err

theorem fails_contribution_iff {e : Entry γ} :
    Fails (e.contribution? call context input) err ↔
      (∃ err', m.Refuses call input (.entry e) err' ∧
        err = err'.within ((Item.entry e).place input)) ∨
      ∃ name, e.LacksParameter context input name ∧ err = .here (.missingParameter name) := by
  rw [Entry.contribution?, Item.place]
  constructor
  · intro h
    cases hfind : e.find? input with
    | some found =>
      rw [hfind] at h
      obtain ⟨err', hcall, rfl⟩ := fails_under.1 (fails_bind_pure.1 h)
      exact Or.inl ⟨err', .found hfind hcall, rfl⟩
    | none =>
      rw [hfind] at h
      cases hdefault : e.default with
      | some d =>
        rw [hdefault] at h
        obtain ⟨name, rfl, hlacking, rfl⟩ := d.fails_resolve_iff.1 (fails_bind_pure.1 h)
        exact Or.inr ⟨name, ⟨hfind, hdefault, hlacking⟩, rfl⟩
      | none =>
        rw [hdefault] at h
        dsimp only at h
        split at h
        · rename_i hrequired
          obtain ⟨err', hfail, rfl⟩ := fails_under.1 h
          cases fails_fail.1 hfail
          exact Or.inl ⟨_, .missing hfind hdefault hrequired, rfl⟩
        · exact (not_fails_pure h).elim
  · rintro (⟨err', hrefuses, rfl⟩ | ⟨name, hlacks, rfl⟩)
    · cases hrefuses with
      | found hfind hcall =>
        rw [hfind]
        exact fails_bind_pure.2 (fails_under.2 ⟨_, hcall, rfl⟩)
      | missing hfind hdefault hrequired =>
        rw [hfind, hdefault]
        dsimp only
        rw [if_pos hrequired]
        exact fails_under.2 ⟨_, fails_fail.2 rfl, rfl⟩
    · rw [hlacks.absent, hlacks.default_eq]
      exact fails_bind_pure.2
        ((Substitute.fails_resolve_iff _).2 ⟨name, rfl, hlacks.lacking, rfl⟩)

theorem fails_receive_iff {k : String} {v : Value} (hlookup : Entries.lookup k input = some v) :
    Fails (m.receive call (k, v)) err ↔
      ∃ err', m.Refuses call input (.other k) err' ∧ err = err'.within (.key k) := by
  rw [receive]
  constructor
  · intro h
    dsimp only at h
    split at h
    · exact (not_fails_pure h).elim
    · rename_i hdeclared
      rw [Bool.not_eq_true] at hdeclared
      cases hfirst : m.patterns.find? fun p => p.pattern.accepts k with
      | some p =>
        rw [hfirst] at h
        obtain ⟨err', hcall, rfl⟩ := fails_under.1 (fails_bind_pure.1 h)
        exact ⟨err', .pattern hlookup hdeclared hfirst hcall, rfl⟩
      | none =>
        rw [hfirst] at h
        cases hopen : m.openRule with
        | none =>
          rw [hopen] at h
          exact (not_fails_pure h).elim
        | some r =>
          rw [hopen] at h
          rcases fails_bind.1 h with hkey | ⟨output, hkey, h⟩
          · exact (OpenRule.not_fails_key hkey).elim
          · cases output with
            | none => exact (not_fails_pure h).elim
            | some output =>
              obtain ⟨err', hvalue, rfl⟩ := fails_under.1 (fails_bind_pure.1 h)
              exact ⟨err', .openRule hlookup hdeclared hfirst hopen hkey hvalue, rfl⟩
  · rintro ⟨err', hrefuses, rfl⟩
    cases hrefuses with
    | pattern hlookup' hdeclared hfirst hcall =>
      obtain rfl := Option.some.inj (hlookup.symm.trans hlookup')
      rw [if_neg (Bool.eq_false_iff.1 hdeclared), hfirst]
      exact fails_bind_pure.2 (fails_under.2 ⟨_, hcall, rfl⟩)
    | openRule hlookup' hdeclared hfirst hopen hkey hvalue =>
      obtain rfl := Option.some.inj (hlookup.symm.trans hlookup')
      rw [if_neg (Bool.eq_false_iff.1 hdeclared), hfirst, hopen]
      refine fails_bind.2 (Or.inr ⟨_, hkey, ?_⟩)
      exact fails_bind_pure.2 (fails_under.2 ⟨_, hvalue, rfl⟩)

/-- An item fails with what is wrong with it, seen from the mapping, or at the mapping itself
because of a parameter. -/
theorem fails_visit_iff (hinput : Entries.Sorted input) {item : Item γ} :
    Fails (m.visit call context input item) err ↔
      (∃ err', m.Refuses call input item err' ∧ err = err'.within (item.place input)) ∨
      ∃ e name, item = .entry e ∧ e.LacksParameter context input name ∧
        err = .here (.missingParameter name) := by
  cases item with
  | entry e =>
    rw [visit_entry, fails_dropResult, fails_contribution_iff (m := m)]
    apply or_congr_right
    constructor
    · rintro ⟨name, h⟩
      exact ⟨e, name, rfl, h⟩
    · rintro ⟨e', name, heq, h⟩
      cases heq
      exact ⟨name, h⟩
  | other k =>
    have hnot : ¬ ∃ (e : Entry γ) (name : String), Item.other k = .entry e ∧
        e.LacksParameter context input name ∧ err = .here (.missingParameter name) := by
      rintro ⟨e, name, heq, -⟩
      cases heq
    rw [or_iff_left hnot]
    cases hlookup : Entries.lookup k input with
    | some v =>
      rw [visit_other hinput (Entries.mem_of_lookup hlookup), fails_dropResult,
        fails_receive_iff hlookup]
      rfl
    | none =>
      rw [visit, hlookup]
      refine iff_of_false not_fails_pure ?_
      rintro ⟨err', hrefuses, -⟩
      cases hrefuses with
      | pattern hlookup' => cases hlookup.symm.trans hlookup'
      | openRule hlookup' => cases hlookup.symm.trans hlookup'
  | element i =>
    refine iff_of_false not_fails_pure ?_
    rintro (⟨err', hrefuses, -⟩ | ⟨e, name, heq, -⟩)
    · cases hrefuses
    · cases heq

/-- A mapping fails at its first item that fails.  The error is located under the key that the
entry was found under, or the declared key of an entry that is missing, or the key that a
pattern or the open rule claims; below it stands what the rule said that was asked.  Two
failures are left at the mapping itself: about keys that nothing claims, if no item fails, and
about a parameter that an entry would take its default from. -/
theorem fails_iff_located (hinput : Entries.Sorted input) :
    Fails (m.apply call context input) err ↔
      (∃ before item err',
        FailsAfter (m.visit call context input) (m.items input) before item err ∧
          m.Refuses call input item err' ∧ err = err'.within (item.place input)) ∨
      (∃ before e name,
        FailsAfter (m.visit call context input) (m.items input) before (.entry e) err ∧
          e.LacksParameter context input name ∧ err = .here (.missingParameter name)) ∨
      ((∀ item ∈ m.items input, Passes (m.visit call context input item) ()) ∧
        m.policy = .forbid ∧ ∃ keys ≠ [], m.Unknown call input keys ∧
          err = .here (.unknownKeys keys)) := by
  rw [fails_apply_iff hinput, ← or_assoc]
  apply or_congr_left
  constructor
  · rintro ⟨before, item, hfirst⟩
    rcases (fails_visit_iff hinput).1 hfirst.fails with
      ⟨err', hrefuses, heq⟩ | ⟨e, name, rfl, hlacks, heq⟩
    · exact Or.inl ⟨before, item, err', hfirst, hrefuses, heq⟩
    · exact Or.inr ⟨before, e, name, hfirst, hlacks, heq⟩
  · rintro (⟨before, item, err', hfirst, -⟩ | ⟨before, e, name, hfirst, -⟩)
    · exact ⟨before, item, hfirst⟩
    · exact ⟨before, .entry e, hfirst⟩

/-- The entry `a` may be found under `b`, and `d` takes its default from the context. -/
def labelled : MappingItems Unit where
  entries := [⟨"a", "z", ["b"], (), none, true⟩, ⟨"d", "d", [], (), some (.parameter "P"), true⟩]
  patterns := []
  openRule := none
  policy := .forbid

/-- The error about `a` is located where it was found.  The one about `d` is left at the
mapping. -/
theorem fails_iff_located_labelled :
    (∃ item err', labelled.Refuses (fun _ _ => Run.fail (.wrongKind .int)) [("b", .bool true)]
        item err' ∧ item.place [("b", .bool true)] = .key "b" ∧ err'.path = []) ∧
      ∃ (e : Entry Unit) (name : String), e.LacksParameter none [("a", .bool true)] name ∧
        Fails (labelled.apply (fun _ v => pure v) none [("a", .bool true)])
          (.here (.missingParameter name)) := by
  have hsorted (k : String) : Entries.Sorted [(k, Value.bool true)] := List.pairwise_singleton _ _
  have hfound : Fails (labelled.apply (fun _ _ => Run.fail (.wrongKind .int)) none
      [("b", .bool true)]) ⟨[.key "b"], .wrongKind .int⟩ := rfl
  have hlacking : Fails (labelled.apply (fun _ v => pure v) none [("a", .bool true)])
      (.here (.missingParameter "P")) := rfl
  constructor
  · rcases (fails_iff_located (hsorted "b")).1 hfound with
      ⟨-, item, err', -, hrefuses, heq⟩ | ⟨-, e, name, -, -, heq⟩ | ⟨-, -, keys, -, -, heq⟩
    · have hpath := List.cons.inj (congrArg ValidationError.path heq)
      exact ⟨item, err', hrefuses, hpath.1.symm, hpath.2.symm⟩
    · cases heq
    · cases heq
  · rcases (fails_iff_located (hsorted "a")).1 hlacking with
      ⟨-, item, err', -, hrefuses, heq⟩ | ⟨-, e, name, -, hlacks, heq⟩ | ⟨-, -, keys, -, -, heq⟩
    · cases congrArg ValidationError.path heq
    · cases heq
      exact ⟨e, "P", hlacks, hlacking⟩
    · cases heq

end MappingItems

end Rulebook
