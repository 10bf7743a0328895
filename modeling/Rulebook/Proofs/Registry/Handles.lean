import Rulebook.Proofs.Registry.Representation

/-!
# Handles and references follow their name

A name has one link from the first time it is mentioned, by a schema of that name or by
a rule that names it.  Handles on the name hold this link, and so does every program
that was made of a rule with a reference to the name.  A name that is defined anew is
bound anew; so all of them run what the name stands for at present, whenever they came
about.
-/

namespace Rulebook
namespace Registry

open Source

variable {r : Registry}

/-- What is called for a name is what every handle on the name runs. -/
structure CallsCurrent (r : Registry) (n : String) (c : Callee) : Prop where
  link : ∃ l, Entries.lookup n r.nameLinks = some l ∧ c = .link l
  current : ∀ handle, r.get? n = some handle → ∃ l p, c = .link l ∧
    r.bindings.lookup l.number = some p ∧ r.program? handle = some p
  called : ∀ handle, r.get? n = some handle → ∀ context depth frames v,
    c.call (follow r.bindings context depth frames) v =
      follow r.bindings context depth frames handle.link v

/-- The program was made of the name of another rule, or of a rule, and calls for each
name in it what the name stands for at present. -/
inductive NamesFollowed (r : Registry) (p : Program) : Prop where
  | refer {s : Source} {m : String} {c : Callee} (hmem : (p.label, .text m) ∈ s.batch)
      (hid : p.id = SchemaId.of s.digest (.text m) s.options) (hsteps : p.steps = [.refer c])
      (hcurrent : r.CallsCurrent m c)
  | rule {s : Source} {features : Entries Value} {form : Value} {options : Options} {rule : Rule}
      {plan : List (Step Value)} (hoccurs : s.Occurs features options)
      (hform : s.FormIs features form) (hid : p.id = SchemaId.of s.digest form options)
      (hread : Rule.read? features = some rule)
      (hplan : rule.stages s.coercions s.outlook (options.overriddenBy rule.overrides) = some plan)
      (hsteps : List.Forall₂
        (Step.Rel fun v c => ∀ m, v = .text m → r.CallsCurrent m c) plan p.steps)

theorem Reachable.program?_isSome (hr : r.Reachable) {n : String} {handle : Validator}
    (hget : r.get? n = some handle) : (r.program? handle).isSome := by
  obtain ⟨hcontains, hlink, -⟩ := get?_eq_some_iff.1 hget
  obtain ⟨l, hl, hbound⟩ := hr.named hcontains
  rw [hlink] at hl
  rw [← Option.some.inj hl] at hbound
  exact hbound

/-- The link of a name is that of every handle on the name. -/
theorem Reachable.callsCurrent (hr : r.Reachable) {n : String} {l : Link}
    (hl : Entries.lookup n r.nameLinks = some l) : r.CallsCurrent n (.link l) := by
  have hhandle : ∀ handle, r.get? n = some handle → handle.link = l := by
    intro handle hget
    obtain ⟨-, hlink, -⟩ := get?_eq_some_iff.1 hget
    exact Option.some.inj (hlink.symm.trans hl)
  refine ⟨⟨l, hl, rfl⟩, fun handle hget => ?_, fun handle hget context depth frames v => ?_⟩
  · obtain ⟨p, hp⟩ := Option.isSome_iff_exists.1 (hr.program?_isSome hget)
    refine ⟨l, p, rfl, ?_, hp⟩
    rw [← hhandle handle hget]
    exact hp
  · rw [hhandle handle hget]
    rfl

/-- Every program calls for the names in its rule what they stand for at present. -/
theorem Reachable.namesFollowed (hr : r.Reachable) {k : Nat} {p : Program}
    (hp : (k, p) ∈ r.bindings) : r.NamesFollowed p := by
  cases hr.published k p hp with
  | refer _ hmem ht => exact .refer hmem rfl rfl (hr.callsCurrent ht)
  | rule hbuilt =>
    obtain ⟨s, features, form, options, -, hoccurs, hform, hid, -, hemits⟩ := hbuilt
    obtain ⟨-, rule, plan, hread, hplan, hsteps⟩ := hemits
    refine .rule hoccurs hform hid.symm hread hplan (hsteps.imp fun _ _ hst => hst.mono ?_)
    rintro _ c href m rfl
    cases href with
    | name hname => exact hr.callsCurrent hname
    | rule hflat _ _ =>
      obtain ⟨fs, heq, -⟩ := hflat.flatten
      cases heq

/-- Two handles cannot be told apart. -/
structure Agree (r : Registry) (v w : Validator) : Prop where
  validate : ∀ value context, r.validate v value context = r.validate w value context
  follow : ∀ context depth frames value, follow r.bindings context depth frames v.link value =
    Rulebook.follow r.bindings context depth frames w.link value
  identity : r.identity? v = r.identity? w
  sameArtifact : r.sameArtifact v w = true
  others : ∀ u, r.sameArtifact v u = r.sameArtifact w u ∧ r.sameArtifact u v = r.sameArtifact u w

theorem Reachable.agree_self (hr : r.Reachable) {n : String} {handle : Validator}
    (hget : r.get? n = some handle) : r.Agree handle handle := by
  refine ⟨fun _ _ => rfl, fun _ _ _ _ => rfl, rfl, ?_, fun _ => ⟨rfl, rfl⟩⟩
  obtain ⟨p, hp⟩ := Option.isSome_iff_exists.1 (hr.program?_isSome hget)
  simp only [Registry.sameArtifact, hp, beq_self_eq_true]

/-- Whatever calls are made, a handle that was given out at some time and the one that is
given out at some later time cannot be told apart at any time after that, and programs
call for each name in their rules what handles on the name run. -/
theorem handles_agree_after (options : Options) (coercions : CoercionTable) (digest : Digest)
    (depth : Nat) (before between later : List Request) :
    (∀ n v, ((Registry.empty options coercions digest).after depth before).get? n = some v →
      ∃ w, ((Registry.empty options coercions digest).after depth
          (before ++ between)).get? n = some w ∧
        ((Registry.empty options coercions digest).after depth
          (before ++ between ++ later)).Agree v w) ∧
    ∀ k p,
      (k, p) ∈ ((Registry.empty options coercions digest).after depth
        (before ++ between ++ later)).bindings →
          ((Registry.empty options coercions digest).after depth
            (before ++ between ++ later)).NamesFollowed p := by
  have hreachable := reachable_after options coercions digest depth
  refine ⟨fun n v hget => ?_, fun k p hp => (hreachable _).namesFollowed hp⟩
  have hagain := ((hreachable before).extends_after depth between).handle n v hget
  rw [← after_append] at hagain
  have hlater := ((hreachable _).extends_after depth later).handle n v hagain
  rw [← after_append] at hlater
  exact ⟨v, hagain, (hreachable _).agree_self hlater⟩

end Registry
end Rulebook
