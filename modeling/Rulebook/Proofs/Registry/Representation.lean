import Rulebook.Proofs.Evaluation.Questions
import Rulebook.Proofs.Registry.Isolation

/-!
# What holds of every registry

Registries come about by calls that register batches or single schemas; a call
that is refused leaves the registry as it was.  In all of them the links fit
together: cached identities and registered names are bound, programs refer to
names by the one link of each name, and what is not bound is the link of a name
that is not registered.  So a name is said to be undefined only while it is.
-/

namespace Rulebook
namespace Registry

open Source

/-! ## Calls -/

/-- A call that changes the registry. -/
inductive Request where
  | register (schemas : Value)
  | registerWith (schemas : Value) (options : Options)
  | insert (name : String) (rule : Value)

/-- What a call leads to, where programs are followed to a given depth. -/
def submit (r : Registry) (depth : Nat) : Request → Except SchemaError Registry
  | .register schemas => r.registerWithin depth schemas r.options
  | .registerWith schemas options => r.registerWithin depth schemas options
  | .insert name rule => r.registerWithin depth (.mapping [(name, rule)]) r.options

/-- The registry after a call, whether it was accepted or refused. -/
def perform (depth : Nat) (r : Registry) (request : Request) : Registry :=
  match r.submit depth request with
  | .ok r' => r'
  | .error _ => r

/-- The registry after calls one after the other. -/
def after (r : Registry) (depth : Nat) (requests : List Request) : Registry :=
  requests.foldl (perform depth) r

variable {r r' : Registry} {depth : Nat} {batch : Entries Value} {options : Options} {st : Staging}

/-- If no depth is given, the calls are those of the registry. -/
theorem submit_depthLimit (r : Registry) (request : Request) :
    r.submit depthLimit request = match request with
      | .register schemas => r.register schemas
      | .registerWith schemas options => r.registerWith schemas options
      | .insert name rule => r.insert name rule := by
  cases request <;> rfl

/-- A call that is accepted registers a batch. -/
theorem registerWithin_of_submit {request : Request} (h : r.submit depth request = .ok r') :
    ∃ submitted options, r.registerWithin depth (.mapping submitted) options = .ok r' := by
  have hbatch : ∀ {schemas options}, r.registerWithin depth schemas options = .ok r' →
      ∃ submitted options, r.registerWithin depth (.mapping submitted) options = .ok r' := by
    intro schemas options hregister
    cases schemas with
    | mapping submitted => exact ⟨submitted, options, hregister⟩
    | _ => cases hregister
  cases request with
  | register schemas => exact hbatch h
  | registerWith schemas options => exact hbatch h
  | insert name rule => exact ⟨[(name, rule)], r.options, h⟩

/-- What accepted batches preserve holds after all calls. -/
theorem Reachable.after_induction {P : Registry → Prop} (hr : r.Reachable) (hP : P r)
    (hstep : ∀ {r r' submitted options}, Reachable r → P r →
      r.registerWithin depth (.mapping submitted) options = .ok r' → P r')
    (requests : List Request) :
    (r.after depth requests).Reachable ∧ P (r.after depth requests) := by
  induction requests generalizing r with
  | nil => exact ⟨hr, hP⟩
  | cons request requests ih =>
    have hafter : r.after depth (request :: requests) =
        (r.perform depth request).after depth requests := rfl
    rw [hafter, perform]
    split
    · rename_i r' h
      obtain ⟨submitted, options, hregister⟩ := registerWithin_of_submit h
      exact ih (.batch hr trivial hregister) (hstep hr hP hregister)
    · exact ih hr hP

/-- Whatever calls are made, the registry has come about by accepted batches. -/
theorem reachable_after (options : Options) (coercions : CoercionTable) (digest : Digest)
    (depth : Nat) (requests : List Request) :
    ((Registry.empty options coercions digest).after depth requests).Reachable :=
  (Reachable.after_induction (P := fun _ => True) (.empty options coercions digest) trivial
    (fun _ _ _ => trivial) requests).1

theorem after_append (r : Registry) (depth : Nat) (requests more : List Request) :
    r.after depth (requests ++ more) = (r.after depth requests).after depth more :=
  List.foldl_append

/-! ## Names -/

/-- Every registered name has a link that is bound. -/
theorem Reachable.named (hr : r.Reachable) {n : String} (hn : r.contains n = true) :
    ∃ l, Entries.lookup n r.nameLinks = some l ∧ (r.bindings.lookup l.number).isSome := by
  induction hr with
  | empty options coercions digest => cases hn
  | @batch r r' _ submitted options hr _ hregister ih =>
    obtain ⟨st, haccepts, rfl⟩ := registerWithin_eq_ok_iff.1 hregister
    have hsound := Reachable.sound hr
    have hlink := lookup_nameLinks_publish (hsound.accepts trivial haccepts) n
    by_cases hmem : n ∈ Entries.keys (prepare submitted options)
    · obtain ⟨e, he, rfl⟩ := List.mem_map.1 hmem
      obtain ⟨l, hl, hbound⟩ := compileBatch_bound trivial (hsound.start _ options)
        (ready_start _ options) haccepts.compile he
      obtain ⟨p, hp⟩ := Option.isSome_iff_exists.1 hbound
      refine ⟨l, hlink.trans hl, ?_⟩
      rw [lookup_publish r _ options haccepts.tracked, List.lookup_append, hp]
      rfl
    · rw [contains_publish_of_outside hmem] at hn
      obtain ⟨l, hl, hbound⟩ := ih hn
      refine ⟨l, (within_publish hsound haccepts).name hl, ?_⟩
      rw [lookup_published_name hsound haccepts hl hmem]
      exact hbound

/-! ## The cache -/

/-- No identity is cached twice. -/
theorem Reachable.distinctRules (hr : r.Reachable) : DistinctRules r.cache := by
  induction hr with
  | empty options coercions digest => exact .nil
  | @batch r r' _ submitted options hr _ hregister ih =>
    obtain ⟨st, haccepts, rfl⟩ := registerWithin_eq_ok_iff.1 hregister
    exact distinctRules_moves haccepts.moves ih

/-- A cached identity has a link that is bound to a program of that identity. -/
theorem Reachable.cached (hr : r.Reachable) {i : SchemaId} {l : Link} (hl : (i, l) ∈ r.cache) :
    ∃ p, r.bindings.lookup l.number = some p ∧ p.id = i := by
  obtain ⟨p, hp, hbuilt⟩ | ⟨_, htask, -⟩ :=
    hr.sound.compiled.built (i := i) (hr.distinctRules.lookup_of_mem hl)
  · exact ⟨p, hp, hbuilt.id_eq⟩
  · cases htask

/-- The second registry has the cached identities and the handles of the first, and
the identities are bound as they were. -/
structure Extends (r r' : Registry) : Prop where
  cached : ∀ i l, (i, l) ∈ r.cache → (i, l) ∈ r'.cache ∧
    r'.bindings.lookup l.number = r.bindings.lookup l.number
  handle : ∀ n handle, r.get? n = some handle → r'.get? n = some handle

theorem Reachable.extends_publish (hr : r.Reachable) (haccepts : r.Accepts depth batch options st) :
    r.Extends (r.publish batch options st) := by
  refine ⟨fun i l hl => ⟨List.mem_append_right _ hl, ?_⟩, fun n handle hget => ?_⟩
  · exact lookup_published_rule hr.sound haccepts (hr.distinctRules.lookup_of_mem hl)
  · obtain ⟨hcontains, hl, hname⟩ := get?_eq_some_iff.1 hget
    exact get?_eq_some_iff.2 ⟨Entries.isSome_lookup_overlay (Or.inr hcontains),
      (within_publish hr.sound haccepts).name hl, hname⟩

/-- Later registries extend earlier ones. -/
theorem Reachable.extends_after (hr : r.Reachable) (depth : Nat) (requests : List Request) :
    r.Extends (r.after depth requests) := by
  refine (hr.after_induction (P := r.Extends) ⟨fun i l hl => ⟨hl, rfl⟩, fun _ _ hget => hget⟩ ?_
    requests).2
  intro r₁ r₂ submitted options hr₁ hextends hregister
  obtain ⟨st, haccepts, rfl⟩ := registerWithin_eq_ok_iff.1 hregister
  have hstep := hr₁.extends_publish haccepts
  refine ⟨fun i l hl => ?_, fun n handle hget => ?_⟩
  · obtain ⟨hl₁, hbound⟩ := hextends.cached i l hl
    obtain ⟨hl₂, hbound'⟩ := hstep.cached i l hl₁
    exact ⟨hl₂, hbound'.trans hbound⟩
  · exact hstep.handle n handle (hextends.handle n handle hget)

/-! ## Links that are not bound -/

/-- What programs call is the one link of a name or the link of a cached identity. -/
theorem Reachable.mentions (hr : r.Reachable) {k : Nat} {p : Program} {l : Link}
    (hp : (k, p) ∈ r.bindings) (hl : p.Mentions l) :
    Entries.lookup l.name r.nameLinks = some l ∨ ∃ i, r.cache.lookup i = some l := by
  obtain ⟨a, ha⟩ := (hr.published k p hp).mentions hl
  cases a with
  | name n =>
    have hname : l.name = n := hr.sound.numbered.named ha
    left
    rw [hname]
    exact ha
  | rule i => exact Or.inr ⟨i, ha⟩

/-- A link that programs call is not bound only if it is the link of a name that is
not registered. -/
theorem Reachable.contains_of_unbound (hr : r.Reachable) {l : Link}
    (hl : Entries.lookup l.name r.nameLinks = some l ∨ ∃ i, r.cache.lookup i = some l)
    (hunbound : r.bindings.lookup l.number = none) :
    Entries.lookup l.name r.nameLinks = some l ∧ r.contains l.name = false := by
  rcases hl with hl | ⟨i, hl⟩
  · refine ⟨hl, ?_⟩
    rw [← Bool.not_eq_true]
    intro hcontains
    obtain ⟨l', hl', hbound⟩ := hr.named hcontains
    rw [hl] at hl'
    rw [← Option.some.inj hl', hunbound] at hbound
    cases hbound
  · obtain ⟨p, hp, -⟩ := hr.cached (Linkage.mem_of_lookup hl)
    rw [hunbound] at hp
    cases hp

theorem Reachable.mentions_of_reaches (hr : r.Reachable) {l l' : Link}
    (hl : Entries.lookup l.name r.nameLinks = some l ∨ ∃ i, r.cache.lookup i = some l)
    (hreaches : r.bindings.Reaches l l') :
    Entries.lookup l'.name r.nameLinks = some l' ∨ ∃ i, r.cache.lookup i = some l' := by
  induction hreaches with
  | refl => exact hl
  | tail _ hcalls _ =>
    obtain ⟨p, hp, hmentions⟩ := hcalls
    exact hr.mentions (Linkage.mem_of_lookup hp) hmentions

/-- A call from a link of the registry fails over a schema that is not defined only if
its name is not registered. -/
theorem Reachable.contains_of_undefined (hr : r.Reachable) {l : Link}
    (hl : Entries.lookup l.name r.nameLinks = some l ∨ ∃ i, r.cache.lookup i = some l)
    {context : Option Context} {depth : Nat} {frames : List Frame} {v : Value}
    {e : ValidationError} (he : (follow r.bindings context depth frames l v).run = some (.error e))
    {n : String} (hn : e.failure = .undefinedSchema n) : r.contains n = false := by
  have hfails : ∀ f : Failure, (∀ n, f ≠ .undefinedSchema n) →
      ∀ n, f = .undefinedSchema n → r.contains n = false := fun f hf n heq => absurd heq (hf n)
  refine follow_fails hfails (fun l' hreaches hunbound n heq => ?_) he n hn
  cases heq
  exact (hr.contains_of_unbound (hr.mentions_of_reaches hl hreaches) hunbound).2

/-! ## All of it -/

/-- How a registry is put together. -/
structure Represents (r : Registry) : Prop where
  /-- A cached identity is bound to a program of that identity. -/
  cached : ∀ i l, (i, l) ∈ r.cache → ∃ p, r.bindings.lookup l.number = some p ∧ p.id = i
  /-- A registered name is bound. -/
  named : ∀ n, r.contains n = true →
    ∃ l, Entries.lookup n r.nameLinks = some l ∧ (r.bindings.lookup l.number).isSome
  /-- A program was made of a rule, with the registry's link for each name in it. -/
  origin : ∀ k p, (k, p) ∈ r.bindings → Origin (fun _ => True) r.linkage.links p
  /-- A program calls the links of names, as the registry has them, and of identities. -/
  mentions : ∀ k p l, (k, p) ∈ r.bindings → p.Mentions l →
    Entries.lookup l.name r.nameLinks = some l ∨ ∃ i, r.cache.lookup i = some l
  /-- A link that is reached from a program and not bound is that of a name which is
  not registered. -/
  unbound : ∀ k p l l', (k, p) ∈ r.bindings → p.Mentions l → r.bindings.Reaches l l' →
    r.bindings.lookup l'.number = none →
      Entries.lookup l'.name r.nameLinks = some l' ∧ r.contains l'.name = false
  /-- No call on the way of a validation fails over a name that is registered. -/
  undefined : ∀ n handle l context depth frames v e m, r.get? n = some handle →
    r.bindings.Reaches handle.link l →
      (follow r.bindings context depth frames l v).run = some (.error e) →
        e.failure = .undefinedSchema m → r.contains m = false

theorem Reachable.represents (hr : r.Reachable) : r.Represents where
  cached _ _ hl := hr.cached hl
  named _ hn := hr.named hn
  origin := hr.published
  mentions _ _ _ hp hl := hr.mentions hp hl
  unbound _ _ _ _ hp hl hreaches hunbound :=
    hr.contains_of_unbound (hr.mentions_of_reaches (hr.mentions hp hl) hreaches) hunbound
  undefined n handle l context depth frames v e m hget hreaches he hm := by
    obtain ⟨-, hlink, rfl⟩ := get?_eq_some_iff.1 hget
    have hname : handle.link.name = handle.name := hr.sound.numbered.named hlink
    refine hr.contains_of_undefined (hr.mentions_of_reaches (Or.inl ?_) hreaches) he hm
    rw [hname]
    exact hlink

/-- Every registry that calls lead to is put together like that, whatever calls led
to it; later calls leave what is cached as it is; and a validation reports that a
schema was not defined only if there is none of the name.  The calls follow programs to any
one depth, and the validation to any other. -/
theorem represents_after (options : Options) (coercions : CoercionTable) (digest : Digest)
    (depth : Nat) (requests : List Request) :
    ((Registry.empty options coercions digest).after depth requests).Represents ∧
      (∀ more, ((Registry.empty options coercions digest).after depth requests).Extends
        ((Registry.empty options coercions digest).after depth (requests ++ more))) ∧
      ∀ n handle context depth' v e m,
        ((Registry.empty options coercions digest).after depth requests).get? n = some handle →
          ((Registry.empty options coercions digest).after depth requests).validateWithin depth'
            handle v context = some (.error e) → e.failure = .undefinedSchema m →
              ((Registry.empty options coercions digest).after depth requests).contains m =
                false := by
  have hr := reachable_after options coercions digest depth requests
  have hrepresents := hr.represents
  refine ⟨hrepresents, fun more => ?_, fun n handle context depth' v e m hget he hm => ?_⟩
  · rw [after_append]
    exact hr.extends_after depth more
  · exact hrepresents.undefined n handle _ context depth' [] v e m hget .refl he hm

end Registry
end Rulebook
