import Rulebook.Proofs.Compilation.Renumbering
import Rulebook.Proofs.Registry.Publication
import Rulebook.Proofs.Registry.Representation

/-!
# Registries under other numbers

A registry never shows the numbers of its links and programs.  The same registry under
other numbers refuses the same batches for the same reasons, and after those that it
accepts it is again the same but for its numbers.

So numbers may get lost.  All that a registry holds has numbers below those that come
next, and these may as well be later ones.
-/

namespace Rulebook

open Registry

namespace Renumbering

variable (ρ : Renumbering)

/-- The registry under the other numbers. -/
def onRegistry (r : Registry) : Registry :=
  { r with
    nameLinks := ρ.onNames r.nameLinks
    cache := ρ.onCache r.cache
    bindings := ρ.onBindings r.bindings
    nextLink := ρ.link r.nextLink
    nextProgram := ρ.program r.nextProgram }

/-- The handle under the other number of its link. -/
def onHandle (v : Validator) : Validator := { v with link := ρ.onLink v.link }

/-- The second registry is the first one under the other numbers, and so will be all that
is given out from now on. -/
structure Registries (r r' : Registry) : Prop where
  eq : r' = ρ.onRegistry r
  link : Consecutive ρ.link r.nextLink
  program : Consecutive ρ.program r.nextProgram

end Renumbering

variable {ρ σ : Renumbering} {r r' : Registry} {depth : Nat} {batch : Entries Value}
  {options : Options} {st st' : Staging}

/-! ## Registration -/

namespace Renumbering

theorem stage_carries (h : ρ.Registries r r') :
    SameOutcome ρ.Stages (r.stage batch options) (r'.stage batch options) := by
  obtain ⟨rfl, hlink, hprogram⟩ := h
  have hrun := Source.compileBatch_carries (s := r.source batch options) r.start
    (ρ.onStaging r.start) ⟨rfl, hlink, hprogram⟩
  exact hrun.bind fun _ _ hab => .accepted hab.2

theorem checkCase_onCase (depth : Nat) (bindings : Bindings) (c : ExampleCase) :
    checkCase depth (ρ.onBindings bindings) (ρ.onCase c) = checkCase depth bindings c :=
  checkCase_congr fun v => ρ.evaluate_onBindings depth bindings none c.link v

theorem forM_onCase (depth : Nat) (bindings : Bindings) (cases : List ExampleCase) :
    (cases.map ρ.onCase).forM (checkCase depth (ρ.onBindings bindings)) =
      cases.forM (checkCase depth bindings) := by
  rw [List.forM_eq_forM]
  induction cases with
  | nil => rw [List.map_nil, List.forM_nil, List.forM_nil]
  | cons c cases ih => rw [List.map_cons, List.forM_cons, List.forM_cons, checkCase_onCase, ih]

/-- The examples are judged alike under the other numbers. -/
theorem replay_onRegistry (r : Registry) (depth : Nat) (st : Staging) :
    (ρ.onRegistry r).replay depth (ρ.onStaging st) = r.replay depth st := by
  have hbindings : (ρ.onStaging st).bindings ++ (ρ.onRegistry r).bindings =
      ρ.onBindings (st.bindings ++ r.bindings) := (ρ.onBindings_append _ _).symm
  have hexamples : (ρ.onStaging st).examples = st.examples.map ρ.onCase := rfl
  rw [replay, replay, hbindings, hexamples, forM_onCase]

theorem accept_carries (h : ρ.Registries r r') :
    SameOutcome ρ.Stages (r.accept depth batch options) (r'.accept depth batch options) := by
  rw [accept_eq, accept_eq]
  refine (SameOutcome.refl _).bind fun _ _ _ => (stage_carries h).bind fun st st' hst => ?_
  have hreplay : r'.replay depth st' = r.replay depth st := by
    rw [h.eq, hst.eq, replay_onRegistry]
  rw [hreplay]
  exact (SameOutcome.refl _).bind fun _ _ _ => .accepted hst

theorem bindAll_onBindings (staged : Bindings) (links : List Link) (slots : Bindings) :
    bindAll (ρ.onBindings staged) (links.map ρ.onLink) (ρ.onBindings slots) =
      ρ.onBindings (bindAll staged links slots) := by
  induction links generalizing slots with
  | nil => rfl
  | cons l links ih =>
    have hstaged : (ρ.onBindings staged).lookup (ρ.onLink l).number =
        (staged.lookup l.number).map ρ.onProgram := ρ.lookup_onBindings staged l.number
    rw [List.map_cons, bindAll, bindAll, List.foldl_cons, List.foldl_cons, ← bindAll, ← bindAll,
      hstaged, ← ih]
    cases staged.lookup l.number <;> rfl

theorem publish_carries (h : ρ.Registries r r') (hst : ρ.Stages st st') :
    ρ.Registries (r.publish batch options st) (r'.publish batch options st') := by
  obtain ⟨rfl, -, -⟩ := h
  obtain ⟨rfl, hlink, hprogram⟩ := hst
  refine ⟨?_, hlink, hprogram⟩
  simp only [publish, onRegistry, onStaging, bindAll_onBindings, onNames, onCache,
    Entries.overlay_mapValues, List.map_append]

/-- A batch is refused for the same reason under the other numbers, or leads to the same
registry under them. -/
theorem registerWithin_carries (h : ρ.Registries r r') (depth : Nat) (schemas : Value)
    (options : Options) :
    SameOutcome ρ.Registries (r.registerWithin depth schemas options)
      (r'.registerWithin depth schemas options) := by
  cases schemas with
  | mapping submitted =>
    exact (accept_carries h).bind fun _ _ hst => .accepted (publish_carries h hst)
  | _ => exact .refused _

theorem submit_carries (h : ρ.Registries r r') (depth : Nat) (request : Request) :
    SameOutcome ρ.Registries (r.submit depth request) (r'.submit depth request) := by
  have hoptions : r'.options = r.options := by
    rw [h.eq]
    rfl
  cases request with
  | registerWith schemas options => exact registerWithin_carries h depth schemas options
  | register schemas =>
    rw [submit, submit, hoptions]
    exact registerWithin_carries h depth schemas r.options
  | insert name rule =>
    rw [submit, submit, hoptions]
    exact registerWithin_carries h depth (.mapping [(name, rule)]) r.options

/-! ## Answers -/

theorem get?_onRegistry (r : Registry) (name : String) :
    (ρ.onRegistry r).get? name = (r.get? name).map ρ.onHandle := by
  have hcontains : (ρ.onRegistry r).contains name = r.contains name := rfl
  have hlink : Entries.lookup name (ρ.onRegistry r).nameLinks =
      (Entries.lookup name r.nameLinks).map ρ.onLink := ρ.lookup_onNames r.nameLinks name
  rw [get?, get?, hcontains, hlink]
  split
  · rw [Option.map_map, Option.map_map]
    rfl
  · rfl

theorem program?_onRegistry (r : Registry) (v : Validator) :
    (ρ.onRegistry r).program? (ρ.onHandle v) = (r.program? v).map ρ.onProgram :=
  ρ.lookup_onBindings r.bindings v.link.number

theorem identity?_onRegistry (r : Registry) (v : Validator) :
    (ρ.onRegistry r).identity? (ρ.onHandle v) = r.identity? v := by
  rw [identity?, identity?, program?_onRegistry, Option.map_map]
  rfl

theorem sameArtifact_onRegistry (r : Registry) (v w : Validator) :
    (ρ.onRegistry r).sameArtifact (ρ.onHandle v) (ρ.onHandle w) = r.sameArtifact v w := by
  rw [sameArtifact, sameArtifact, program?_onRegistry, program?_onRegistry]
  cases r.program? v with
  | none => rfl
  | some p =>
    cases r.program? w with
    | none => rfl
    | some q => exact beq_eq_beq.2 ρ.program_strictMono.injective.eq_iff

theorem validateWithin_onRegistry (r : Registry) (depth : Nat) (v : Validator) (value : Value)
    (context : Option Context) :
    (ρ.onRegistry r).validateWithin depth (ρ.onHandle v) value context =
      r.validateWithin depth v value context :=
  ρ.evaluate_onBindings depth r.bindings context v.link value

theorem artifactCount_onRegistry (r : Registry) :
    (ρ.onRegistry r).artifactCount = r.artifactCount := List.length_map _

/-! ## Lost numbers -/

/-- Both give the numbers that are in use the same other numbers. -/
structure AgreesOn (ρ σ : Renumbering) (r : Registry) : Prop where
  link : ∀ k < r.nextLink, ρ.link k = σ.link k
  program : ∀ k < r.nextProgram, ρ.program k = σ.program k

theorem AgreesOn.onLink_eq (h : AgreesOn ρ σ r) {l : Link} (hl : l.number < r.nextLink) :
    ρ.onLink l = σ.onLink l := by
  rw [onLink, onLink, h.link _ hl]

theorem AgreesOn.onProgram_eq (h : AgreesOn ρ σ r) {p : Program} (hp : p.number < r.nextProgram)
    (hmentions : ∀ l, p.Mentions l → l.number < r.nextLink) : ρ.onProgram p = σ.onProgram p := by
  have hsteps : p.steps.map (Step.map (Callee.relink ρ.onLink)) =
      p.steps.map (Step.map (Callee.relink σ.onLink)) := by
    refine List.map_congr_left fun s hs => Step.map_congr fun c hc => ?_
    cases c with
    | pass => rfl
    | link l => exact congrArg Callee.link (h.onLink_eq (hmentions l ⟨s, hs, hc⟩))
  rw [onProgram, onProgram, Program.relink, Program.relink, hsteps, h.program _ hp]

end Renumbering

namespace Registry

/-- The links of names are in the order of the names. -/
theorem Reachable.sortedNames (hr : r.Reachable) : Entries.Sorted r.nameLinks := by
  induction hr with
  | empty options coercions digest => exact Entries.sorted_nil
  | batch _ _ hregister ih =>
    obtain ⟨st, -, rfl⟩ := registerWithin_eq_ok_iff.1 hregister
    exact Entries.sorted_overlay ih _

end Registry

namespace Renumbering

/-- All that a registry holds is the same under renumberings that agree on what is in use. -/
theorem AgreesOn.onRegistry_eq (h : AgreesOn ρ σ r) (hr : r.Reachable) :
    ρ.onNames r.nameLinks = σ.onNames r.nameLinks ∧ ρ.onCache r.cache = σ.onCache r.cache ∧
      ρ.onBindings r.bindings = σ.onBindings r.bindings := by
  have hnumbered := hr.sound.numbered
  refine ⟨List.map_congr_left ?_, List.map_congr_left ?_, List.map_congr_left ?_⟩
  · rintro ⟨n, l⟩ hmem
    have hl := (Entries.lookup_eq_some_iff hr.sortedNames).2 hmem
    exact congrArg (Prod.mk n) (h.onLink_eq (hnumbered.fresh (a := .name n) hl))
  · rintro ⟨i, l⟩ hmem
    have hl := hr.distinctRules.lookup_of_mem hmem
    exact congrArg (Prod.mk i) (h.onLink_eq (hnumbered.fresh (a := .rule i) hl))
  · rintro ⟨k, p⟩ hmem
    obtain ⟨hk, hp⟩ := hnumbered.bound hmem
    refine congrArg₂ Prod.mk (h.link k hk) (h.onProgram_eq hp fun l hmentions => ?_)
    obtain ⟨a, ha⟩ := (hr.published k p hmem).mentions hmentions
    exact hnumbered.fresh ha

end Renumbering

/-- Numbers that are given out and not kept. -/
structure Loss where
  links : Nat
  programs : Nat

/-- The registry after numbers were lost. -/
def Registry.lose (r : Registry) (loss : Loss) : Registry :=
  { r with
    nextLink := r.nextLink + loss.links
    nextProgram := r.nextProgram + loss.programs }

/-- From a number on all are used later. -/
def postpone (f : Nat → Nat) (n lost k : Nat) : Nat := if k < n then f k else f k + lost

theorem postpone_of_lt {f : Nat → Nat} {n lost k : Nat} (h : k < n) : postpone f n lost k = f k :=
  if_pos h

theorem postpone_add (f : Nat → Nat) (n lost i : Nat) :
    postpone f n lost (n + i) = f (n + i) + lost := if_neg (by omega)

theorem postpone_strictMono {f : Nat → Nat} (h : StrictMono f) (n lost : Nat) :
    StrictMono (postpone f n lost) := by
  intro a b hab
  have hlt := h hab
  rw [postpone, postpone]
  split <;> split <;> omega

theorem Consecutive.postpone {f : Nat → Nat} {n : Nat} (h : Consecutive f n) (lost : Nat) :
    Consecutive (postpone f n lost) n := by
  intro i
  have hn : Rulebook.postpone f n lost n = f n + lost := postpone_add f n lost 0
  rw [postpone_add, hn, h i]
  omega

namespace Renumbering

/-- The renumbering that uses later numbers for all that is not in use yet. -/
def after (ρ : Renumbering) (r : Registry) (loss : Loss) : Renumbering where
  link := postpone ρ.link r.nextLink loss.links
  program := postpone ρ.program r.nextProgram loss.programs
  link_strictMono := postpone_strictMono ρ.link_strictMono _ _
  program_strictMono := postpone_strictMono ρ.program_strictMono _ _

theorem agreesOn_after (ρ : Renumbering) (r : Registry) (loss : Loss) :
    AgreesOn (ρ.after r loss) ρ r :=
  ⟨fun _ hk => postpone_of_lt hk, fun _ hk => postpone_of_lt hk⟩

/-- When numbers are lost, the registry is still the same under other numbers. -/
theorem Registries.lose (h : ρ.Registries r r') (hr : r.Reachable) (loss : Loss) :
    (ρ.after r loss).Registries r (r'.lose loss) := by
  refine ⟨?_, h.link.postpone _, h.program.postpone _⟩
  obtain ⟨hnames, hcache, hbindings⟩ := (agreesOn_after ρ r loss).onRegistry_eq hr
  have hlink : (ρ.after r loss).link r.nextLink = ρ.link r.nextLink + loss.links :=
    postpone_add ρ.link r.nextLink loss.links 0
  have hprogram : (ρ.after r loss).program r.nextProgram =
      ρ.program r.nextProgram + loss.programs :=
    postpone_add ρ.program r.nextProgram loss.programs 0
  rw [h.eq, Registry.lose, onRegistry, onRegistry, hlink, hprogram, hnames, hcache, hbindings]

end Renumbering
end Rulebook
