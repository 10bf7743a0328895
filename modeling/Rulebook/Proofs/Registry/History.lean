import Rulebook.Proofs.Compilation.Invariant
import Rulebook.Proofs.Evaluation.Callees
import Rulebook.Registration

/-!
# Registries with a history

A registry is reachable if it has come about by batches that were accepted one
after the other.  What a batch leaves behind is the end of a run of moves, so
that the linkage of every reachable registry is sound and no rule waits.
-/

namespace Rulebook
namespace Registry

open Source

/-- Registries that have come about by accepted batches, each of which met a
condition.  Calls may have been followed to a different depth for each batch. -/
inductive ReachableBy (meets : Registry → Entries Value → Options → Prop) : Registry → Prop where
  | empty (options : Options) (coercions : CoercionTable) (digest : Digest) :
      ReachableBy meets (Registry.empty options coercions digest)
  | batch {r r' : Registry} {depth : Nat} {submitted : Entries Value} {options : Options}
      (hr : ReachableBy meets r) (hmeets : meets r submitted options)
      (hregister : r.registerWithin depth (.mapping submitted) options = .ok r') :
      ReachableBy meets r'

/-- Registries that have come about by accepted batches. -/
abbrev Reachable : Registry → Prop := ReachableBy fun _ _ _ => True

/-- The staging area in which a batch is compiled. -/
def start (r : Registry) : Staging := { nextLink := r.nextLink, nextProgram := r.nextProgram }

/-- The linkage of a registry. -/
def linkage (r : Registry) : Linkage :=
  ⟨⟨fun n => Entries.lookup n r.nameLinks, fun i => r.cache.lookup i⟩, r.bindings, r.nextLink,
    r.nextProgram⟩

variable {r r' : Registry} {depth : Nat} {submitted batch : Entries Value} {options : Options}
  {st : Staging}

/-- A batch that is accepted has passed its check, has been compiled and has
replayed its examples, with calls followed to a given depth. -/
structure Accepts (r : Registry) (depth : Nat) (batch : Entries Value) (options : Options)
    (st : Staging) : Prop where
  check : options.validateSchemas = true → SchemaOfSchemas.check depth batch = .ok ()
  compile : ((r.source batch options).compileBatch).Yields r.start () st
  replay : options.validateSchemas = true → r.replay depth st = .ok ()

theorem stage_eq_ok_iff : r.stage batch options = .ok st ↔
    ((r.source batch options).compileBatch).Yields r.start () st := by
  rw [stage, Except.bind_eq_ok_iff, Compile.Yields]
  constructor
  · rintro ⟨⟨_, st'⟩, hrun, hst⟩
    cases hst
    exact hrun
  · intro h
    exact ⟨_, h, rfl⟩

theorem when_eq_ok_iff {b : Bool} {x : Except SchemaError Unit} :
    (if b then x else pure ()) = .ok () ↔ (b = true → x = .ok ()) := by
  cases b
  · simp [pure, Except.pure]
  · simp

/-- A batch is checked, compiled and tried, one after the other. -/
theorem accept_eq (r : Registry) (depth : Nat) (batch : Entries Value) (options : Options) :
    r.accept depth batch options = (do
      (if options.validateSchemas then SchemaOfSchemas.check depth batch else pure ())
      let st ← r.stage batch options
      (if options.validateSchemas then r.replay depth st else pure ())
      pure st) := by
  rw [accept]
  cases options.validateSchemas <;> rfl

theorem registerWithin_eq_ok_iff :
    r.registerWithin depth (.mapping submitted) options = .ok r' ↔
      ∃ st, r.Accepts depth (prepare submitted options) options st ∧
        r' = r.publish (prepare submitted options) options st := by
  have haccept : ∀ st, r.accept depth (prepare submitted options) options = .ok st ↔
      r.Accepts depth (prepare submitted options) options st := by
    intro st
    rw [accept_eq]
    simp only [Except.bind_eq_ok_iff]
    constructor
    · rintro ⟨_, hcheck, st', hstage, _, hreplay, hst⟩
      cases hst
      exact ⟨when_eq_ok_iff.1 hcheck, stage_eq_ok_iff.1 hstage, when_eq_ok_iff.1 hreplay⟩
    · rintro ⟨hcheck, hcompile, hreplay⟩
      exact ⟨(), when_eq_ok_iff.2 hcheck, st, stage_eq_ok_iff.2 hcompile, (),
        when_eq_ok_iff.2 hreplay, rfl⟩
  rw [registerWithin, Except.bind_eq_ok_iff]
  constructor
  · rintro ⟨st, hst, hr'⟩
    cases hr'
    exact ⟨st, (haccept st).1 hst, rfl⟩
  · rintro ⟨st, hst, rfl⟩
    exact ⟨st, (haccept st).2 hst, rfl⟩

/-! ## Soundness -/

/-- The linkage is sound and nothing waits. -/
structure Sound (good : Source → Prop) (r : Registry) : Prop where
  numbered : r.linkage.Numbered
  compiled : r.linkage.Compiled good []

variable {good : Source → Prop}

theorem sound_empty (options : Options) (coercions : CoercionTable) (digest : Digest) :
    (Registry.empty options coercions digest).Sound good := by
  refine ⟨?_, ?_⟩
  · constructor
    · intro n l h
      cases h
    · intro a l h
      cases a <;> cases h
    · intro a b l l' h
      cases a <;> cases h
    · intro k p h
      cases h
    · intro k k' p p' h
      cases h
  · refine ⟨?_, ?_, .nil⟩
    · intro i l h
      cases h
    · intro task h
      cases h

theorem linkage_start (batch : Entries Value) (options : Options) :
    (r.source batch options).linkage r.start = r.linkage := by
  simp only [Source.linkage, Source.links, linkage, source, start, Entries.lookup,
    List.lookup_nil, Option.or_none, List.nil_append]

/-- A compilation starts at a sound position. -/
theorem Sound.start (h : r.Sound good) (batch : Entries Value) (options : Options) :
    (r.source batch options).Sound good ⟨none, r.start⟩ := by
  refine ⟨?_, ?_, ?_, ?_, Entries.sorted_nil, ?_, ?_⟩
  · rw [linkage_start]
    exact h.numbered
  · rw [linkage_start]
    exact h.compiled
  · intro task htask
    cases htask
  · intro pair hpair
    cases hpair
  · intro n hn
    cases hn
  · intro i hi
    cases hi

theorem ready_start (batch : Entries Value) (options : Options) :
    (r.source batch options).Ready r.start := by
  intro task htask
  cases htask

theorem or_comm_of_disjoint {α : Type} {x y : Option α} (h : y.isSome → x = none) :
    x.or y = y.or x := by
  cases y with
  | none => simp
  | some b =>
    rw [h rfl]
    rfl

/-! ## Publishing -/

/-- Binding links changes what is found under their numbers, if a program is staged
there, and nothing else. -/
theorem lookup_bindAll (staged : Bindings) (links : List Link) (slots : Bindings) (k : Nat) :
    (bindAll staged links slots).lookup k =
      if k ∈ links.map Link.number then (staged.lookup k).or (slots.lookup k)
      else slots.lookup k := by
  induction links generalizing slots with
  | nil => rfl
  | cons l links ih =>
    rw [bindAll, List.foldl_cons, ← bindAll, ih, List.map_cons]
    cases hp : staged.lookup l.number with
    | none =>
      by_cases hk : k = l.number
      · simp [hk, hp]
      · simp [hk]
    | some p =>
      by_cases hk : k = l.number
      · simp [hk, hp]
      · simp [hk, Linkage.lookup_cons]

theorem bindAll_subset (staged : Bindings) (links : List Link) (slots : Bindings) :
    bindAll staged links slots ⊆ staged ++ slots := by
  induction links generalizing slots with
  | nil => exact List.subset_append_right _ _
  | cons l links ih =>
    rw [bindAll, List.foldl_cons, ← bindAll]
    cases hp : staged.lookup l.number with
    | none => exact ih slots
    | some p =>
      refine List.Subset.trans (ih _) (List.append_subset.2 ⟨List.subset_append_left _ _, ?_⟩)
      refine List.cons_subset.2 ⟨?_, List.subset_append_right _ _⟩
      exact List.mem_append_left _ (Linkage.mem_of_lookup hp)

theorem mem_bound_iff (h : Tracked st) (k : Nat) :
    k ∈ st.bound.map Link.number ↔ ∃ p, (k, p) ∈ st.bindings := by
  rw [← List.mem_reverse, ← h, List.mem_map]
  constructor
  · rintro ⟨⟨_, p⟩, hp, rfl⟩
    exact ⟨p, hp⟩
  · rintro ⟨p, hp⟩
    exact ⟨_, hp, rfl⟩

/-- After publishing, the staged programs are found where they were found before
those of the registry. -/
theorem lookup_publish (r : Registry) (batch : Entries Value) (options : Options) (h : Tracked st)
    (k : Nat) :
    (r.publish batch options st).bindings.lookup k = (st.bindings ++ r.bindings).lookup k := by
  rw [publish, lookup_bindAll, List.lookup_append]
  split
  · rfl
  · rename_i hk
    cases hp : st.bindings.lookup k with
    | none => rfl
    | some p => exact absurd ((mem_bound_iff h k).2 ⟨p, Linkage.mem_of_lookup hp⟩) hk

/-- Links are followed in the published registry as they were in the staged one. -/
theorem follow_publish (r : Registry) (batch : Entries Value) (options : Options)
    (h : Tracked st) :
    follow (r.publish batch options st).bindings = follow (st.bindings ++ r.bindings) := by
  funext context depth frames l v
  exact follow_congr context depth frames
    (fun l' _ => lookup_publish r batch options h l'.number) v

theorem evaluate_publish (r : Registry) (batch : Entries Value) (options : Options)
    (h : Tracked st) (depth : Nat) :
    evaluate depth (r.publish batch options st).bindings =
      evaluate depth (st.bindings ++ r.bindings) := by
  funext context l v
  rw [evaluate, evaluate, follow_publish r batch options h]

theorem Accepts.moves (h : r.Accepts depth batch options st) :
    (r.source batch options).Moves ⟨none, r.start⟩ ⟨none, st⟩ :=
  (Moves.compileBatch h.compile (ready_start batch options)).1

theorem tracked_of_yields (h : ((r.source batch options).compileBatch).Yields r.start () st) :
    Tracked st := by
  obtain ⟨hmoves, -⟩ := Moves.compileBatch h (ready_start batch options)
  exact hmoves.tracked rfl

theorem Accepts.tracked (h : r.Accepts depth batch options st) : Tracked st :=
  tracked_of_yields h.compile

/-- Publishing makes the links of the compilation those of the registry. -/
theorem links_publish (h : (r.source batch options).Sound good ⟨none, st⟩) :
    (r.publish batch options st).linkage.links = (r.source batch options).links st := by
  have hnames : (fun n => Entries.lookup n (Entries.overlay st.nameLinks r.nameLinks)) =
      fun n => (Entries.lookup n r.nameLinks).or (Entries.lookup n st.nameLinks) := by
    funext n
    rw [Entries.lookup_overlay h.sorted]
    exact (or_comm_of_disjoint (h.newNames n)).symm
  have hrules : (fun i => (st.cache ++ r.cache).lookup i) =
      fun i => (r.cache.lookup i).or (st.cache.lookup i) := by
    funext i
    rw [List.lookup_append]
    exact (or_comm_of_disjoint (h.newRules i)).symm
  simp only [linkage, publish, hnames, hrules]
  rfl

/-- Publishing makes the linkage of the compilation that of the registry, but for
bindings that are not found. -/
theorem linkage_publish (h : (r.source batch options).Sound good ⟨none, st⟩)
    (htracked : Tracked st) :
    (r.publish batch options st).linkage.Agrees ((r.source batch options).linkage st) where
  links := links_publish h
  subset := bindAll_subset _ _ _
  lookup := lookup_publish r batch options htracked
  nextLink := rfl
  nextProgram := rfl

/-- The position at which the compilation of an accepted batch ends. -/
theorem Sound.accepts (h : r.Sound good) (hgood : good (r.source batch options))
    (haccepts : r.Accepts depth batch options st) :
    (r.source batch options).Sound good ⟨none, st⟩ := by
  exact (h.start batch options).moves hgood haccepts.moves

theorem Sound.agrees (h : r.Sound good) (hgood : good (r.source batch options))
    (haccepts : r.Accepts depth batch options st) :
    (r.publish batch options st).linkage.Agrees ((r.source batch options).linkage st) :=
  linkage_publish (h.accepts hgood haccepts) haccepts.tracked

/-- An accepted batch leaves a sound registry. -/
theorem Sound.publish (h : r.Sound good) (hgood : good (r.source batch options))
    (haccepts : r.Accepts depth batch options st) : (r.publish batch options st).Sound good := by
  obtain ⟨-, hdone, -⟩ := Moves.compileBatch haccepts.compile (ready_start batch options)
  have hsound := h.accepts hgood haccepts
  have hnone : (Position.mk none st).waiting = [] := by
    simp only [Position.waiting, hdone]
    rfl
  have hcompiled := hsound.compiled
  rw [hnone] at hcompiled
  have hagrees := h.agrees hgood haccepts
  exact ⟨.of_agrees hagrees hsound.numbered, .of_agrees hagrees hcompiled⟩

/-! ## Handles -/

theorem prepare_sorted (h : Entries.Sorted submitted) (options : Options) :
    Entries.Sorted (prepare submitted options) := Entries.sorted_mapValues h _

theorem lookup_nameLinks_publish {good : Source → Prop}
    (h : (r.source batch options).Sound good ⟨none, st⟩) (n : String) :
    Entries.lookup n (r.publish batch options st).nameLinks =
      ((r.source batch options).links st).name n :=
  congrArg (fun T => T.name n) (links_publish h)

/-- The handle on a schema of an accepted batch. -/
theorem get?_publish {good : Source → Prop} (hbatch : Entries.Sorted batch)
    (h : (r.source batch options).Sound good ⟨none, st⟩) {n : String} {v : Value}
    (hmem : (n, v) ∈ batch) {l : Link} (hl : ((r.source batch options).links st).name n = some l) :
    (r.publish batch options st).get? n = some ⟨n, l⟩ := by
  have hcontains : (r.publish batch options st).contains n = true := by
    rw [contains, Entries.hasKey, publish]
    dsimp only
    rw [Entries.lookup_overlay (Entries.sorted_mapValues hbatch _), Entries.lookup_mapValues,
      (Entries.lookup_eq_some_iff hbatch).2 hmem]
    rfl
  rw [get?, if_pos hcontains, lookup_nameLinks_publish h, hl]
  rfl

/-! ## Reachable registries -/

theorem Reachable.sound (h : r.Reachable) : r.Sound fun _ => True := by
  induction h with
  | empty options coercions digest => exact sound_empty options coercions digest
  | batch _ _ hregister ih =>
    obtain ⟨st, haccepts, rfl⟩ := registerWithin_eq_ok_iff.1 hregister
    exact ih.publish trivial haccepts

/-! ## Concrete registries -/

/-- Options under which rules are registered without being checked. -/
def unchecked : Options := { validateSchemas := false }

theorem eq_ok_of_toBool {α : Type} {x : Except SchemaError α} (h : x.toBool = true) (d : α) :
    x = .ok (x.toOption.getD d) := by
  cases x with
  | error e => cases h
  | ok a => rfl

/-- The registry that an accepted batch leads to. -/
def accepted (x : Except SchemaError Registry) (h : x.toBool = true) : Registry :=
  match x, h with
  | .ok r, _ => r

theorem eq_ok_accepted {x : Except SchemaError Registry} (h : x.toBool = true) :
    x = .ok (accepted x h) := by
  cases x with
  | error e => cases h
  | ok r => rfl

end Registry
end Rulebook
