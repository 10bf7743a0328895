import Rulebook.Proofs.Compilation.Called
import Rulebook.Proofs.Compilation.Standalone
import Rulebook.Proofs.Interpretation.Refinement
import Rulebook.Proofs.Registry.Renumbering
import Rulebook.Proofs.Registry.Repetition

/-!
# Parts of a set of schemas

When a set of schemas is registered part by part, the registry holds some of its rules after
each part.  If each rule of the set comes to the same by itself, then what the rules held so
far were compiled to is what the whole set says of them.  A registry that holds all of them
can be read as the end of a complete compilation of the set, although links were handed out
in another order and programs were made of other rules of the same identities.
-/

namespace Rulebook
namespace Registry

open Source

variable {r r' : Registry} {s : Source} {depth : Nat} {batch held : Entries Value}
  {options : Options} {st : Staging}

/-- A source with nothing registered before. -/
structure Blank (s : Source) : Prop where
  registered : s.registered = []
  nameLinks : s.nameLinks = []
  cache : s.cache = []
  bindings : s.bindings = []

theorem blank_source (base : Options) (coercions : CoercionTable) (digest : Digest)
    (batch : Entries Value) (options : Options) :
    Blank ((Registry.empty base coercions digest).source batch options) :=
  ⟨rfl, rfl, rfl, rfl⟩

/-! ## What a registry holds -/

/-- The registry holds some rules of a set, which were registered in parts. -/
structure Carries (r : Registry) (s : Source) (held : Entries Value) : Prop where
  reachable : r.Reachable
  sound : r.Sound fun t => t.PartOf s
  coercions : r.coercions = s.coercions
  digest : r.digest = s.digest
  schemas : ∀ n e, Entries.lookup n r.schemas = some e ↔ (n, e.rule) ∈ held ∧ e.options = s.options
  refer : ∀ {n m}, (n, .text m) ∈ held → ∃ l t number, Entries.lookup n r.nameLinks = some l ∧
    Entries.lookup m r.nameLinks = some t ∧
    r.bindings.lookup l.number = some (s.aliasProgram n m number t)
  rule : ∀ {n v}, (n, v) ∈ held → (∀ m, v ≠ .text m) → ∃ flat form l t p,
    s.Flattens n v flat ∧ s.FormIs flat form ∧ Entries.lookup n r.nameLinks = some l ∧
    r.cache.lookup (SchemaId.of s.digest form s.options) = some t ∧
    r.bindings.lookup l.number = some p ∧ r.bindings.lookup t.number = some p
  bound : ∀ {n l p}, Entries.lookup n r.nameLinks = some l →
    r.bindings.lookup l.number = some p → n ∈ Entries.keys held
  frugal : r.linkage.Frugal s.Heads

theorem carries_empty (base : Options) (coercions : CoercionTable) (digest : Digest)
    (hcoercions : coercions = s.coercions) (hdigest : digest = s.digest) :
    (Registry.empty base coercions digest).Carries s [] where
  reachable := .empty base coercions digest
  sound := sound_empty base coercions digest
  coercions := hcoercions
  digest := hdigest
  schemas n e := by
    constructor
    · intro h
      cases h
    · rintro ⟨h, -⟩
      cases h
  refer h := by cases h
  rule h := by cases h
  bound h := by cases h
  frugal i l h := by cases h

/-- What the next batch is compiled from is part of the set. -/
theorem Carries.partOf (h : r.Carries s held) (hheld : held ⊆ s.batch) (hsub : batch ⊆ s.batch) :
    (r.source batch s.options).PartOf s where
  batch := hsub
  registered := by
    intro e he
    obtain ⟨f, hf, rfl⟩ := List.mem_map.1 he
    exact hheld ((h.schemas f.1 f.2).1
      ((Entries.lookup_eq_some_iff (Reachable.sorted h.reachable)).2 hf)).1
  options := rfl
  coercions := h.coercions
  digest := h.digest

theorem Carries.schemas_publish (h : r.Carries s held) (hbatch : Entries.Sorted batch)
    (hnew : ∀ n ∈ Entries.keys batch, n ∉ Entries.keys held) (n : String) (e : SchemaEntry) :
    Entries.lookup n (r.publish batch s.options st).schemas = some e ↔
      (n, e.rule) ∈ held ++ batch ∧ e.options = s.options := by
  rw [publish]
  dsimp only
  rw [Entries.lookup_overlay (Entries.sorted_mapValues hbatch _), Entries.lookup_mapValues,
    List.mem_append, Option.or_eq_some_iff, Option.map_eq_some_iff, Option.map_eq_none_iff,
    h.schemas n e]
  constructor
  · rintro (⟨v, hv, rfl⟩ | ⟨-, hmem, hoptions⟩)
    · exact ⟨Or.inr (Entries.mem_of_lookup hv), rfl⟩
    · exact ⟨Or.inl hmem, hoptions⟩
  · rintro ⟨hmem | hmem, hoptions⟩
    · refine Or.inr ⟨?_, hmem, hoptions⟩
      rw [Option.eq_none_iff_forall_ne_some]
      intro v hv
      exact hnew n (List.mem_map.2 ⟨_, Entries.mem_of_lookup hv, rfl⟩)
        (List.mem_map.2 ⟨_, hmem, rfl⟩)
    · refine Or.inl ⟨e.rule, (Entries.lookup_eq_some_iff hbatch).2 hmem, ?_⟩
      rw [← hoptions]

/-! ## The next batch -/

section Step

variable (h : r.Carries s held) (hbatch : Entries.Sorted batch)
  (hnew : ∀ n ∈ Entries.keys batch, n ∉ Entries.keys held)
  (haccepts : r.Accepts depth batch s.options st)
include h hbatch hnew haccepts

omit hbatch in
/-- What names that are held already are bound to is kept. -/
theorem Carries.lookup_kept {n : String} {v : Value} {l : Link} (hmem : (n, v) ∈ held)
    (hl : Entries.lookup n r.nameLinks = some l) :
    (r.publish batch s.options st).bindings.lookup l.number = r.bindings.lookup l.number :=
  lookup_published_name (Reachable.sound h.reachable) haccepts hl
    fun hn => hnew n hn (List.mem_map.2 ⟨_, hmem, rfl⟩)

theorem Carries.refer_publish {n m : String} (hmem : (n, .text m) ∈ held ++ batch) :
    ∃ l t number, Entries.lookup n (r.publish batch s.options st).nameLinks = some l ∧
      Entries.lookup m (r.publish batch s.options st).nameLinks = some t ∧
      (r.publish batch s.options st).bindings.lookup l.number =
        some (s.aliasProgram n m number t) := by
  have hr := Reachable.sound h.reachable
  rcases List.mem_append.1 hmem with hmem | hmem
  · obtain ⟨l, t, number, hl, ht, hp⟩ := h.refer hmem
    have hwithin := within_publish hr haccepts
    exact ⟨l, t, number, hwithin.name hl, hwithin.name ht,
      (h.lookup_kept hnew haccepts hmem hl).trans hp⟩
  · obtain ⟨l, t, number, hl, ht, hp⟩ := published_refer hr hbatch haccepts hmem
    refine ⟨l, t, number, hl, ht, hp.trans ?_⟩
    rw [aliasProgram, aliasProgram, ← h.digest]
    rfl

theorem Carries.rule_publish (hall : Standalone s.batch)
    (hspelled : ∀ e ∈ s.batch, Rule.Spelled e.2) (hfresh : s.registered = [])
    (hheld : held ⊆ s.batch) (hsub : batch ⊆ s.batch) {n : String} {v : Value}
    (hmem : (n, v) ∈ held ++ batch) (hv : ∀ m, v ≠ .text m) :
    ∃ flat form l t p, s.Flattens n v flat ∧ s.FormIs flat form ∧
      Entries.lookup n (r.publish batch s.options st).nameLinks = some l ∧
      (r.publish batch s.options st).cache.lookup (SchemaId.of s.digest form s.options) = some t ∧
      (r.publish batch s.options st).bindings.lookup l.number = some p ∧
      (r.publish batch s.options st).bindings.lookup t.number = some p := by
  have hr := Reachable.sound h.reachable
  rcases List.mem_append.1 hmem with hmem | hmem
  · obtain ⟨flat, form, l, t, p, hflat, hform, hl, ht, hp, hpt⟩ := h.rule hmem hv
    have hwithin := within_publish hr haccepts
    exact ⟨flat, form, l, t, p, hflat, hform, hwithin.name hl, hwithin.rule ht,
      (h.lookup_kept hnew haccepts hmem hl).trans hp,
      (lookup_published_rule hr haccepts ht).trans hpt⟩
  · obtain ⟨flat, form, l, t, p, hflat, hform, hl, ht, hp, hpt⟩ :=
      published_rule hr hbatch haccepts hmem hv
    have hpart := h.partOf hheld hsub
    have hoccurs : (r.source batch s.options).Occurs flat s.options := .named hmem hflat
    rw [h.digest] at ht
    exact ⟨flat, form, l, t, p, hall.flattens (.named (hsub hmem)) hflat,
      (hall.formIs_iff hspelled hpart hfresh (hpart.gathers hspelled hoccurs)).1
        (formIs_of_form hform), hl, ht, hp, hpt⟩

omit hbatch hnew in
/-- A name is bound only if its rule is held. -/
theorem Carries.bound_publish {n : String} {l : Link} {p : Program}
    (hl : Entries.lookup n (r.publish batch s.options st).nameLinks = some l)
    (hp : (r.publish batch s.options st).bindings.lookup l.number = some p) :
    n ∈ Entries.keys (held ++ batch) := by
  have hr := Reachable.sound h.reachable
  rw [lookup_nameLinks_publish (hr.accepts trivial haccepts)] at hl
  rw [lookup_publish r batch s.options haccepts.tracked] at hp
  have hkeys : Entries.keys (held ++ batch) = Entries.keys held ++ Entries.keys batch :=
    List.map_append
  rw [hkeys]
  cases hstaged : st.bindings.lookup l.number with
  | some q => exact List.mem_append_right _ (mem_keys_of_staged hr haccepts hl hstaged)
  | none =>
    -- The link is bound, so that it is no new one.
    rw [List.lookup_append, hstaged, Option.none_or] at hp
    have hl' := (hr.start batch s.options).name_of_moves trivial haccepts.moves (k := l.number)
      (p := p) (Linkage.mem_of_lookup hp) hl rfl
    rw [name_start] at hl'
    exact List.mem_append_left _ (h.bound hl' hp)

/-- The registry holds the rules of the next batch as well. -/
theorem Carries.publish (hall : Standalone s.batch)
    (hspelled : ∀ e ∈ s.batch, Rule.Spelled e.2) (hfresh : s.registered = [])
    (hheld : held ⊆ s.batch) (hsub : batch ⊆ s.batch)
    (hreachable : (r.publish batch s.options st).Reachable) :
    (r.publish batch s.options st).Carries s (held ++ batch) where
  reachable := hreachable
  sound := h.sound.publish (h.partOf hheld hsub) haccepts
  coercions := h.coercions
  digest := h.digest
  schemas := h.schemas_publish hbatch hnew
  refer hmem := h.refer_publish hbatch hnew haccepts hmem
  rule hmem hv := h.rule_publish hbatch hnew haccepts hall hspelled hfresh hheld hsub hmem hv
  bound hl hp := h.bound_publish haccepts hl hp
  frugal := by
    have hpart := h.partOf hheld hsub
    have hsound := Reachable.sound h.reachable
    refine .of_agrees (hsound.agrees trivial haccepts) ?_
    refine compileBatch_frugal trivial ?_ haccepts.compile (hsound.start batch s.options) ?_
    · rintro i ⟨n, v, flat, form, hmem, hflat, hform, rfl⟩
      have hoccurs : (r.source batch s.options).Occurs flat s.options := .named hmem hflat
      refine ⟨n, v, flat, form, hsub hmem, hall.flattens (.named (hsub hmem)) hflat,
        (hall.formIs_iff hspelled hpart hfresh (hpart.gathers hspelled hoccurs)).1 hform, ?_⟩
      rw [hpart.digest, hpart.options]
    · rw [linkage_start]
      exact h.frugal

end Step

/-! ## Batches one after the other -/

/-- Register batches one after the other under the same options, with calls followed to a
given depth. -/
def registerAll (r : Registry) (depth : Nat) (parts : List (Entries Value)) (options : Options) :
    Except SchemaError Registry :=
  parts.foldlM (fun r part => r.registerWithin depth (.mapping part) options) r

theorem prepare_append (es fs : Entries Value) (options : Options) :
    prepare (es ++ fs) options = prepare es options ++ prepare fs options := List.map_append

section Whole

variable (hset : Entries.Sorted s.batch) (hall : Standalone s.batch)
  (hspelled : ∀ e ∈ s.batch, Rule.Spelled e.2) (hfresh : s.registered = [])
include hset hall hspelled hfresh

/-- Batches of a set that are accepted one after the other are held together. -/
theorem Carries.registerAll {parts : List (Entries Value)} (h : r.Carries s held)
    (hparts : ∀ part ∈ parts, Entries.Sorted part)
    (hperm : (held ++ prepare parts.flatten s.options).Perm s.batch)
    (hregister : r.registerAll depth parts s.options = .ok r') :
    r'.Carries s (held ++ prepare parts.flatten s.options) := by
  induction parts generalizing r held with
  | nil =>
    obtain rfl : r = r' := Except.ok.inj hregister
    rw [List.flatten_nil, prepare, Entries.mapValues, List.map_nil, List.append_nil]
    exact h
  | cons part parts ih =>
    rw [Registry.registerAll, List.foldlM_cons, Except.bind_eq_ok_iff] at hregister
    obtain ⟨r₁, hpart, hrest⟩ := hregister
    have hreachable : r₁.Reachable := .batch h.reachable trivial hpart
    obtain ⟨st, haccepts, rfl⟩ := registerWithin_eq_ok_iff.1 hpart
    rw [List.flatten_cons, prepare_append, ← List.append_assoc] at hperm ⊢
    have hsub := hperm.subset
    have hnodup : (Entries.keys (held ++ prepare part s.options)).Nodup := by
      have hkeys := (hperm.map Prod.fst).nodup_iff.2 (hset.imp String.ne_of_lt)
      rw [List.map_append] at hkeys
      exact hkeys.of_append_left
    have hnew : ∀ n ∈ Entries.keys (prepare part s.options), n ∉ Entries.keys held := by
      rw [Entries.keys, List.map_append] at hnodup
      exact fun n hn hheld => (List.disjoint_of_nodup_append hnodup) hheld hn
    have hstep := h.publish (prepare_sorted (hparts part (List.mem_cons_self ..)) s.options) hnew
      haccepts hall hspelled hfresh
      (fun e he => hsub (List.mem_append_left _ (List.mem_append_left _ he)))
      (fun e he => hsub (List.mem_append_left _ (List.mem_append_right _ he))) hreachable
    exact ih hstep (fun p hp => hparts p (List.mem_cons_of_mem _ hp)) hperm hrest

end Whole

/-! ## The whole set -/

/-- What a registry holds, as the end of a compilation. -/
def staged (r : Registry) : Staging :=
  { nameLinks := r.nameLinks, cache := r.cache, bindings := r.bindings, nextLink := r.nextLink
    nextProgram := r.nextProgram }

theorem Blank.linkage_staged (h : Blank s) (r : Registry) : s.linkage r.staged = r.linkage := by
  simp only [Source.linkage, links, linkage, staged, h.nameLinks, h.cache, h.bindings,
    Entries.lookup, List.lookup_nil, Option.none_or, List.append_nil]

/-- If the whole set can be compiled, a registry that holds all of it is what another
compilation of the set might have left behind. -/
theorem Carries.complete (h : r.Carries s held) (hperm : held.Perm s.batch) (hblank : Blank s)
    (hall : Standalone s.batch) (hspelled : ∀ e ∈ s.batch, Rule.Spelled e.2)
    (hcheck : SchemaOfSchemas.check depth s.batch = .ok ()) (honce : s.Complete st) :
    s.Complete r.staged := by
  have hlinkage := hblank.linkage_staged r
  have hlinks : s.links r.staged = r.linkage.links := congrArg Linkage.links hlinkage
  have hbound : ∀ l : Link, s.bound r.staged l = r.bindings.lookup l.number := fun l =>
    congrArg (fun L => L.bindings.lookup l.number) hlinkage
  refine {
    sound := ?_, done := rfl, sorted := honce.sorted, fresh := honce.fresh
    refer := ?_, rule := ?_, absent := ?_ }
  · refine ⟨?_, ?_, ?_, ?_, Reachable.sortedNames h.reachable, ?_, ?_⟩
    · rw [hlinkage]
      exact h.sound.numbered
    · rw [hlinkage]
      refine ⟨fun hl => ?_, h.sound.compiled.unbound, .nil⟩
      obtain ⟨p, hp, hbuilt⟩ | ⟨_, htask, -⟩ := h.sound.compiled.built hl
      · exact Or.inl ⟨p, hp, hall.built hspelled hblank.registered hcheck hbuilt⟩
      · cases htask
    · intro task htask
      cases htask
    · intro pair hpair
      cases hpair
    · intro n _
      rw [hblank.nameLinks]
      rfl
    · intro i _
      rw [hblank.cache]
      rfl
  · intro n m hmem
    simp only [hlinks, hbound]
    exact h.refer (hperm.mem_iff.2 hmem)
  · intro n v hmem hv
    obtain ⟨flat, form, l, t, p, hflat, hform, hl, ht, hp, hpt⟩ := h.rule (hperm.mem_iff.2 hmem) hv
    obtain ⟨form', -, -, -, hform', -⟩ := honce.rule_of_flattens hmem hflat
    obtain rfl : form' = form := (formIs_of_form hform').unique hform
    simp only [hlinks, hbound]
    exact ⟨flat, form', l, t, p, hflat, hform', hl, ht, hp, hpt⟩
  · intro n l hlookup hl
    rw [hlinks] at hl
    rw [hbound]
    by_contra hne
    obtain ⟨p, hp⟩ := Option.ne_none_iff_exists'.1 hne
    obtain ⟨e, he, rfl⟩ := List.mem_map.1 (h.bound hl hp)
    rw [lookup, (Entries.lookup_eq_some_iff honce.sorted).2 (hperm.mem_iff.1 he)] at hlookup
    cases hlookup

end Registry
end Rulebook
