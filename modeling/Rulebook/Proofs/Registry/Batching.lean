import Rulebook.Proofs.Interpretation.Identities
import Rulebook.Proofs.Registry.Meaning
import Rulebook.Proofs.Registry.Parts

/-!
# Sets of schemas in several batches

Names are bound late: a rule that names another finds whatever is registered under that name
when a value is checked.  So a set of schemas in which each rule comes to the same by itself
may be split into batches, in any order.  Both registries are followed as the set is
interpreted, and both caches hold the identities that the rules of the set call for.
-/

namespace Rulebook
namespace Registry

open Source

variable {r r' : Registry} {s : Source} {held : Entries Value} {options : Options}

/-! ## Registries that hold the same set -/

/-- Two registries have the same schemas and identities, and their schemas of one name
answer alike. -/
structure Alike (r r' : Registry) : Prop where
  names : r.names = r'.names
  artifactCount : r.artifactCount = r'.artifactCount
  cached : (r.cache.map Prod.fst).Perm (r'.cache.map Prod.fst)
  handles : ∀ n ∈ r.names, ∃ handle handle', r.get? n = some handle ∧ r'.get? n = some handle'
  identity : ∀ n handle handle', r.get? n = some handle → r'.get? n = some handle' →
    r.identity? handle = r'.identity? handle'
  followed : ∀ n handle handle', r.get? n = some handle → r'.get? n = some handle' →
    ∀ context depth value, follow r.bindings context depth [] handle.link value =
      follow r'.bindings context depth [] handle'.link value
  validate : ∀ n handle handle', r.get? n = some handle → r'.get? n = some handle' →
    ∀ value context, r.validate handle value context = r'.validate handle' value context

/-- The identity under which a named rule of a source is registered. -/
inductive Bears (s : Source) (n : String) : Value → SchemaId → Prop where
  | refer (m : String) : Bears s n (.text m) (SchemaId.of s.digest (.text m) s.options)
  | rule {v : Value} {flat : Entries Value} {form : Value} (hflat : s.Flattens n v flat)
      (hform : s.FormIs flat form) : Bears s n v (SchemaId.of s.digest form s.options)

theorem Bears.unique {n : String} {v : Value} {i j : SchemaId} (h : Bears s n v i)
    (h' : Bears s n v j) : i = j := by
  cases h with
  | refer m =>
    cases h' with
    | refer => rfl
    | rule hflat' _ => cases hflat'
  | rule hflat hform =>
    cases h' with
    | refer m => cases hflat
    | rule hflat' hform' =>
      rw [hflat'.unique hflat] at hform'
      rw [hform'.unique hform]

theorem Carries.exists_identity (h : r.Carries s held) {n : String} {v : Value}
    (hmem : (n, v) ∈ held) {handle : Validator} (hget : r.get? n = some handle) :
    ∃ i, Bears s n v i ∧ r.identity? handle = some i := by
  obtain ⟨-, hlink, -⟩ := get?_eq_some_iff.1 hget
  rw [identity?, program?]
  by_cases htext : ∃ m, v = .text m
  · obtain ⟨m, rfl⟩ := htext
    obtain ⟨l, t, number, hl, -, hp⟩ := h.refer hmem
    obtain rfl : l = handle.link := Option.some.inj (hl.symm.trans hlink)
    refine ⟨_, .refer m, ?_⟩
    rw [hp]
    rfl
  · obtain ⟨flat, form, l, t, p, hflat, hform, hl, ht, hp, hpt⟩ := h.rule hmem (not_exists.1 htext)
    obtain rfl : l = handle.link := Option.some.inj (hl.symm.trans hlink)
    obtain ⟨q, hq, hid⟩ := h.reachable.cached (Linkage.mem_of_lookup ht)
    obtain rfl : p = q := Option.some.inj (hpt.symm.trans hq)
    refine ⟨_, .rule hflat hform, ?_⟩
    rw [hp, Option.map_some, hid]

section Same

variable {held' : Entries Value} (h : r.Carries s held) (h' : r'.Carries s held')
  (hperm : held.Perm s.batch) (hperm' : held'.Perm s.batch)
include h h' hperm hperm'

theorem Carries.schemas_eq : r.schemas = r'.schemas := by
  refine Entries.eq_of_lookup_eq (Reachable.sorted h.reachable) (Reachable.sorted h'.reachable) ?_
  intro n
  refine Option.ext fun e => ?_
  rw [h.schemas, h'.schemas, hperm.mem_iff, hperm'.mem_iff]

theorem Carries.identity_eq {n : String} {handle handle' : Validator}
    (hget : r.get? n = some handle) (hget' : r'.get? n = some handle') :
    r.identity? handle = r'.identity? handle' := by
  obtain ⟨hcontains, -, -⟩ := get?_eq_some_iff.1 hget
  obtain ⟨e, he⟩ := Option.isSome_iff_exists.1 hcontains
  have hmem := ((h.schemas n e).1 he).1
  obtain ⟨i, hi, hid⟩ := h.exists_identity hmem hget
  obtain ⟨j, hj, hid'⟩ := h'.exists_identity (hperm'.mem_iff.2 (hperm.mem_iff.1 hmem)) hget'
  rw [hid, hid', hi.unique hj]

end Same

/-- Identities that are cached in a registry with the whole set are cached in every other
one. -/
theorem Carries.cached_subset (h : r.Carries s held) (hblank : Blank s)
    (hcomplete : s.Complete r.staged) (hcomplete' : s.Complete r'.staged)
    (hidentified : s.Identified)
    (hplain : ∀ {features options}, s.Occurs features options → s.PlainEntries features) :
    r.cache.map Prod.fst ⊆ r'.cache.map Prod.fst := by
  intro _ hi
  obtain ⟨⟨i, l⟩, hmem, rfl⟩ := List.mem_map.1 hi
  have hneeded : (s.linkage r.staged).Needed s.Heads i := by
    rw [hblank.linkage_staged]
    exact h.frugal i l ((Reachable.distinctRules h.reachable).lookup_of_mem hmem)
  obtain ⟨l', hl'⟩ := hcomplete.rule_of_needed hcomplete' hidentified hplain hneeded
  have hlookup : r'.cache.lookup i = some l' := by
    rw [← hl', links, hblank.cache]
    rfl
  exact List.mem_map.2 ⟨_, Linkage.mem_of_lookup hlookup, rfl⟩

/-- Every registered name has a handle. -/
theorem Reachable.exists_handle (hr : r.Reachable) {n : String} (hn : n ∈ r.names) :
    ∃ handle, r.get? n = some handle := by
  obtain ⟨⟨n, e⟩, he, rfl⟩ := List.mem_map.1 hn
  have hcontains : r.contains n = true := by
    rw [contains, Entries.hasKey, (Entries.lookup_eq_some_iff hr.sorted).2 he]
    rfl
  obtain ⟨l, hl, -⟩ := hr.named hcontains
  exact ⟨⟨n, l⟩, get?_eq_some_iff.2 ⟨hcontains, hl, rfl⟩⟩

theorem nodup_cached (hr : r.Reachable) : (r.cache.map Prod.fst).Nodup :=
  List.pairwise_map.2 (Reachable.distinctRules hr)

/-- Registries that hold all of one set are alike. -/
theorem Carries.alike {held' : Entries Value} (h : r.Carries s held) (h' : r'.Carries s held')
    (hperm : held.Perm s.batch) (hperm' : held'.Perm s.batch) (hblank : Blank s)
    (hcomplete : s.Complete r.staged) (hcomplete' : s.Complete r'.staged)
    (hidentified : s.Identified)
    (hplain : ∀ {features options}, s.Occurs features options → s.PlainEntries features)
    (hbreak : s.options.breakLoops = true) : r.Alike r' := by
  have hschemas := h.schemas_eq h' hperm hperm'
  have hcached : (r.cache.map Prod.fst).Perm (r'.cache.map Prod.fst) := by
    refine (List.perm_ext_iff_of_nodup (nodup_cached h.reachable) (nodup_cached h'.reachable)).2 ?_
    intro i
    exact ⟨fun hi => h.cached_subset hblank hcomplete hcomplete' hidentified hplain hi,
      fun hi => h'.cached_subset hblank hcomplete' hcomplete hidentified hplain hi⟩
  -- A schema is followed as its name is interpreted in the set.
  have hfollow : ∀ {q : Registry}, s.Complete q.staged → ∀ {n handle}, q.get? n = some handle →
      ∀ context depth value, follow q.bindings context depth [] handle.link value =
        s.interpret context depth [] (.name n) value := by
    intro q hq n handle hget context depth value
    obtain ⟨-, hl, -⟩ := get?_eq_some_iff.1 hget
    have hname : (s.links q.staged).name n = some handle.link := by
      rw [← hl, links, hblank.nameLinks]
      rfl
    have hinterpret := hq.follow_eq_interpret hidentified hplain hbreak context depth .nil
      (.name hname) value
    rw [hblank.bindings, List.append_nil] at hinterpret
    exact hinterpret
  have hfollowed : ∀ n handle handle', r.get? n = some handle → r'.get? n = some handle' →
      ∀ context depth value, follow r.bindings context depth [] handle.link value =
        follow r'.bindings context depth [] handle'.link value := by
    intro n handle handle' hget hget' context depth value
    rw [hfollow hcomplete hget, hfollow hcomplete' hget']
  refine {
    names := ?names, artifactCount := ?artifactCount, cached := hcached, handles := ?handles
    identity := ?identity, followed := hfollowed, validate := ?validate }
  case names => rw [names, names, hschemas]
  case artifactCount =>
    have hlength := hcached.length_eq
    rw [List.length_map, List.length_map] at hlength
    exact hlength
  case handles =>
    intro n hn
    obtain ⟨handle, hget⟩ := Reachable.exists_handle h.reachable hn
    rw [names, hschemas] at hn
    obtain ⟨handle', hget'⟩ := Reachable.exists_handle h'.reachable hn
    exact ⟨handle, handle', hget, hget'⟩
  case identity => exact fun n handle handle' => h.identity_eq h' hperm hperm'
  case validate =>
    intro n handle handle' hget hget' value context
    exact congrArg ExceptT.run (hfollowed n handle handle' hget hget' context depthLimit value)

/-- A set of schemas in which each rule stands by itself may be registered in any number of
batches and in any order, whatever depths the parts and the whole are checked to: the registry
is like the one with the whole set at once. -/
theorem alike_of_parts {base : Options} {coercions : CoercionTable} {digest : Digest}
    {set : Entries Value} {parts : List (Entries Value)} {depth depth' : Nat} {r₁ r₂ : Registry}
    (hset : Entries.Sorted set) (hparts : ∀ part ∈ parts, Entries.Sorted part)
    (hperm : parts.flatten.Perm set) (hbreak : options.breakLoops = true)
    (hvalidate : options.validateSchemas = true) (hall : Standalone (prepare set options))
    (hidentified : ((Registry.empty base coercions digest).source (prepare set options)
      options).Identified)
    (hregister : (Registry.empty base coercions digest).registerAll depth parts options = .ok r₁)
    (honce : (Registry.empty base coercions digest).registerWithin depth' (.mapping set) options =
      .ok r₂) :
    r₁.Alike r₂ := by
  have hblank := blank_source base coercions digest (prepare set options) options
  have hempty := carries_empty (s := (Registry.empty base coercions digest).source
    (prepare set options) options) base coercions digest rfl rfl
  have hbatch := prepare_sorted hset options
  have hspelled : ∀ e ∈ prepare set options, Rule.Spelled e.2 := fun e he =>
    spelled_of_mem_prepare he
  obtain ⟨st, haccepts, -⟩ := registerWithin_eq_ok_iff.1 honce
  have hcheck := haccepts.check hvalidate
  have honce' : (Registry.empty base coercions digest).registerAll depth' [set] options =
      .ok r₂ := by
    rw [registerAll, List.foldlM_cons, honce]
    rfl
  have hperm₁ : (prepare parts.flatten options).Perm (prepare set options) := hperm.map _
  have hperm₂ : (prepare [set].flatten options).Perm (prepare set options) := by
    rw [List.flatten_singleton]
  have h₁ := hempty.registerAll hbatch hall hspelled rfl hparts hperm₁ hregister
  have h₂ := hempty.registerAll hbatch hall hspelled rfl (List.forall_mem_singleton.2 hset) hperm₂
    honce'
  have hcomplete := (bare_empty base coercions digest).complete hbatch haccepts
  exact h₁.alike h₂ hperm₁ hperm₂ hblank
    (h₁.complete hperm₁ hblank hall hspelled hcheck hcomplete)
    (h₂.complete hperm₂ hblank hall hspelled hcheck hcomplete) hidentified
    (fun hoccurs => hoccurs.plainEntries hspelled rfl hcheck) hbreak

/-- What is said of a weight. -/
def weightFeatures : Entries Value := [("type", .text "int")]

/-- A rule for what comes from something of another rule, and has a weight. -/
def fromFeatures (other : String) : Entries Value :=
  [("items", .mapping [("from", .text other), ("weight", .mapping weightFeatures)]),
    ("type", .text "dict")]

/-- Rules for eggs and for hens, which come from each other. -/
def farmRules : Entries Value :=
  [("egg", .mapping (fromFeatures "hen")), ("hen", .mapping (fromFeatures "egg"))]

/-- What both rules are compiled from, if they are registered at once. -/
def farm : Source := (Registry.empty {} ⟨[]⟩ id).source (prepare farmRules {}) {}

/-- The features of the rules for the farm. -/
inductive FarmFeatures : Entries Value → Prop where
  | weight : FarmFeatures weightFeatures
  | origin (other : String) (h : other = "egg" ∨ other = "hen") : FarmFeatures (fromFeatures other)

theorem inside_farm {features : Entries Value} {v : Value} (hfeatures : FarmFeatures features)
    (h : Rule.Inside features v) : (∃ other, v = .text other) ∨ v = .mapping weightFeatures := by
  cases hfeatures with
  | weight =>
    rcases h with ⟨rfl | rfl, hlookup, -⟩ | ⟨rfl | rfl, hlookup⟩ | ⟨rfl | rfl, hlookup, -⟩ <;>
      cases hlookup
  | origin other =>
    rcases h with ⟨rfl | rfl, hlookup, hmem⟩ | ⟨rfl | rfl, hlookup⟩ | ⟨rfl | rfl, hlookup, -⟩
    · cases hlookup
      rcases List.mem_pair.1 hmem with hmem | hmem
      · exact Or.inl ⟨other, congrArg Prod.snd hmem⟩
      · exact Or.inr (congrArg Prod.snd hmem)
    all_goals cases hlookup

theorem part_farm {v : Value} (h : Rule.Part farmRules v) :
    (∃ other, v = .text other) ∨ ∃ features, v = .mapping features ∧ FarmFeatures features := by
  induction h with
  | named hmem =>
    rcases List.mem_pair.1 hmem with hmem | hmem
    · exact Or.inr ⟨_, congrArg Prod.snd hmem, .origin _ (Or.inr rfl)⟩
    · exact Or.inr ⟨_, congrArg Prod.snd hmem, .origin _ (Or.inl rfl)⟩
  | inner _ hinside ih =>
    obtain ⟨_, hother⟩ | ⟨features, heq, hfeatures⟩ := ih
    · cases hother
    · cases heq
      rcases inside_farm hfeatures hinside with hother | rfl
      · exact Or.inl hother
      · exact Or.inr ⟨_, rfl, .weight⟩

theorem standalone_farm : Standalone (prepare farmRules {}) where
  bare fs hfs := by
    obtain ⟨_, hother⟩ | ⟨features, heq, hfeatures⟩ := part_farm hfs
    · cases hother
    · cases heq
      cases hfeatures <;> exact Or.inl rfl
  silent fs n gs _ _ hmem := by
    rcases List.mem_pair.1 hmem with hmem | hmem <;> cases hmem <;> decide

theorem farm_occurs {features : Entries Value} {options' : Options}
    (h : farm.Occurs features options') : options' = {} ∧ FarmFeatures features := by
  induction h with
  | named hmem hflat =>
    rcases List.mem_pair.1 hmem with hmem | hmem <;> cases hmem <;> cases hflat with
    | mapping h =>
      rw [← Except.ok.inj h]
      exact ⟨rfl, .origin _ (by decide)⟩
  | inner _ hread hmem hflat ih =>
    obtain ⟨rfl, hfeatures⟩ := ih
    obtain ⟨⟨fs, rfl, hfs⟩, -⟩ := hflat
    obtain ⟨_, hother⟩ | hweight := inside_farm hfeatures (Rule.inside_of_subRule hread hmem)
    · cases hother
    · cases hweight
      rw [← Except.ok.inj hfs]
      refine ⟨?_, .weight⟩
      cases hfeatures <;> rw [← Option.some.inj hread] <;> rfl

/-- The form of a rule for what comes from something of another rule. -/
def fromForm (other : String) : Value :=
  .mapping [("items", .mapping [("from", .mapping [(entryTaken, .mapping []),
    (entryName, .text other)]), ("weight", .mapping weightFeatures)]), ("type", .text "dict")]

theorem farm_form {features : Entries Value} {form : Value} (h : FarmFeatures features)
    (hform : farm.FormIs features form) :
    form ∈ [.mapping weightFeatures, fromForm "egg", fromForm "hen"] := by
  cases h with
  | weight =>
    have hweight : farm.FormIs weightFeatures (.mapping weightFeatures) := ⟨3, rfl⟩
    rw [hform.unique hweight]
    decide
  | origin other hother =>
    have hfrom : farm.FormIs (fromFeatures other) (fromForm other) := by
      rcases hother with rfl | rfl <;> exact ⟨3, rfl⟩
    rw [hform.unique hfrom]
    rcases hother with rfl | rfl <;> decide

theorem farm_identified : farm.Identified := by
  have hdistinct : ∀ f ∈ [.mapping weightFeatures, fromForm "egg", fromForm "hen"],
      ∀ g ∈ [.mapping weightFeatures, fromForm "egg", fromForm "hen"],
        SchemaId.of id f {} = SchemaId.of id g {} → f = g := by
    decide +kernel
  refine identified_of_forms (fun h hform => ?_) hdistinct
  obtain ⟨hoptions, hfeatures⟩ := farm_occurs h
  exact ⟨hoptions, farm_form hfeatures hform⟩

/-- The rules of the farm, one by one, that for hens first. -/
def farmParts : List (Entries Value) :=
  [[("hen", .mapping (fromFeatures "egg"))], [("egg", .mapping (fromFeatures "hen"))]]

set_option maxRecDepth 100000 in
/-- Rules for eggs and hens are registered one by one as they are at once. -/
theorem farm_alike : ∃ r₁ r₂,
    (Registry.empty {} ⟨[]⟩ id).registerAll depthLimit farmParts {} = .ok r₁ ∧
      (Registry.empty {} ⟨[]⟩ id).registerWith (.mapping farmRules) {} = .ok r₂ ∧
      r₁.Alike r₂ := by
  have hparts : ((Registry.empty {} ⟨[]⟩ id).registerAll depthLimit farmParts {}).toBool =
      true := by
    decide +kernel
  have honce : ((Registry.empty {} ⟨[]⟩ id).registerWith (.mapping farmRules) {}).toBool =
      true := by
    decide +kernel
  have hregister := eq_ok_of_toBool hparts (Registry.empty {} ⟨[]⟩ id)
  have honce' := eq_ok_of_toBool honce (Registry.empty {} ⟨[]⟩ id)
  have hset : Entries.Sorted farmRules := by
    change ["egg", "hen"].Pairwise (· < ·)
    decide
  have hsorted : ∀ part ∈ farmParts, Entries.Sorted part := by
    intro part hpart
    rcases List.mem_pair.1 hpart with rfl | rfl <;> exact List.pairwise_singleton _ _
  refine ⟨_, _, hregister, honce', ?_⟩
  exact alike_of_parts hset hsorted (List.Perm.swap _ _ _) rfl rfl standalone_farm farm_identified
    hregister honce'

end Registry
end Rulebook
