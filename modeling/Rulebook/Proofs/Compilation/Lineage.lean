import Rulebook.Proofs.Compilation.SameRules
import Rulebook.Registry

/-!
# What a rule inherits

A rule that names a base is followed by that base, which is followed by its own one, and
so on: the rules are climbed along, nearest first, until one names no base.  Flattening
ends on every chain.  Where it succeeds, each feature has the argument of the nearest rule
that has the feature, and where it does not know a base, that is the first name on the
way that stands for nothing.

One round of the loop climbs to one base.  It lays what was gathered over the features of
the base, so that its next round follows the base's own base; this is why the features that
are gathered behave, as far as the way up is concerned, like the last rule that was reached.
-/

namespace Rulebook
namespace Source

variable (s : Source)

/-! ## The way up -/

/-- What a name stands for: the rule of the batch, and a registered one only where the
batch has none of that name. -/
inductive Defines (name : String) : Value → Prop where
  | batch {v : Value} (h : Entries.lookup name s.batch = some v) : Defines name v
  | registered {v : Value} (hbatch : Entries.lookup name s.batch = none)
      (h : Entries.lookup name s.registered = some v) : Defines name v

/-- From a rule one climbs along the names to the bases, nearest first, and the last rule
that is reached has the given argument, if any, for its own base. -/
inductive Climbs : Entries Value → List String → List (Entries Value) → Option Value → Prop where
  | here (fs : Entries Value) : Climbs fs [] [] (Entries.lookup baseFeature fs)
  | base {fs base : Entries Value} {name : String} {names : List String}
      {bases : List (Entries Value)} {last : Option Value}
      (hname : Entries.lookup baseFeature fs = some (.text name))
      (hbase : s.Defines name (.mapping base)) (hrest : Climbs base names bases last) :
      Climbs fs (name :: names) (base :: bases) last

/-- The argument of the nearest rule that has a feature. -/
def nearestArgument (key : String) (rules : List (Entries Value)) : Option Value :=
  rules.findSome? (Entries.lookup key)

theorem nearestArgument_nil (key : String) : nearestArgument key [] = none := rfl

theorem nearestArgument_cons (key : String) (fs : Entries Value) (rules : List (Entries Value)) :
    nearestArgument key (fs :: rules) =
      (Entries.lookup key fs).or (nearestArgument key rules) := by
  rw [nearestArgument, List.findSome?_cons]
  cases Entries.lookup key fs <;> rfl

/-- The features of every rule with a name are in order. -/
def InOrder : Prop := ∀ name base, s.Defines name (.mapping base) → Entries.Sorted base

variable {s} {label name : String} {names chain : List String} {features all : Entries Value}
  {bases : List (Entries Value)} {last : Option Value}

theorem lookup_eq_some_iff_defines {v : Value} : s.lookup name = some v ↔ s.Defines name v := by
  rw [lookup, Option.or_eq_some_iff]
  constructor
  · rintro (h | ⟨hbatch, h⟩)
    · exact .batch h
    · exact .registered hbatch h
  · rintro (h | ⟨hbatch, h⟩)
    · exact Or.inl h
    · exact Or.inr ⟨hbatch, h⟩

theorem lookup_eq_none_iff_not_defines : s.lookup name = none ↔ ∀ v, ¬ s.Defines name v := by
  simp only [← lookup_eq_some_iff_defines, Option.eq_none_iff_forall_ne_some, ne_eq]

/-- The way up from a rule depends on the name of its base only. -/
theorem Climbs.congr {fs gs : Entries Value} (h : s.Climbs fs names bases last)
    (heq : Entries.lookup baseFeature fs = Entries.lookup baseFeature gs) :
    s.Climbs gs names bases last := by
  cases h with
  | here => exact heq ▸ .here gs
  | base hname hbase hrest => exact .base (heq ▸ hname) hbase hrest

/-- The names on the way up are names of rules. -/
theorem Climbs.subset_names {fs : Entries Value} (h : s.Climbs fs names bases last) :
    names ⊆ s.names := by
  induction h with
  | here => exact List.nil_subset _
  | base _ hbase _ ih =>
    exact List.cons_subset.2 ⟨name_mem_names (lookup_eq_some_iff_defines.2 hbase), ih⟩

/-- A way up that meets no name twice is no longer than there are rules. -/
theorem Climbs.length_le {fs : Entries Value} (h : s.Climbs fs names bases last)
    (hnodup : names.Nodup) : names.length ≤ s.ruleCount :=
  length_names ▸ (List.subperm_of_subset hnodup h.subset_names).length_le

/-! ## One round of the loop -/

/-- Features laid over those of their base. -/
theorem lookup_laid_over (hsorted : Entries.Sorted features) (base : Entries Value) (key : String) :
    Entries.lookup key (Entries.overlay (Entries.erase baseFeature features) base) =
      if baseFeature = key then Entries.lookup key base
      else (Entries.lookup key features).or (Entries.lookup key base) := by
  rw [Entries.lookup_overlay (Entries.sorted_erase hsorted _), Entries.lookup_erase]
  split <;> rfl

theorem lookup_base_laid_over (features base : Entries Value) :
    Entries.lookup baseFeature (Entries.overlay (Entries.erase baseFeature features) base) =
      Entries.lookup baseFeature base :=
  Entries.lookup_overlay_of_not_mem (Entries.not_mem_keys_erase _ _)

theorem flattenFrom_base {fuel : Nat} {base : Entries Value}
    (hname : Entries.lookup baseFeature features = some (.text name)) (hfresh : name ∉ chain)
    (hbase : s.Defines name (.mapping base)) :
    s.flattenFrom label (fuel + 1) chain features =
      s.flattenFrom label fuel (chain ++ [name])
        (Entries.overlay (Entries.erase baseFeature features) base) := by
  simp only [flattenFrom, hname, if_neg hfresh, lookup_eq_some_iff_defines.2 hbase]

theorem flattenFrom_done {fuel : Nat}
    (h : Entries.lookup baseFeature features = none ∨
      Entries.lookup baseFeature features = some .null) :
    s.flattenFrom label (fuel + 1) chain features =
      .ok (Entries.erase baseFeature features) := by
  rcases h with h | h <;> simp only [flattenFrom, h]

theorem flattenFrom_unknown {fuel : Nat}
    (hname : Entries.lookup baseFeature features = some (.text name)) (hfresh : name ∉ chain)
    (hnone : ∀ v, ¬ s.Defines name v) :
    s.flattenFrom label (fuel + 1) chain features = .error (.unknownBase label name) := by
  simp only [flattenFrom, hname, if_neg hfresh, lookup_eq_none_iff_not_defines.2 hnone]

/-! ## All rounds -/

/-- What is gathered after climbing: the arguments of the nearest rules, and the base of the
last one. -/
structure Gathered (rules : List (Entries Value)) (last : Option Value) (all : Entries Value) :
    Prop where
  sorted : Entries.Sorted all
  base : Entries.lookup baseFeature all = last
  nearest : ∀ key, key ≠ baseFeature → Entries.lookup key all = nearestArgument key rules

/-- The loop climbs along a way that meets no name twice. -/
theorem Climbs.run (hrules : s.InOrder) (h : s.Climbs features names bases last)
    (label : String) (hsorted : Entries.Sorted features) (hnodup : (chain ++ names).Nodup)
    (fuel : Nat) :
    ∃ all, Gathered (features :: bases) last all ∧
      s.flattenFrom label (names.length + fuel) chain features =
        s.flattenFrom label fuel (chain ++ names) all := by
  induction names generalizing features bases chain with
  | nil =>
    cases h
    refine ⟨features, ⟨hsorted, rfl, fun key _ => ?_⟩, by simp⟩
    rw [nearestArgument_cons, nearestArgument_nil, Option.or_none]
  | cons name names ih =>
    cases h with
    | @base _ base _ _ bases _ hname hbase hrest =>
      have hfresh : name ∉ chain := fun hmem =>
        (List.nodup_append.1 hnodup).2.2 name hmem name (List.mem_cons_self ..) rfl
      have hlaid := lookup_laid_over hsorted base
      have hclimbs : s.Climbs (Entries.overlay (Entries.erase baseFeature features) base) names
          bases last := hrest.congr (by rw [hlaid, if_pos rfl])
      obtain ⟨all, hall, hrun⟩ := ih hclimbs (Entries.sorted_overlay (hrules _ _ hbase) _)
        (show (chain ++ [name] ++ names).Nodup by
          rwa [List.append_assoc, List.singleton_append])
      refine ⟨all, ⟨hall.sorted, hall.base, fun key hkey => ?_⟩, ?_⟩
      · rw [hall.nearest key hkey, nearestArgument_cons, nearestArgument_cons,
          nearestArgument_cons, hlaid, if_neg (Ne.symm hkey), Option.or_assoc]
      · rw [List.length_cons, Nat.add_right_comm, flattenFrom_base hname hfresh hbase, hrun,
          List.append_assoc, List.singleton_append]

variable (s) in
/-- What the last rule says of its base is not followed: it names no base, or one that was met
before, or one that is no rule with features. -/
def Halts (chain : List String) (last : Option Value) : Prop :=
  ∀ name base, last = some (.text name) → s.Defines name (.mapping base) → name ∈ chain

/-- How the round ends that climbs no further. -/
inductive LastRound (label : String) (chain : List String) (last : Option Value)
    (flat : Entries Value) : Except SchemaError (Entries Value) → Prop where
  | done (hlast : last = none ∨ last = some .null) : LastRound label chain last flat (.ok flat)
  | unknown {name : String} (hlast : last = some (.text name)) (hfresh : name ∉ chain)
      (hnone : ∀ v, ¬ s.Defines name v) :
      LastRound label chain last flat (.error (.unknownBase label name))
  | refused {e : SchemaError} (h : ∀ rule name, e ≠ .unknownBase rule name) :
      LastRound label chain last flat (.error e)

/-- The loop climbs as far as there are bases that were not met before. -/
theorem exists_climbs {fuel : Nat} (hnodup : chain.Nodup)
    (hends : Ends (s.flattenFrom label fuel chain features)) :
    ∃ names bases last rest, s.Climbs features names bases last ∧ (chain ++ names).Nodup ∧
      fuel = names.length + (rest + 1) ∧ s.Halts (chain ++ names) last := by
  induction fuel generalizing chain features with
  | zero => exact absurd rfl (hends label)
  | succ fuel ih =>
    by_cases hgoes : ∃ name base, Entries.lookup baseFeature features = some (.text name) ∧
        s.Defines name (.mapping base) ∧ name ∉ chain
    · obtain ⟨name, base, hname, hbase, hfresh⟩ := hgoes
      rw [flattenFrom_base hname hfresh hbase] at hends
      have hnext : (chain ++ [name]).Nodup :=
        List.nodup_append.2 ⟨hnodup, List.nodup_singleton _, fun a ha b hb heq =>
          hfresh (List.mem_singleton.1 hb ▸ heq ▸ ha)⟩
      obtain ⟨names, bases, last, rest, hclimbs, hall, hfuel, hhalts⟩ := ih hnext hends
      rw [List.append_assoc, List.singleton_append] at hall hhalts
      refine ⟨name :: names, base :: bases, last, rest, .base hname hbase ?_, hall, ?_, hhalts⟩
      · exact hclimbs.congr (lookup_base_laid_over features base)
      · rw [hfuel, List.length_cons]
        omega
    · refine ⟨[], [], _, fuel, .here features, by rwa [List.append_nil], ?_, ?_⟩
      · rw [List.length_nil, Nat.zero_add]
      · intro name base hname hbase
        rw [List.append_nil]
        by_contra hfresh
        exact hgoes ⟨name, base, hname, hbase, hfresh⟩

theorem lastRound_of_halts (fuel : Nat)
    (h : s.Halts chain (Entries.lookup baseFeature features)) :
    s.LastRound label chain (Entries.lookup baseFeature features)
      (Entries.erase baseFeature features) (s.flattenFrom label (fuel + 1) chain features) := by
  rw [flattenFrom]
  split
  · rename_i hlast
    exact .done (Or.inl hlast)
  · rename_i hlast
    exact .done (Or.inr hlast)
  · rename_i name hname
    split
    · exact .refused fun _ _ heq => by cases heq
    · rename_i hfresh
      split
      · rename_i base hbase
        exact absurd (h name base hname (lookup_eq_some_iff_defines.1 hbase)) hfresh
      · exact .refused fun _ _ heq => by cases heq
      · rename_i hnone
        exact .unknown hname hfresh (lookup_eq_none_iff_not_defines.1 hnone)
  · exact .refused fun _ _ heq => by cases heq

/-! ## Flattening -/

/-- A way up along names that differ from each other and from the label is climbed. -/
theorem Climbs.flatten (hrules : s.InOrder) (h : s.Climbs features names bases last)
    (hsorted : Entries.Sorted features) (hnodup : (label :: names).Nodup) :
    ∃ all fuel, Gathered (features :: bases) last all ∧
      s.flatten features label = s.flattenFrom label (fuel + 1) (label :: names) all := by
  have hlength := h.length_le (List.nodup_cons.1 hnodup).2
  obtain ⟨all, hall, hrun⟩ :=
    h.run hrules label hsorted (show ([label] ++ names).Nodup from hnodup)
      (s.ruleCount + 2 - names.length)
  rw [Nat.add_sub_cancel' (by omega)] at hrun
  refine ⟨all, s.ruleCount + 1 - names.length, hall, ?_⟩
  rw [Source.flatten, hrun, List.singleton_append]
  congr 1
  omega

/-- Flattening climbs along names that differ from each other and from the label, and its outcome
is that of the round after them. -/
theorem exists_lastRound (hrules : s.InOrder) (hsorted : Entries.Sorted features) (label : String) :
    ∃ names bases last all, s.Climbs features names bases last ∧ (label :: names).Nodup ∧
      Gathered (features :: bases) last all ∧
      s.LastRound label (label :: names) last (Entries.erase baseFeature all)
        (s.flatten features label) := by
  obtain ⟨names, bases, last, rest, hclimbs, hnodup, -, hhalts⟩ :=
    exists_climbs (List.nodup_singleton label) (ends_flatten features label)
  obtain ⟨all, fuel, hall, hflatten⟩ := hclimbs.flatten hrules hsorted hnodup
  refine ⟨names, bases, last, all, hclimbs, hnodup, hall, ?_⟩
  rw [hflatten, ← hall.base]
  exact lastRound_of_halts fuel (hall.base.symm ▸ hhalts)

/-- What was gathered, without the base. -/
theorem Gathered.flat (h : Gathered (features :: bases) last all) :
    Entries.Sorted (Entries.erase baseFeature all) ∧
      Entries.lookup baseFeature (Entries.erase baseFeature all) = none ∧
      ∀ key, key ≠ baseFeature → Entries.lookup key (Entries.erase baseFeature all) =
        nearestArgument key (features :: bases) := by
  refine ⟨Entries.sorted_erase h.sorted _, ?_, fun key hkey => ?_⟩
  · rw [Entries.lookup_erase, if_pos rfl]
  · rw [Entries.lookup_erase, if_neg (Ne.symm hkey), h.nearest key hkey]

/-- Flattening ends.  It succeeds with the features of a way up to a rule without a base, each
with the argument of the nearest rule that has it, and a base is unknown where the way up comes
to a name that stands for nothing. -/
theorem flatten_takes_nearest (hrules : s.InOrder) (hsorted : Entries.Sorted features)
    (label : String) :
    (∀ fuel, s.ruleCount + 2 ≤ fuel →
        s.flattenFrom label fuel [label] features = s.flatten features label) ∧
      Ends (s.flatten features label) ∧
      (∀ flat, s.flatten features label = .ok flat ↔
        ∃ names bases last, s.Climbs features names bases last ∧
          (last = none ∨ last = some .null) ∧ (label :: names).Nodup ∧ Entries.Sorted flat ∧
          Entries.lookup baseFeature flat = none ∧
          ∀ key, key ≠ baseFeature →
            Entries.lookup key flat = nearestArgument key (features :: bases)) ∧
      ∀ rule name, s.flatten features label = .error (.unknownBase rule name) ↔
        rule = label ∧ ∃ names bases, s.Climbs features names bases (some (.text name)) ∧
          (label :: names ++ [name]).Nodup ∧ ∀ v, ¬ s.Defines name v := by
  obtain ⟨names, bases, last, all, hclimbs, hnodup, hall, hround⟩ :=
    exists_lastRound hrules hsorted label
  refine ⟨fun fuel hfuel => ?_, ends_flatten features label, fun flat => ⟨fun h => ?_, ?_⟩,
    fun rule name => ⟨fun h => ?_, ?_⟩⟩
  · exact ((flattenFrom_goesOn hfuel _ _).eq_of_ends (ends_flatten features label)).symm
  · rw [h] at hround
    cases hround with
    | done hlast =>
      obtain ⟨hflat, hbase, hnearest⟩ := hall.flat
      exact ⟨names, bases, last, hclimbs, hlast, hnodup, hflat, hbase, hnearest⟩
  · rintro ⟨names, bases, last, hclimbs, hlast, hnodup, hflat, hbase, hnearest⟩
    obtain ⟨all, fuel, hall, hflatten⟩ := hclimbs.flatten hrules hsorted hnodup
    rw [hflatten, flattenFrom_done (hall.base.symm ▸ hlast)]
    obtain ⟨hflat', hbase', hnearest'⟩ := hall.flat
    congr 1
    refine Entries.eq_of_lookup_eq hflat' hflat fun key => ?_
    by_cases hkey : key = baseFeature
    · rw [hkey, hbase, hbase']
    · rw [hnearest key hkey, hnearest' key hkey]
  · rw [h] at hround
    cases hround with
    | unknown hlast hfresh hnone =>
      refine ⟨rfl, names, bases, hlast ▸ hclimbs, ?_, hnone⟩
      exact List.nodup_append.2 ⟨hnodup, List.nodup_singleton _, fun a ha b hb heq =>
        hfresh (List.mem_singleton.1 hb ▸ heq ▸ ha)⟩
    | refused hne => exact absurd rfl (hne rule name)
  · rintro ⟨rfl, names, bases, hclimbs, hnodup, hnone⟩
    obtain ⟨hdistinct, -, hfresh⟩ := List.nodup_append.1 hnodup
    obtain ⟨all, fuel, hall, hflatten⟩ := hclimbs.flatten hrules hsorted hdistinct
    rw [hflatten]
    exact flattenFrom_unknown hall.base
      (fun hmem => hfresh name hmem name (List.mem_singleton_self name) rfl) hnone

/-- Rules of a batch and registered ones.  The rule of the batch named `mid` hides the registered
one of that name. -/
def heirs : Source :=
  ({ Registry.empty {} ⟨[]⟩ id with
      schemas :=
        [("base", ⟨.mapping [("max", .text "m"), ("min", .text "a"), ("type", .text "str")], {}⟩),
          ("mid", ⟨.mapping [("max", .text "z")], {}⟩)] } : Registry).source
    [("leaf", .mapping [("min", .text "e"), ("rules", .text "mid")]),
      ("mid", .mapping [("max", .null), ("rules", .text "base")])] {}

theorem heirs_inOrder : heirs.InOrder := by
  intro name base h
  have hmem := mem_of_lookup (lookup_eq_some_iff_defines.2 h)
  simp only [heirs, Registry.source, Registry.empty, Entries.mapValues, List.map_cons, List.map_nil,
    List.cons_append, List.nil_append, List.mem_cons, List.not_mem_nil, or_false, Prod.mk.injEq,
    Value.mapping.injEq] at hmem
  rcases hmem with ⟨-, rfl⟩ | ⟨-, rfl⟩ | ⟨-, rfl⟩ | ⟨-, rfl⟩
  all_goals
    rw [Entries.Sorted]
    decide +kernel

/-- The null of the nearer rule counts, and the registered rule that is hidden does not.  A base
that nothing defines is named. -/
theorem flatten_takes_nearest_leaf :
    heirs.flatten [("min", .text "e"), ("rules", .text "mid")] "leaf" =
        .ok [("max", .null), ("min", .text "e"), ("type", .text "str")] ∧
      heirs.flatten [("rules", .text "lost")] "stray" = .error (.unknownBase "stray" "lost") := by
  have hleaf : Entries.Sorted [("min", Value.text "e"), ("rules", .text "mid")] := by
    rw [Entries.Sorted]
    decide +kernel
  have hstray : Entries.Sorted [("rules", Value.text "lost")] := by
    rw [Entries.Sorted]
    decide +kernel
  constructor
  · obtain ⟨-, -, hok, -⟩ := flatten_takes_nearest heirs_inOrder hleaf "leaf"
    have hclimbs : heirs.Climbs [("min", .text "e"), ("rules", .text "mid")] ["mid", "base"]
        [[("max", .null), ("rules", .text "base")],
          [("max", .text "m"), ("min", .text "a"), ("type", .text "str")]] none :=
      .base rfl (.batch rfl) (.base rfl (.registered rfl rfl) (.here _))
    refine (hok _).2 ⟨_, _, _, hclimbs, Or.inl rfl, by decide +kernel, ?_, rfl, fun key hkey => ?_⟩
    · rw [Entries.Sorted]
      decide +kernel
    · have hbase : ¬ "rules" = key := fun heq => hkey heq.symm
      simp only [nearestArgument_cons, nearestArgument_nil, Entries.lookup, if_neg hbase]
      by_cases hmin : "min" = key
      · subst hmin
        rfl
      · simp only [if_neg hmin]
        split_ifs <;> rfl
  · obtain ⟨-, -, -, hunknown⟩ := flatten_takes_nearest heirs_inOrder hstray "stray"
    have hclimbs : heirs.Climbs [("rules", .text "lost")] [] [] (some (.text "lost")) := .here _
    refine (hunknown _ _).2 ⟨rfl, _, _, hclimbs, by decide +kernel, fun v hv => ?_⟩
    have hnone : heirs.lookup "lost" = none := by decide +kernel
    rw [lookup_eq_some_iff_defines.2 hv] at hnone
    cases hnone

end Source
end Rulebook
