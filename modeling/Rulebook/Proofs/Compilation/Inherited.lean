import Rulebook.Proofs.Compilation.SameForm
import Rulebook.Proofs.Registry.SchemaOfSchemas

/-!
# Where flattened features come from

Each feature of a flattened rule stands in some rule of the batch, the rule itself
or one it inherits from.  So what is known of all rules of a batch is known of
the flattened ones; in particular no rule of a checked batch has a key by which
the form of a named entry is known.
-/

namespace Rulebook
namespace Source

open Rule

variable {s : Source}

/-! ## Features gathered along a chain -/

/-- Features that stand in rules with a property. -/
structure Gathers (P : Value → Prop) (features : Entries Value) : Prop where
  sorted : Entries.Sorted features
  stands : ∀ key v, Entries.lookup key features = some v →
    ∃ fs, P (.mapping fs) ∧ Entries.lookup key fs = some v

variable {P : Value → Prop} {features flat : Entries Value}

theorem gathers_nil : Gathers P [] := by
  refine ⟨Entries.sorted_nil, ?_⟩
  intro key v h
  cases h

/-- The features of a rule with the property stand in it. -/
theorem gathers_of {fs : Entries Value} (hsorted : Entries.Sorted fs) (h : P (.mapping fs)) :
    Gathers P fs :=
  ⟨hsorted, fun _ _ hlookup => ⟨fs, h, hlookup⟩⟩

theorem Gathers.erase (h : Gathers P features) (key : String) :
    Gathers P (Entries.erase key features) := by
  refine ⟨Entries.sorted_erase h.sorted _, ?_⟩
  intro key' v hlookup
  rw [Entries.lookup_erase] at hlookup
  split at hlookup
  · cases hlookup
  · exact h.stands key' v hlookup

theorem Gathers.overlay {base : Entries Value} (h : Gathers P features) (hbase : Gathers P base) :
    Gathers P (Entries.overlay features base) := by
  refine ⟨Entries.sorted_overlay hbase.sorted _, ?_⟩
  intro key v hlookup
  rw [Entries.lookup_overlay h.sorted, Option.or_eq_some_iff] at hlookup
  rcases hlookup with hlookup | ⟨-, hlookup⟩
  · exact h.stands key v hlookup
  · exact hbase.stands key v hlookup

/-- A rule inside gathered features is inside a rule with the property. -/
theorem Gathers.inside (h : Gathers P features) {v : Value} (hv : Inside features v) :
    ∃ fs, P (.mapping fs) ∧ Inside fs v := by
  cases hv with
  | entry hkey hlookup hmem =>
    obtain ⟨fs, hfs, hlookup⟩ := h.stands _ _ hlookup
    exact ⟨fs, hfs, .entry hkey hlookup hmem⟩
  | argument hkey hlookup =>
    obtain ⟨fs, hfs, hlookup⟩ := h.stands _ _ hlookup
    exact ⟨fs, hfs, .argument hkey hlookup⟩
  | branch hkey hlookup hmem =>
    obtain ⟨fs, hfs, hlookup⟩ := h.stands _ _ hlookup
    exact ⟨fs, hfs, .branch hkey hlookup hmem⟩

variable (s P) in
/-- A property of the rules of a batch that is passed on to the rules inside a rule and
to the one it inherits from. -/
structure Closed : Prop where
  named : ∀ n v, (n, v) ∈ s.batch → P v
  inner : ∀ fs v, P (.mapping fs) → Inside fs v → P v
  base : ∀ fs name base, P (.mapping fs) → Entries.lookup baseFeature fs = some (.text name) →
    s.lookup name = some (.mapping base) → P (.mapping base)
  sorted : ∀ fs, P (.mapping fs) → Entries.Sorted fs

/-- What is inherited from rules with the property is gathered from them. -/
theorem Gathers.flattenFrom {label : String} {fuel : Nat} {chain : List String}
    (hsorted : ∀ fs, P (.mapping fs) → Entries.Sorted fs)
    (hbase : ∀ fs name base, P (.mapping fs) → Entries.lookup baseFeature fs = some (.text name) →
      s.lookup name = some (.mapping base) → P (.mapping base))
    (h : Gathers P features) (hflat : s.flattenFrom label fuel chain features = .ok flat) :
    Gathers P flat := by
  induction fuel generalizing chain features with
  | zero => cases hflat
  | succ fuel ih =>
    rw [Source.flattenFrom] at hflat
    split at hflat
    · rw [← Except.ok.inj hflat]
      exact h.erase _
    · rw [← Except.ok.inj hflat]
      exact h.erase _
    · rename_i name hname
      split at hflat
      · cases hflat
      · split at hflat
        · rename_i base hlookup
          obtain ⟨fs, hfs, hheir⟩ := h.stands _ _ hname
          have hproperty := hbase fs name base hfs hheir hlookup
          exact ih ((h.erase _).overlay (gathers_of (hsorted base hproperty) hproperty)) hflat
        · cases hflat
        · cases hflat
    · cases hflat

/-- The features of every rule that occurs stand in rules with the property. -/
theorem Occurs.gathers (hP : s.Closed P) {options : Options} (h : s.Occurs features options) :
    Gathers P features := by
  induction h with
  | named hmem hflat =>
    cases hflat with
    | null => exact gathers_nil
    | mapping hflat =>
      have hproperty := hP.named _ _ hmem
      exact (gathers_of (hP.sorted _ hproperty) hproperty).flattenFrom hP.sorted hP.base hflat
  | inner _ hread hmem hunfolds ih =>
    obtain ⟨fs, rfl, hflat⟩ := hunfolds.flatten
    obtain ⟨gs, hgs, hinside⟩ := ih.inside (inside_of_subRule hread hmem)
    have hproperty := hP.inner _ _ hgs hinside
    exact (gathers_of (hP.sorted _ hproperty) hproperty).flattenFrom hP.sorted hP.base hflat

/-! ## Features of rules of a batch -/

/-- Features that stand in rules of the batch. -/
structure Inherited (s : Source) (features : Entries Value) : Prop where
  sorted : Entries.Sorted features
  stands : ∀ key v, Entries.lookup key features = some v →
    ∃ fs, Part s.batch (.mapping fs) ∧ Entries.lookup key fs = some v

theorem inherited_iff : s.Inherited features ↔ Gathers (Part s.batch) features :=
  ⟨fun h => ⟨h.sorted, h.stands⟩, fun h => ⟨h.sorted, h.stands⟩⟩

section

variable (hspelled : ∀ e ∈ s.batch, Spelled e.2) (hregistered : s.registered = [])
include hspelled hregistered

/-- To be a rule of the batch is passed on, if nothing else is registered. -/
theorem closed_part : s.Closed (Part s.batch) where
  named _ _ hmem := .named hmem
  inner _ _ houter hv := .inner houter hv
  base := by
    intro fs name base _ _ hlookup
    rw [lookup, hregistered] at hlookup
    exact .named (Entries.mem_of_lookup (Option.or_none.symm.trans hlookup))
  sorted _ h := (h.spelled hspelled).sorted

/-- The features of every rule that occurs stand in rules of the batch. -/
theorem Occurs.inherited {options : Options} (h : s.Occurs features options) :
    s.Inherited features :=
  inherited_iff.2 (h.gathers (closed_part hspelled hregistered))

/-- Where no rule has the key by which the form of a named entry is known, no rule of an
entry has that form. -/
theorem Occurs.plainEntries_of_unmarked
    (hunmarked : ∀ fs, Part s.batch (.mapping fs) → Entries.lookup entryName fs = none)
    {options : Options} (h : s.Occurs features options) : s.PlainEntries features := by
  have hclosed := closed_part hspelled hregistered
  have hinherited := inherited_iff.1 (h.inherited hspelled hregistered)
  intro key hkey es hes e he fs flat form hfs hflat hform taken name heq
  have hinside : Inside features e.2 := by
    refine .entry ?_ hes he
    simpa using hkey
  rw [hfs] at hinside
  obtain ⟨outer, houter, hinner⟩ := hinherited.inside hinside
  have hpart : Part s.batch (.mapping fs) := .inner houter hinner
  have hflatInherited := (gathers_of (hclosed.sorted _ hpart) hpart).flattenFrom hclosed.sorted
    hclosed.base hflat
  rw [heq] at hform
  have hlookup : Entries.lookup entryName flat = some (.text name) := by
    have hsame : Entries.lookup entryName
        [(entryTaken, .mapping taken), (entryName, .text name)] = Entries.lookup entryName flat :=
      hform.lookup (by decide)
    rw [← hsame]
    rfl
  obtain ⟨gs, hgs, hv⟩ := hflatInherited.stands _ _ hlookup
  rw [hunmarked gs hgs] at hv
  cases hv

omit hspelled hregistered in
/-- No rule of a checked batch has the key by which the form of a named entry is known. -/
theorem unmarked_of_check {depth : Nat} (hcheck : SchemaOfSchemas.check depth s.batch = .ok ())
    {fs : Entries Value} (hfs : Part s.batch (.mapping fs)) :
    Entries.lookup entryName fs = none := by
  cases hlookup : Entries.lookup entryName fs with
  | none => rfl
  | some v =>
    have hfeature := SchemaOfSchemas.isFeature_of_check hcheck hfs (Entries.mem_of_lookup hlookup)
    have hnone : SchemaOfSchemas.features.lookup entryName = none := rfl
    rw [hnone] at hfeature
    cases hfeature

/-- In a checked batch no rule of an entry has the form of a named entry. -/
theorem Occurs.plainEntries {depth : Nat}
    (hcheck : SchemaOfSchemas.check depth s.batch = .ok ()) {options : Options}
    (h : s.Occurs features options) : s.PlainEntries features :=
  h.plainEntries_of_unmarked hspelled hregistered fun _ hfs => unmarked_of_check hcheck hfs

end

end Source
end Rulebook
