import Rulebook.Proofs.Compilation.ReadAlike
import Rulebook.Proofs.Compilation.Unfolding

/-!
# Rules that are read one by one

What a rule comes to may depend on other rules: it takes up the features of the rules it
inherits from, and an entry takes up what the rule it refers to says about entries.  In a
set of rules without inheritance, where the rules that entries refer to say nothing about
entries, each rule comes to the same by itself.  It is flattened alike, has one form and is
compiled to the same program, whichever other rules of the set are there already.
-/

namespace Rulebook
namespace Source

open Rule

variable {s t : Source} {all features flat : Entries Value} {options : Options}

/-- No rule inherits from another, and the rules that entries refer to say nothing about
entries. -/
structure Standalone (all : Entries Value) : Prop where
  bare : ∀ fs, Part all (.mapping fs) → Entries.lookup baseFeature fs = none ∨
    Entries.lookup baseFeature fs = some .null
  silent : ∀ fs n gs, Part all (.mapping fs) → Cites fs n → (n, .mapping gs) ∈ all →
    ∀ feature ∈ entryFeatures, Entries.lookup feature gs = none

/-- The first source has some of the rules of the second batch, with the same options. -/
structure PartOf (t s : Source) : Prop where
  batch : t.batch ⊆ s.batch
  registered : t.registered ⊆ s.batch
  options : t.options = s.options
  coercions : t.coercions = s.coercions
  digest : t.digest = s.digest

theorem partOf_self (h : s.registered = []) : s.PartOf s where
  batch := List.Subset.refl _
  registered := by
    rw [h]
    exact List.nil_subset _
  options := rfl
  coercions := rfl
  digest := rfl

/-! ## Flattening -/

/-- A rule without a base is flattened by itself. -/
theorem flattenFrom_of_bare {fs : Entries Value}
    (h : Entries.lookup baseFeature fs = none ∨ Entries.lookup baseFeature fs = some .null)
    (label : String) (fuel : Nat) (chain : List String) :
    t.flattenFrom label (fuel + 1) chain fs = .ok (Entries.erase baseFeature fs) := by
  rw [flattenFrom]
  rcases h with h | h <;> rw [h]

section

variable (hall : Standalone s.batch)
include hall

theorem Standalone.flatten_eq {fs : Entries Value} (hfs : Part s.batch (.mapping fs))
    (label : String) : t.flatten fs label = .ok (Entries.erase baseFeature fs) :=
  flattenFrom_of_bare (hall.bare fs hfs) label _ _

theorem Standalone.flattenInline_eq {fs : Entries Value} (hfs : Part s.batch (.mapping fs)) :
    t.flattenInline fs = .ok (Entries.erase baseFeature fs) :=
  flattenFrom_of_bare (hall.bare fs hfs) "" _ _

/-- A named rule is flattened alike in both sources. -/
theorem Standalone.flattens {n : String} {v : Value} (hv : Part s.batch v)
    (h : t.Flattens n v flat) : s.Flattens n v flat := by
  cases h with
  | null => exact .null
  | mapping h =>
    rw [hall.flatten_eq hv] at h
    exact .mapping ((hall.flatten_eq hv n).trans h)

end

/-! ## Rules that occur -/

theorem PartOf.mem_of_lookup (ht : t.PartOf s) {n : String} {v : Value}
    (h : t.lookup n = some v) : (n, v) ∈ s.batch := by
  rcases List.mem_append.1 (Source.mem_of_lookup h) with h | h
  · exact ht.batch h
  · exact ht.registered h

section

variable (hall : Standalone s.batch) (hspelled : ∀ e ∈ s.batch, Spelled e.2) (ht : t.PartOf s)
include hspelled ht

/-- To be a rule of the set is passed on in every source with rules of the set. -/
theorem PartOf.closed : t.Closed (Part s.batch) where
  named _ _ hmem := .named (ht.batch hmem)
  inner _ _ houter hv := .inner houter hv
  base _ _ _ _ _ hlookup := .named (ht.mem_of_lookup hlookup)
  sorted _ h := (h.spelled hspelled).sorted

theorem PartOf.gathers (h : t.Occurs features options) : Gathers (Part s.batch) features :=
  h.gathers (ht.closed hspelled)

include hall

/-- An entry takes up nothing from the rule it refers to. -/
theorem Standalone.taken_eq {fs : Entries Value} (hfs : Part s.batch (.mapping fs)) {n : String}
    (hn : Cites fs n) : t.taken n = .ok [] := by
  rw [taken]
  split
  · rename_i gs hlookup
    have hgs := ht.mem_of_lookup hlookup
    rw [hall.flatten_eq (.named hgs)]
    refine congrArg Except.ok (List.filter_eq_nil_iff.2 fun e he hfeature => ?_)
    have hnone := hall.silent fs n gs hfs hn hgs e.1 (List.contains_iff_mem.1 hfeature)
    have hsorted := (ht.closed hspelled).sorted gs (.named hgs)
    have hsome := (Entries.lookup_eq_some_iff hsorted).2 (Entries.mem_of_mem_erase he)
    rw [hnone] at hsome
    cases hsome
  · rfl

/-- The rules of the set are read alike in both sources. -/
theorem Standalone.readAlike (hfresh : s.registered = []) : ReadAlike (Part s.batch) t s where
  closed := ht.closed hspelled
  flatten _ label hfs := (hall.flatten_eq hfs label).trans (hall.flatten_eq hfs label).symm
  inline _ hfs := (hall.flattenInline_eq hfs).trans (hall.flattenInline_eq hfs).symm
  taken _ _ hfs hn :=
    (hall.taken_eq hspelled ht hfs hn).trans (hall.taken_eq hspelled (partOf_self hfresh) hfs hn).symm

variable (hfresh : s.registered = [])
include hfresh

/-- A rule that occurs in the one source occurs in the other. -/
theorem Standalone.occurs (h : t.Occurs features options) : s.Occurs features options :=
  (hall.readAlike hspelled ht hfresh).occurs ht.batch ht.options h

/-- A rule has the same form in both sources. -/
theorem Standalone.formIs_iff (h : Gathers (Part s.batch) features) {form : Value} :
    t.FormIs features form ↔ s.FormIs features form :=
  (hall.readAlike hspelled ht hfresh).formIs_iff h

/-! ## Programs -/

variable {depth : Nat} (hcheck : SchemaOfSchemas.check depth s.batch = .ok ())
include hcheck

/-- No rule of an entry is mistaken for a named one in the one source, since none is in the
other. -/
theorem Standalone.plainEntries (h : t.Occurs features options) : t.PlainEntries features := by
  have hplain := (hall.occurs hspelled ht hfresh h).plainEntries hspelled hfresh hcheck
  exact ((hall.readAlike hspelled ht hfresh).plainEntries_iff (ht.gathers hspelled h)).2 hplain

/-- What a rule is compiled to in the one source is what it comes to in the other. -/
theorem Standalone.emits (h : t.Occurs features options) {form : Value}
    (hform : t.FormIs features form) {T : Links} {p : Program}
    (hp : t.Emits T features options p) : s.Emits T features options p := by
  have hgathers := ht.gathers hspelled h
  refine hp.of_sameForm ht.digest ht.coercions hform
    ((hall.formIs_iff hspelled ht hfresh hgathers).1 hform) ?_ rfl
  have hoccurs := hall.occurs hspelled ht hfresh h
  exact (hall.plainEntries hspelled ht hfresh hcheck h).namesMatch
    (hall.plainEntries hspelled (partOf_self hfresh) hfresh hcheck hoccurs)

omit ht in
/-- A program that was built in parts of the set might have been built in the whole. -/
theorem Standalone.built {T : Links} {i : SchemaId} {p : Program}
    (h : Built (fun t => t.PartOf s) T i p) : Built (fun t => s = t) T i p := by
  obtain ⟨t, features, form, options, ht, hoccurs, hform, hi, hid, hemits⟩ := h
  have hgathers := ht.gathers hspelled hoccurs
  rw [ht.digest] at hi
  exact ⟨s, features, form, options, rfl, hall.occurs hspelled ht hfresh hoccurs,
    (hall.formIs_iff hspelled ht hfresh hgathers).1 hform, hi, hid,
    hall.emits hspelled ht hfresh hcheck hoccurs hform hemits⟩

end

end Source
end Rulebook
