import Rulebook.Proofs.Compilation.ReadAlike
import Rulebook.Proofs.Compilation.SameRules

/-!
# Rules contained in a larger batch

Some rules of a batch may stand by themselves: each rule of the batch that one of them
refers to or inherits from is among them.  They are read alike in the batch and without
the rest of it, and a name that one of them mentions stands for the same rule in both, or
for none.
-/

namespace Rulebook
namespace Source

open Rule

variable {s t : Source} {features : Entries Value} {label : String}

/-- The first rules are among the second, of which they mention no others. -/
structure SelfContained (part whole : Entries Value) : Prop where
  subset : part ⊆ whole
  mentioned : ∀ n, Part part (.text n) → n ∈ Entries.keys whole → n ∈ Entries.keys part
  inherited : ∀ fs n, Part part (.mapping fs) →
    Entries.lookup baseFeature fs = some (.text n) → n ∈ Entries.keys whole →
    n ∈ Entries.keys part

/-- The rules of the first source stand by themselves in the second, and nothing is
registered before either. -/
structure Contained (s t : Source) : Prop where
  rules : SelfContained s.batch t.batch
  options : s.options = t.options
  coercions : s.coercions = t.coercions
  digest : s.digest = t.digest
  sorted : Entries.Sorted s.batch
  sortedWhole : Entries.Sorted t.batch
  fresh : s.registered = []
  freshWhole : t.registered = []
  spelled : ∀ e ∈ t.batch, Spelled e.2

namespace Contained

/-! ## Names -/

theorem lookup_of_fresh (h : s.registered = []) (n : String) :
    s.lookup n = Entries.lookup n s.batch := by
  rw [lookup, h]
  exact Option.or_none

variable (h : Contained s t)
include h

/-- A name stands for the same rule in both, unless it has one in the second only. -/
theorem lookup_eq {n : String} (hn : n ∈ Entries.keys t.batch → n ∈ Entries.keys s.batch) :
    s.lookup n = t.lookup n := by
  rw [lookup_of_fresh h.fresh, lookup_of_fresh h.freshWhole]
  refine Option.ext fun v => ?_
  rw [Entries.lookup_eq_some_iff h.sorted, Entries.lookup_eq_some_iff h.sortedWhole]
  refine ⟨fun hmem => h.rules.subset hmem, fun hmem => ?_⟩
  obtain ⟨⟨_, w⟩, hw, rfl⟩ := List.mem_map.1 (hn (List.mem_map_of_mem hmem))
  have hsame := (Entries.lookup_eq_some_iff h.sortedWhole).2 (h.rules.subset hw)
  rw [(Entries.lookup_eq_some_iff h.sortedWhole).2 hmem] at hsame
  rw [Option.some.inj hsame]
  exact hw

theorem lookup_mentioned {n : String} (hn : Part s.batch (.text n)) : s.lookup n = t.lookup n :=
  h.lookup_eq (h.rules.mentioned n hn)

theorem mem_of_lookup {n : String} {v : Value} (hv : s.lookup n = some v) : (n, v) ∈ s.batch := by
  rw [lookup_of_fresh h.fresh] at hv
  exact Entries.mem_of_lookup hv

/-! ## Flattening -/

theorem closed : s.Closed (Part s.batch) :=
  closed_part (fun e he => h.spelled e (h.rules.subset he)) h.fresh

theorem flattenFrom_eq (hfeatures : Gathers (Part s.batch) features) (fuel : Nat)
    (chain : List String) :
    s.flattenFrom label fuel chain features = t.flattenFrom label fuel chain features := by
  induction fuel generalizing chain features with
  | zero => rfl
  | succ fuel ih =>
    rw [flattenFrom, flattenFrom]
    split
    · rfl
    · rfl
    · rename_i n hn
      obtain ⟨fs, hfs, hbase⟩ := hfeatures.stands _ _ hn
      rw [← h.lookup_eq (h.rules.inherited fs n hfs hbase)]
      split
      · rfl
      · split
        · rename_i base hlookup
          have hpart : Part s.batch (.mapping base) := .named (h.mem_of_lookup hlookup)
          exact ih ((hfeatures.erase _).overlay (gathers_of (h.closed.sorted base hpart) hpart)) _
        · rfl
        · rfl
    · rfl

theorem flatten_eq {fs : Entries Value} (label : String) (hfs : Part s.batch (.mapping fs)) :
    s.flatten fs label = t.flatten fs label :=
  flattenFrom_eq_of_ends
    (fun fuel => h.flattenFrom_eq (gathers_of (h.closed.sorted fs hfs) hfs) fuel _)
    (ends_flatten fs label) (ends_flatten fs label)

theorem flattenInline_eq {fs : Entries Value} (hfs : Part s.batch (.mapping fs)) :
    s.flattenInline fs = t.flattenInline fs :=
  flattenFrom_eq_of_ends
    (fun fuel => h.flattenFrom_eq (gathers_of (h.closed.sorted fs hfs) hfs) fuel _)
    (ends_flattenInline fs) (ends_flattenInline fs)

/-- What is taken up for an entry is the same in both. -/
theorem taken_eq {n : String} (hn : Part s.batch (.text n)) : s.taken n = t.taken n := by
  rw [taken, taken, ← h.lookup_mentioned hn]
  split
  · rename_i fs hlookup
    rw [h.flatten_eq n (.named (h.mem_of_lookup hlookup))]
  · rfl

/-- The contained rules are read alike in both. -/
theorem readAlike : ReadAlike (Part s.batch) s t where
  closed := h.closed
  flatten _ label hfs := h.flatten_eq label hfs
  inline _ hfs := h.flattenInline_eq hfs
  taken _ _ hfs hn := h.taken_eq (.inner hfs hn.inside)

/-- A contained rule occurs in the whole batch too. -/
theorem occurs {options : Options} (hoccurs : s.Occurs features options) :
    t.Occurs features options :=
  h.readAlike.occurs h.rules.subset h.options hoccurs

theorem gathers {options : Options} (hoccurs : s.Occurs features options) :
    Gathers (Part s.batch) features :=
  hoccurs.gathers h.closed

end Contained

end Source
end Rulebook
