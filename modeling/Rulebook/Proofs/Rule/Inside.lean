import Rulebook.Proofs.Rule.Stages
import Rulebook.Proofs.Value.Ordered
import Rulebook.Rule.Spelling

/-!
# Rules inside rules

The features of a rule say where rules stand inside it.  What a rule is read as
having inside stands there, and a rule in its one spelling has rules in their one
spelling inside, with features in the order of their keys.
-/

namespace Rulebook
namespace Rule

/-- What a rule reads as its inner rules stands in its features. -/
theorem lookup_of_readMapping {features es : Entries Value} {label feature : String}
    (h : readMapping features label feature = .ok (some es)) :
    Entries.lookup feature features = some (.mapping es) := by
  rw [readMapping, argument?] at h
  cases hlookup : Entries.lookup feature features with
  | none =>
    rw [hlookup] at h
    cases h
  | some v =>
    rw [hlookup] at h
    cases v with
    | mapping fs =>
      cases h
      rfl
    | _ => cases h

theorem lookup_of_readList {features : Entries Value} {vs : List Value} {label feature : String}
    (h : readList features label feature = .ok (some vs)) :
    Entries.lookup feature features = some (.list vs) := by
  rw [readList, argument?] at h
  cases hlookup : Entries.lookup feature features with
  | none =>
    rw [hlookup] at h
    cases h
  | some v =>
    rw [hlookup] at h
    cases v with
    | list ws =>
      cases h
      rfl
    | _ => cases h

/-- Where the rules inside a rule stand. -/
inductive Inside (features : Entries Value) (v : Value) : Prop where
  | entry {key k : String} {es : Entries Value} (hkey : key = "items" ∨ key = "pattern_items")
      (hlookup : Entries.lookup key features = some (.mapping es)) (hmem : (k, v) ∈ es)
  | argument {key : String} (hkey : key = "keys" ∨ key = "values")
      (hlookup : Entries.lookup key features = some v)
  | branch {key : String} {vs : List Value} (hkey : key = "any_of" ∨ key = "one_of")
      (hlookup : Entries.lookup key features = some (.list vs)) (hmem : v ∈ vs)

theorem inside_of_subRule {features : Entries Value} {r : Rule}
    (hread : read? features = some r) {v : Value} (hv : v ∈ r.subRules) :
    Inside features v := by
  have hread' : Rule.read features "" = .ok r := read_of_read? hread
  have hreads := read_eq_ok_iff.1 hread'
  have hentry : ∀ {key x}, key = "items" ∨ key = "pattern_items" →
      readMapping features "" key = .ok x → v ∈ (x.getD []).map (·.2) →
      Inside features v := by
    intro key x hkey hx hmem
    obtain ⟨e, he, rfl⟩ := List.mem_map.1 hmem
    cases x with
    | none => cases he
    | some es => exact .entry hkey (lookup_of_readMapping hx) he
  have hbranch : ∀ {key x}, key = "any_of" ∨ key = "one_of" →
      readList features "" key = .ok x → v ∈ x.getD [] → Inside features v := by
    intro key x hkey hx hmem
    cases x with
    | none => cases hmem
    | some vs => exact .branch hkey (lookup_of_readList hx) hmem
  simp only [subRules, List.mem_append, Option.mem_toList] at hv
  rcases hv with ((((hitems | hpatternItems) | hkeys) | hvalues) | hanyOf) | honeOf
  · exact hentry (Or.inl rfl) hreads.items hitems
  · exact hentry (Or.inr rfl) hreads.patternItems hpatternItems
  · exact .argument (Or.inl rfl) (hreads.keys.trans hkeys)
  · exact .argument (Or.inr rfl) (hreads.values.trans hvalues)
  · exact hbranch (Or.inl rfl) hreads.anyOf hanyOf
  · exact hbranch (Or.inr rfl) hreads.oneOf honeOf

/-- The rules of a batch: those with a name, and those inside them. -/
inductive Part (batch : Entries Value) : Value → Prop where
  | named {n : String} {v : Value} (hmem : (n, v) ∈ batch) : Part batch v
  | inner {fs : Entries Value} {v : Value} (houter : Part batch (.mapping fs))
      (hv : Inside fs v) : Part batch v

/-! ## Rules in their one spelling -/

/-- A rule that something is spelled as. -/
def Spelled (v : Value) : Prop := ∃ w, v = spell w

theorem spellArgument_rule (v : Value) : spellArgument .rule v = spell v := by
  cases v <;> simp only [spellArgument, spell]

/-- The features in their one spelling are those that are heard. -/
theorem mem_spellFeatures {all es : List (String × Value)} {key : String} {argument : Value} :
    (key, argument) ∈ spellFeatures all es ↔ ∃ name v, (name, v) ∈ es ∧ isHeard all name = true ∧
      key = featureName name ∧ argument = spellArgument (role key) v := by
  induction es with
  | nil =>
    rw [spellFeatures]
    constructor
    · intro h
      cases h
    · rintro ⟨name, v, h, -⟩
      cases h
  | cons e es ih =>
    obtain ⟨other, w⟩ := e
    rw [spellFeatures]
    by_cases hother : isHeard all other = true
    · rw [if_pos hother, List.mem_cons, ih]
      constructor
      · rintro (h | ⟨name, v, hmem, h⟩)
        · obtain ⟨rfl, rfl⟩ := Prod.mk.inj h
          exact ⟨other, w, List.mem_cons_self .., hother, rfl, rfl⟩
        · exact ⟨name, v, List.mem_cons_of_mem _ hmem, h⟩
      · rintro ⟨name, v, hmem, hheard, rfl, rfl⟩
        rcases List.mem_cons.1 hmem with heq | hmem
        · obtain ⟨rfl, rfl⟩ := Prod.mk.inj heq
          exact Or.inl rfl
        · exact Or.inr ⟨name, v, hmem, hheard, rfl, rfl⟩
    · rw [if_neg hother, ih]
      constructor
      · rintro ⟨name, v, hmem, h⟩
        exact ⟨name, v, List.mem_cons_of_mem _ hmem, h⟩
      · rintro ⟨name, v, hmem, hheard, h⟩
        rcases List.mem_cons.1 hmem with heq | hmem
        · exact absurd ((Prod.mk.inj heq).1 ▸ hheard) hother
        · exact ⟨name, v, hmem, hheard, h⟩

theorem spellEntries_eq_map (es : List (String × Value)) :
    spellEntries es = es.map fun e => (e.1, spell e.2) := by
  induction es with
  | nil => rw [spellEntries, List.map_nil]
  | cons e es ih =>
    obtain ⟨k, v⟩ := e
    rw [spellEntries, ih, List.map_cons]

theorem spellList_eq_map (vs : List Value) : spellList vs = vs.map spell := by
  induction vs with
  | nil => rw [spellList, List.map_nil]
  | cons v vs ih => rw [spellList, ih, List.map_cons]

/-- A rule that is spelled is empty, or made up of spelled features. -/
theorem Spelled.eq_ofList {fs : Entries Value} (h : Spelled (.mapping fs)) :
    ∃ all es, fs = Entries.ofList (spellFeatures all es) := by
  obtain ⟨w, hw⟩ := h
  cases w with
  | null =>
    rw [spell] at hw
    refine ⟨[], [], ?_⟩
    rw [spellFeatures]
    exact Value.mapping.inj hw
  | mapping es =>
    rw [spell] at hw
    exact ⟨es, es, Value.mapping.inj hw⟩
  | _ => cases hw

theorem Spelled.sorted {fs : Entries Value} (h : Spelled (.mapping fs)) : Entries.Sorted fs := by
  obtain ⟨all, es, rfl⟩ := h.eq_ofList
  exact Entries.sorted_ofList _

/-- The rules inside a spelled rule are spelled. -/
theorem Spelled.inside {fs : Entries Value} (h : Spelled (.mapping fs)) {v : Value}
    (hv : Inside fs v) : Spelled v := by
  obtain ⟨all, es, rfl⟩ := h.eq_ofList
  have hargument : ∀ {key argument},
      Entries.lookup key (Entries.ofList (spellFeatures all es)) = some argument →
      ∃ w, argument = spellArgument (role key) w := by
    intro key argument hlookup
    obtain ⟨_, w, -, -, -, hw⟩ := mem_spellFeatures.1 (Entries.mem_of_lookup_ofList hlookup)
    exact ⟨w, hw⟩
  cases hv with
  | @entry key _ _ hkey hlookup hmem =>
    obtain ⟨w, hw⟩ := hargument hlookup
    have hrole : role key = .ruleMap := by
      rcases hkey with rfl | rfl <;> rfl
    rw [hrole] at hw
    cases w with
    | mapping ws =>
      rw [spellArgument, spellEntries_eq_map] at hw
      cases hw
      obtain ⟨e, -, heq⟩ := List.mem_map.1 hmem
      exact ⟨e.2, (Prod.mk.inj heq).2.symm⟩
    | _ => cases hw
  | @argument key hkey hlookup =>
    obtain ⟨w, hw⟩ := hargument hlookup
    have hrole : role key = .rule := by
      rcases hkey with rfl | rfl <;> rfl
    rw [hrole, spellArgument_rule] at hw
    exact ⟨w, hw⟩
  | @branch key _ hkey hlookup hmem =>
    obtain ⟨w, hw⟩ := hargument hlookup
    have hrole : role key = .ruleList := by
      rcases hkey with rfl | rfl <;> rfl
    rw [hrole] at hw
    cases w with
    | list ws =>
      rw [spellArgument, spellList_eq_map] at hw
      cases hw
      obtain ⟨u, -, rfl⟩ := List.mem_map.1 hmem
      exact ⟨u, rfl⟩
    | _ => cases hw

/-- The rules of a batch of spelled rules are spelled. -/
theorem Part.spelled {batch : Entries Value} (hbatch : ∀ e ∈ batch, Spelled e.2) {v : Value}
    (h : Part batch v) : Spelled v := by
  induction h with
  | named hmem => exact hbatch _ hmem
  | inner _ hv ih => exact ih.inside hv

end Rule
end Rulebook
