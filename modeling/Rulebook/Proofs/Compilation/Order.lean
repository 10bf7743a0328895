import Rulebook.Proofs.Compilation.Forms
import Rulebook.Proofs.Value.Ordered

/-!
# Order is kept from a rule to its form

A rule with ordered mappings stays so when it is brought into its one spelling,
when it is flattened, and when its form is taken.  So the forms of a batch are
ordered if the rules of the batch and those registered before are.
-/

namespace Rulebook

open Value

namespace Rule

theorem sorted_spellEntries {es : List (String × Value)} (h : Entries.Sorted es) :
    Entries.Sorted (spellEntries es) := by
  have hkeys : Entries.keys (spellEntries es) = Entries.keys es := by
    clear h
    induction es with
    | nil => rw [spellEntries]
    | cons e es ih =>
      obtain ⟨k, v⟩ := e
      rw [spellEntries, Entries.keys, List.map_cons]
      exact congrArg (k :: ·) ih
  rw [Entries.Sorted, hkeys]
  exact h

mutual

theorem ordered_spell : ∀ v : Value, v.Ordered → (spell v).Ordered
  | .null, _ => by
    rw [spell]
    exact ordered_mapping.2 ⟨Entries.sorted_nil, by simp⟩
  | .mapping es, h => by
    rw [Ordered] at h
    rw [spell]
    exact ordered_ofList (ordered_spellFeatures es es h.2)
  | .bool b, h => by simpa [spell] using h
  | .number n, h => by simpa [spell] using h
  | .text s, h => by simpa [spell] using h
  | .list xs, h => by simpa [spell] using h

theorem ordered_spellFeatures : ∀ all es : List (String × Value), OrderedEntries es →
    ∀ e ∈ spellFeatures all es, e.2.Ordered
  | _, [], _ => by simp [spellFeatures]
  | all, (name, v) :: rest, h => by
    rw [OrderedEntries] at h
    have hrest := ordered_spellFeatures all rest h.2
    have hv := ordered_spellArgument (role (featureName name)) v h.1
    intro e he
    rw [spellFeatures] at he
    split at he
    · rcases List.mem_cons.1 he with rfl | he
      · exact hv
      · exact hrest e he
    · exact hrest e he

theorem ordered_spellArgument : ∀ (r : Role) (v : Value), v.Ordered → (spellArgument r v).Ordered
  | r, .mapping es, h => by
    have hes := h
    rw [Ordered] at hes
    cases r with
    | ruleMap =>
      rw [spellArgument]
      exact ordered_mapping.2 ⟨sorted_spellEntries hes.1, ordered_spellEntries es hes.2⟩
    | rule =>
      rw [spellArgument]
      exact ordered_ofList (ordered_spellFeatures es es hes.2)
    | _ => simpa [spellArgument] using h
  | r, .list xs, h => by
    have hxs := h
    rw [Ordered] at hxs
    cases r with
    | ruleList =>
      rw [spellArgument]
      exact ordered_list.2 (ordered_spellList xs hxs)
    | _ => simpa [spellArgument] using h
  | r, .null, h => by
    cases r with
    | rule =>
      simp only [spellArgument]
      exact ordered_mapping.2 ⟨Entries.sorted_nil, by simp⟩
    | _ => simp [spellArgument, Ordered]
  | r, .text s, h => by
    cases r with
    | kind =>
      simp only [spellArgument, spellKind]
      split <;> exact trivial
    | _ => simp [spellArgument, Ordered]
  | r, .bool b, h => by simpa [spellArgument] using h
  | r, .number n, h => by simpa [spellArgument] using h

theorem ordered_spellEntries : ∀ es : List (String × Value), OrderedEntries es →
    ∀ e ∈ spellEntries es, e.2.Ordered
  | [], _ => by simp [spellEntries]
  | (k, v) :: rest, h => by
    rw [OrderedEntries] at h
    rw [spellEntries]
    intro e he
    rcases List.mem_cons.1 he with rfl | he
    · exact ordered_spell v h.1
    · exact ordered_spellEntries rest h.2 e he

theorem ordered_spellList : ∀ xs : List Value, OrderedList xs → ∀ x ∈ spellList xs, x.Ordered
  | [], _ => by simp [spellList]
  | x :: xs, h => by
    rw [OrderedList] at h
    rw [spellList]
    intro y hy
    rcases List.mem_cons.1 hy with rfl | hy
    · exact ordered_spell x h.1
    · exact ordered_spellList xs h.2 y hy

end

/-- The rules inside an ordered rule are ordered. -/
theorem Inside.ordered {features : Entries Value} (h : Ordered (.mapping features)) {v : Value}
    (hv : Inside features v) : v.Ordered := by
  have hargument : ∀ {key w}, Entries.lookup key features = some w → w.Ordered :=
    fun hlookup => (ordered_mapping.1 h).2 _ (Entries.mem_of_lookup hlookup)
  cases hv with
  | entry _ hlookup hmem => exact (ordered_mapping.1 (hargument hlookup)).2 _ hmem
  | argument _ hlookup => exact hargument hlookup
  | branch _ hlookup hmem => exact ordered_list.1 (hargument hlookup) _ hmem

end Rule

namespace Source

variable {s : Source}

/-- The rules of the batch and those registered before are ordered. -/
structure OrderedRules (s : Source) : Prop where
  batch : ∀ e ∈ s.batch, e.2.Ordered
  registered : ∀ e ∈ s.registered, e.2.Ordered

theorem OrderedRules.lookup (h : s.OrderedRules) {name : String} {v : Value}
    (hv : s.lookup name = some v) : v.Ordered := by
  rw [Source.lookup, Option.or_eq_some_iff] at hv
  rcases hv with hv | ⟨-, hv⟩
  · exact h.batch _ (Entries.mem_of_lookup hv)
  · exact h.registered _ (Entries.mem_of_lookup hv)

theorem ordered_erase {es : Entries Value} (h : Ordered (.mapping es)) (key : String) :
    Ordered (.mapping (Entries.erase key es)) := by
  obtain ⟨hsorted, hes⟩ := ordered_mapping.1 h
  exact ordered_mapping.2 ⟨Entries.sorted_erase hsorted key,
    fun e he => hes e (Entries.mem_of_mem_erase he)⟩

theorem ordered_insert {es : Entries Value} (h : Ordered (.mapping es)) {v : Value}
    (hv : v.Ordered) (key : String) : Ordered (.mapping (Entries.insert key v es)) := by
  obtain ⟨hsorted, hes⟩ := ordered_mapping.1 h
  refine ordered_mapping.2 ⟨Entries.sorted_insert hsorted key v, ?_⟩
  intro e he
  rcases Entries.mem_insert he with rfl | he
  · exact hv
  · exact hes e he

theorem ordered_overlay {upper base : Entries Value} (h : Ordered (.mapping upper))
    (h' : Ordered (.mapping base)) : Ordered (.mapping (Entries.overlay upper base)) := by
  refine ordered_mapping.2 ⟨Entries.sorted_overlay (ordered_mapping.1 h').1 upper, ?_⟩
  intro e he
  rcases Entries.mem_of_mem_overlay he with he | he
  · exact (ordered_mapping.1 h).2 e he
  · exact (ordered_mapping.1 h').2 e he

section

variable (h : s.OrderedRules)
include h

theorem OrderedRules.flattenFrom {label : String} {fuel : Nat} {chain : List String}
    {features flat : Entries Value} (hfeatures : Ordered (.mapping features))
    (hflat : s.flattenFrom label fuel chain features = .ok flat) : Ordered (.mapping flat) := by
  induction fuel generalizing chain features with
  | zero => cases hflat
  | succ fuel ih =>
    have hown := ordered_erase hfeatures baseFeature
    rw [Source.flattenFrom] at hflat
    split at hflat
    · rw [← Except.ok.inj hflat]
      exact hown
    · rw [← Except.ok.inj hflat]
      exact hown
    · split at hflat
      · cases hflat
      · split at hflat
        · rename_i base hbase
          exact ih (ordered_overlay hown (h.lookup hbase)) hflat
        · cases hflat
        · cases hflat
    · cases hflat

/-- Flattened features of rules that occur are ordered. -/
theorem OrderedRules.occurs {features : Entries Value} {options : Options}
    (hoccurs : s.Occurs features options) : Ordered (.mapping features) := by
  induction hoccurs with
  | named hmem hflat =>
    cases hflat with
    | null => exact ordered_mapping.2 ⟨Entries.sorted_nil, by simp⟩
    | mapping hflat => exact h.flattenFrom (h.batch _ hmem) hflat
  | inner _ hread hmem hunfolds ih =>
    obtain ⟨fs, rfl, hflat⟩ := hunfolds.flatten
    exact h.flattenFrom ((Rule.inside_of_subRule hread hmem).ordered ih) hflat

/-! ## Forms -/

theorem OrderedRules.taken {name : String} {taken : Entries Value}
    (htaken : s.taken name = .ok taken) : Ordered (.mapping taken) := by
  rw [Source.taken] at htaken
  split at htaken
  · rename_i fs hfs
    rw [Except.bind_eq_ok_iff] at htaken
    obtain ⟨flat, hflat, htaken⟩ := htaken
    obtain ⟨hsorted, hflat⟩ := ordered_mapping.1 (h.flattenFrom (h.lookup hfs) hflat)
    rw [← Except.ok.inj htaken]
    refine ordered_mapping.2 ⟨?_, fun e he => hflat e (List.mem_of_mem_filter he)⟩
    exact hsorted.sublist (List.filter_sublist.map _)
  · rw [← Except.ok.inj htaken]
    exact ordered_mapping.2 ⟨Entries.sorted_nil, by simp⟩

theorem OrderedRules.namedEntry {name : String} {form : Value}
    (hform : s.namedEntry name = .ok form) : form.Ordered := by
  rw [Source.namedEntry, Except.bind_eq_ok_iff] at hform
  obtain ⟨taken, htaken, hform⟩ := hform
  rw [← Except.ok.inj hform]
  have hkeys : [entryTaken, entryName].Pairwise (· < ·) := by decide
  refine ordered_mapping.2 ⟨hkeys, ?_⟩
  intro e he
  simp only [List.mem_cons, List.not_mem_nil, or_false] at he
  rcases he with rfl | rfl
  · exact h.taken htaken
  · exact trivial

end

/-- A change that keeps values ordered. -/
def KeepsOrder (change : Value → Except SchemaError Value) : Prop :=
  ∀ v w, v.Ordered → change v = .ok w → w.Ordered

theorem KeepsOrder.reform {feature : String} {change : Value → Except SchemaError Value}
    (h : KeepsOrder change) {es fs : Entries Value} (hes : Ordered (.mapping es))
    (hreform : reform feature change es = .ok fs) : Ordered (.mapping fs) := by
  rw [Source.reform] at hreform
  split at hreform
  · rw [← Except.ok.inj hreform]
    exact hes
  · rename_i argument hargument
    rw [Except.bind_eq_ok_iff] at hreform
    obtain ⟨changed, hchanged, hreform⟩ := hreform
    rw [← Except.ok.inj hreform]
    have hold := (ordered_mapping.1 hes).2 _ (Entries.mem_of_lookup hargument)
    exact ordered_insert hes (h _ _ hold hchanged) feature

theorem forall_mem_of_mapM {α β : Type} {f : α → Except SchemaError β} {as : List α} {bs : List β}
    (h : as.mapM f = .ok bs) {P : β → Prop} (hf : ∀ a ∈ as, ∀ b, f a = .ok b → P b) :
    ∀ b ∈ bs, P b := by
  induction as generalizing bs with
  | nil =>
    cases h
    simp
  | cons a as ih =>
    simp only [List.mapM_cons, Except.bind_eq_ok_iff] at h
    obtain ⟨b, hb, cs, hcs, h⟩ := h
    cases h
    intro c hc
    rcases List.mem_cons.1 hc with rfl | hc
    · exact hf a (List.mem_cons_self ..) _ hb
    · exact ih hcs (fun a' ha' => hf a' (List.mem_cons_of_mem _ ha')) c hc

theorem KeepsOrder.ruleListForm {sub : Value → Except SchemaError Value} (h : KeepsOrder sub) :
    KeepsOrder (ruleListForm sub) := by
  intro v w hv hw
  cases v with
  | list vs =>
    rw [Source.ruleListForm, Except.bind_eq_ok_iff] at hw
    obtain ⟨forms, hforms, hw⟩ := hw
    rw [← Except.ok.inj hw]
    exact ordered_list.2 (forall_mem_of_mapM hforms fun a ha b hb =>
      h a b (ordered_list.1 hv a ha) hb)
  | _ =>
    rw [← Except.ok.inj hw]
    exact hv

section

variable (h : s.OrderedRules)
include h

theorem OrderedRules.entryForm {sub : Value → Except SchemaError Value} (hsub : KeepsOrder sub)
    {e f : String × Value} (he : e.2.Ordered) (hform : s.entryForm sub e = .ok f) :
    f.1 = e.1 ∧ f.2.Ordered := by
  obtain ⟨k, v⟩ := e
  cases v with
  | text name =>
    simp only [Source.entryForm, Except.bind_eq_ok_iff] at hform
    obtain ⟨form, hnamed, hform⟩ := hform
    rw [← Except.ok.inj hform]
    exact ⟨rfl, h.namedEntry hnamed⟩
  | _ =>
    simp only [Source.entryForm, Except.bind_eq_ok_iff] at hform
    obtain ⟨form, hinner, hform⟩ := hform
    rw [← Except.ok.inj hform]
    exact ⟨rfl, hsub _ _ he hinner⟩

theorem OrderedRules.ruleMapForm {sub : Value → Except SchemaError Value}
    (hsub : KeepsOrder sub) : KeepsOrder (s.ruleMapForm sub) := by
  intro v w hv hw
  cases v with
  | mapping es =>
    rw [Source.ruleMapForm, Except.bind_eq_ok_iff] at hw
    obtain ⟨forms, hforms, hw⟩ := hw
    rw [← Except.ok.inj hw]
    obtain ⟨hsorted, hes⟩ := ordered_mapping.1 hv
    have hkeys : Entries.keys forms = Entries.keys es := by
      clear hw hv hsorted
      induction es generalizing forms with
      | nil =>
        cases hforms
        rfl
      | cons e es ih =>
        simp only [List.mapM_cons, Except.bind_eq_ok_iff] at hforms
        obtain ⟨f, hf, fs, hfs, hforms⟩ := hforms
        cases hforms
        have hkey := (h.entryForm hsub (hes e (List.mem_cons_self ..)) hf).1
        have hrest := ih fs hfs fun e' he' => hes e' (List.mem_cons_of_mem _ he')
        rw [Entries.keys, List.map_cons, hkey]
        exact congrArg (e.1 :: ·) hrest
    refine ordered_mapping.2 ⟨?_, forall_mem_of_mapM hforms fun e he f hf =>
      (h.entryForm hsub (hes e he) hf).2⟩
    rw [Entries.Sorted, hkeys]
    exact hsorted
  | _ =>
    rw [← Except.ok.inj hw]
    exact hv

theorem OrderedRules.formWith {sub : Value → Except SchemaError Value} (hsub : KeepsOrder sub)
    {features fs : Entries Value} (hfeatures : Ordered (.mapping features))
    (hform : s.formWith sub features = .ok fs) : Ordered (.mapping fs) := by
  simp only [Source.formWith, Except.bind_eq_ok_iff] at hform
  obtain ⟨f₁, h₁, f₂, h₂, f₃, h₃, f₄, h₄, f₅, h₅, h₆⟩ := hform
  have hmap := h.ruleMapForm hsub
  have hlist := hsub.ruleListForm
  have ho₁ := hmap.reform hfeatures h₁
  have ho₂ := hmap.reform ho₁ h₂
  have ho₃ := hsub.reform ho₂ h₃
  have ho₄ := hsub.reform ho₃ h₄
  have ho₅ := hlist.reform ho₄ h₅
  exact hlist.reform ho₅ h₆

theorem OrderedRules.formOf {depth : Nat} {features : Entries Value} {form : Value}
    (hfeatures : Ordered (.mapping features))
    (hform : s.formOf s.flattenInline "" depth features = .ok form) : form.Ordered := by
  induction depth generalizing features form with
  | zero => cases hform
  | succ depth ih =>
    obtain ⟨fs, hfs, rfl⟩ := formOf_succ_eq_ok_iff.1 hform
    refine h.formWith ?_ hfeatures hfs
    intro v w hv hw
    by_cases hmapping : ∃ es, v = .mapping es
    · obtain ⟨es, rfl⟩ := hmapping
      rw [subForm, Except.bind_eq_ok_iff] at hw
      obtain ⟨flat, hflat, hw⟩ := hw
      exact ih (h.flattenFrom hv hflat) hw
    · cases v with
      | mapping es => exact absurd ⟨es, rfl⟩ hmapping
      | _ =>
        rw [← Except.ok.inj hw]
        exact hv

/-- The form of a rule that occurs is ordered. -/
theorem OrderedRules.form {features : Entries Value} {options : Options}
    (hoccurs : s.Occurs features options) {form : Value} (hform : s.FormIs features form) :
    form.Ordered := by
  obtain ⟨depth, hform⟩ := hform
  exact h.formOf (h.occurs hoccurs) hform

end

end Source
end Rulebook
