import Rulebook.Compilation.Form
import Rulebook.Proofs.Compilation.Yields

/-!
# Labels play no part in what a rule comes to

The label of a rule is the first name of its chain of bases, and it is named in
refusals.  It can keep a rule from being flattened, but not change what the rule
is flattened to.  The same holds for forms: a form that is found at all is found
without a label, and at every greater depth of unfolding.

So a rule has at most one form, whatever label it was met under: `FormIs` is the
relation between flattened features and their form.
-/

namespace Rulebook
namespace Source

variable {s : Source}

/-- Features together with those they inherit, for a rule that has no label. -/
def flattenInline (s : Source) (features : Entries Value) :
    Except SchemaError (Entries Value) :=
  s.flattenFrom "" (s.ruleCount + 2) [] features

theorem flattenFrom_of_subset {fuel : Nat} {label : String} {chain : List String}
    {features flat : Entries Value} (h : s.flattenFrom label fuel chain features = .ok flat)
    (label' : String) {chain' : List String} (hsub : chain' ⊆ chain) :
    s.flattenFrom label' fuel chain' features = .ok flat := by
  induction fuel generalizing chain chain' features with
  | zero => cases h
  | succ fuel ih =>
    rw [flattenFrom] at h ⊢
    split at h
    · exact h
    · exact h
    · rename_i name hname
      by_cases hchain : name ∈ chain
      · rw [if_pos hchain] at h
        cases h
      · rw [if_neg hchain] at h
        rw [if_neg fun hmem => hchain (hsub hmem)]
        split at h
        · refine ih h fun x hx => ?_
          simp only [List.mem_append] at hx ⊢
          exact hx.imp_left fun hx => hsub hx
        · cases h
        · cases h
    · cases h

theorem flattenInline_of_flatten {features flat : Entries Value} {label : String}
    (h : s.flatten features label = .ok flat) : s.flattenInline features = .ok flat :=
  flattenFrom_of_subset h "" (List.nil_subset _)

/-! ## Forms -/

/-- One computation of forms succeeds wherever another does, and alike. -/
def Agrees {α β : Type} (f g : α → Except SchemaError β) : Prop := ∀ a b, f a = .ok b → g a = .ok b

theorem mapM_agrees {α β : Type} {f g : α → Except SchemaError β} (h : Agrees f g) :
    Agrees (fun as : List α => as.mapM f) (fun as => as.mapM g) := by
  intro as
  induction as with
  | nil => exact fun _ hbs => hbs
  | cons a as ih =>
    intro bs hbs
    simp only [List.mapM_cons, Except.bind_eq_ok_iff] at hbs ⊢
    obtain ⟨b, hb, cs, hcs, hbs⟩ := hbs
    exact ⟨b, h a b hb, cs, ih cs hcs, hbs⟩

theorem reform_agrees {feature : String} {f g : Value → Except SchemaError Value}
    (h : Agrees f g) : Agrees (reform feature f) (reform feature g) := by
  intro es es' hes
  rw [reform] at hes ⊢
  split at hes
  · exact hes
  · simp only [Except.bind_eq_ok_iff] at hes ⊢
    obtain ⟨v, hv, hes⟩ := hes
    exact ⟨v, h _ v hv, hes⟩

theorem entryForm_agrees {f g : Value → Except SchemaError Value} (h : Agrees f g) :
    Agrees (s.entryForm f) (s.entryForm g) := by
  rintro ⟨key, v⟩ e he
  cases v with
  | text name => exact he
  | _ =>
    simp only [entryForm, Except.bind_eq_ok_iff] at he ⊢
    obtain ⟨w, hw, he⟩ := he
    exact ⟨w, h _ _ hw, he⟩

theorem ruleMapForm_agrees {f g : Value → Except SchemaError Value} (h : Agrees f g) :
    Agrees (s.ruleMapForm f) (s.ruleMapForm g) := by
  intro v w hw
  cases v with
  | mapping es =>
    simp only [ruleMapForm, Except.bind_eq_ok_iff] at hw ⊢
    obtain ⟨forms, hforms, hw⟩ := hw
    exact ⟨forms, mapM_agrees (entryForm_agrees h) es forms hforms, hw⟩
  | _ => exact hw

theorem ruleListForm_agrees {f g : Value → Except SchemaError Value} (h : Agrees f g) :
    Agrees (ruleListForm f) (ruleListForm g) := by
  intro v w hw
  cases v with
  | list rules =>
    simp only [ruleListForm, Except.bind_eq_ok_iff] at hw ⊢
    obtain ⟨forms, hforms, hw⟩ := hw
    exact ⟨forms, mapM_agrees h rules forms hforms, hw⟩
  | _ => exact hw

theorem subForm_agrees {fl fl' : Entries Value → Except SchemaError (Entries Value)}
    {form form' : Entries Value → Except SchemaError Value} (hfl : Agrees fl fl')
    (hform : Agrees form form') : Agrees (subForm fl form) (subForm fl' form') := by
  intro v w hw
  cases v with
  | mapping es =>
    simp only [subForm, Except.bind_eq_ok_iff] at hw ⊢
    obtain ⟨flat, hflat, hw⟩ := hw
    exact ⟨flat, hfl es flat hflat, hform flat w hw⟩
  | _ => exact hw

theorem formWith_agrees {f g : Value → Except SchemaError Value} (h : Agrees f g) :
    Agrees (s.formWith f) (s.formWith g) := by
  intro features form hform
  simp only [formWith, Except.bind_eq_ok_iff] at hform ⊢
  obtain ⟨f₁, h₁, f₂, h₂, f₃, h₃, f₄, h₄, f₅, h₅, h₆⟩ := hform
  exact ⟨f₁, reform_agrees (ruleMapForm_agrees h) _ _ h₁,
    f₂, reform_agrees (ruleMapForm_agrees h) _ _ h₂, f₃, reform_agrees h _ _ h₃,
    f₄, reform_agrees h _ _ h₄, f₅, reform_agrees (ruleListForm_agrees h) _ _ h₅,
    reform_agrees (ruleListForm_agrees h) _ _ h₆⟩

theorem formOf_succ_eq_ok_iff {fl : Entries Value → Except SchemaError (Entries Value)}
    {label : String} {fuel : Nat} {features : Entries Value} {form : Value} :
    s.formOf fl label (fuel + 1) features = .ok form ↔
      ∃ fs, s.formWith (subForm fl (s.formOf fl label fuel)) features = .ok fs ∧
        .mapping fs = form := by
  rw [formOf, Except.bind_eq_ok_iff]
  simp only [pure, Except.pure, Except.ok.injEq]

theorem formOf_agrees {fl fl' : Entries Value → Except SchemaError (Entries Value)}
    (hfl : Agrees fl fl') (label label' : String) {fuel fuel' : Nat} (hfuel : fuel ≤ fuel') :
    Agrees (s.formOf fl label fuel) (s.formOf fl' label' fuel') := by
  induction fuel generalizing fuel' with
  | zero =>
    intro features form h
    cases h
  | succ fuel ih =>
    obtain ⟨fuel', rfl⟩ : ∃ n, fuel' = n + 1 := ⟨fuel' - 1, by omega⟩
    intro features form h
    rw [formOf_succ_eq_ok_iff] at h ⊢
    obtain ⟨fs, hfs, hform⟩ := h
    have hsub : Agrees (subForm fl (s.formOf fl label fuel))
        (subForm fl' (s.formOf fl' label' fuel')) :=
      subForm_agrees hfl (ih (Nat.le_of_succ_le_succ hfuel))
    exact ⟨fs, formWith_agrees hsub _ _ hfs, hform⟩

/-- The form of flattened features, to whatever depth they have to be unfolded. -/
def FormIs (s : Source) (features : Entries Value) (form : Value) : Prop :=
  ∃ depth, s.formOf s.flattenInline "" depth features = .ok form

theorem formIs_of_form {features : Entries Value} {label : String} {form : Value}
    (h : s.form features label = .ok form) : s.FormIs features form :=
  ⟨_, formOf_agrees (fun _ _ => flattenInline_of_flatten) label "" (Nat.le_refl _) _ _ h⟩

/-- Features have at most one form. -/
theorem FormIs.unique {features : Entries Value} {form form' : Value}
    (h : s.FormIs features form) (h' : s.FormIs features form') : form = form' := by
  obtain ⟨n, hn⟩ := h
  obtain ⟨m, hm⟩ := h'
  have hagree {k : Nat} (hk : k ≤ max n m) :
      Agrees (s.formOf s.flattenInline "" k) (s.formOf s.flattenInline "" (max n m)) :=
    formOf_agrees (fun _ _ h => h) "" "" hk
  exact Except.ok.inj
    ((hagree (Nat.le_max_left n m) _ _ hn).symm.trans (hagree (Nat.le_max_right n m) _ _ hm))

end Source
end Rulebook
