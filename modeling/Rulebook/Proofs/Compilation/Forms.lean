import Rulebook.Proofs.Compilation.Links
import Rulebook.Proofs.Rule.Inside

/-!
# What a form says

A form has the features that were identified.  The argument of a feature that
holds no rules is kept as it is; the argument of a feature that holds rules is
replaced by the forms of those rules.  `FormOf` says so feature by feature.
-/

namespace Rulebook
namespace Source

variable {s : Source}

/-- The features whose arguments hold rules. -/
def ruleFeatures : List String :=
  ["items", "pattern_items", "keys", "values", "any_of", "one_of"]

theorem lookup_reform {feature : String} {change : Value → Except SchemaError Value}
    {es fs : Entries Value} (h : reform feature change es = .ok fs) (key : String) :
    if key = feature then
      Option.Rel (fun a b => change a = .ok b) (Entries.lookup key es) (Entries.lookup key fs)
    else Entries.lookup key fs = Entries.lookup key es := by
  rw [reform] at h
  split
  · rename_i hkey
    subst hkey
    cases hold : Entries.lookup key es with
    | none =>
      simp only [hold] at h
      rw [← Except.ok.inj h, hold]
      exact .none
    | some a =>
      simp only [hold, Except.bind_eq_ok_iff] at h
      obtain ⟨b, hb, h⟩ := h
      rw [← Except.ok.inj h, Entries.lookup_insert, if_pos rfl]
      exact .some hb
  · rename_i hkey
    cases hold : Entries.lookup feature es with
    | none =>
      simp only [hold] at h
      rw [← Except.ok.inj h]
    | some a =>
      simp only [hold, Except.bind_eq_ok_iff] at h
      obtain ⟨b, hb, h⟩ := h
      rw [← Except.ok.inj h, Entries.lookup_insert, if_neg (Ne.symm hkey)]

theorem lookup_reform_ne {feature : String} {change : Value → Except SchemaError Value}
    {es fs : Entries Value} (h : reform feature change es = .ok fs) {key : String}
    (hkey : key ≠ feature) : Entries.lookup key fs = Entries.lookup key es := by
  have hlookup := lookup_reform h key
  rw [if_neg hkey] at hlookup
  exact hlookup

theorem lookup_reform_self {feature : String} {change : Value → Except SchemaError Value}
    {es fs : Entries Value} (h : reform feature change es = .ok fs) :
    Option.Rel (fun a b => change a = .ok b) (Entries.lookup feature es)
      (Entries.lookup feature fs) := by
  have hlookup := lookup_reform h feature
  rw [if_pos rfl] at hlookup
  exact hlookup

/-! ## One feature after the other -/

/-- What the argument of a feature that holds rules is changed to. -/
def change (s : Source) (sub : Value → Except SchemaError Value) (key : String) :
    Value → Except SchemaError Value :=
  match key with
  | "items" | "pattern_items" => s.ruleMapForm sub
  | "keys" | "values" => sub
  | _ => ruleListForm sub

/-- Change the arguments of features, one feature after the other. -/
def reformAll (change : String → Value → Except SchemaError Value) (keys : List String)
    (features : Entries Value) : Except SchemaError (Entries Value) :=
  keys.foldlM (fun form key => reform key (change key) form) features

theorem formWith_eq_reformAll (sub : Value → Except SchemaError Value)
    (features : Entries Value) :
    s.formWith sub features = reformAll (s.change sub) ruleFeatures features := by
  simp only [formWith, reformAll, ruleFeatures, change, List.foldlM_cons, List.foldlM_nil,
    bind_pure]
  rfl

/-- There are three kinds of features that hold rules. -/
theorem change_eq {key : String} (hkey : key ∈ ruleFeatures) :
    ((key = "items" ∨ key = "pattern_items") ∧
      ∀ (s : Source) sub, s.change sub key = s.ruleMapForm sub) ∨
    ((key = "keys" ∨ key = "values") ∧ ∀ (s : Source) sub, s.change sub key = sub) ∨
    ((key = "any_of" ∨ key = "one_of") ∧
      ∀ (s : Source) sub, s.change sub key = ruleListForm sub) := by
  simp only [ruleFeatures, List.mem_cons, List.not_mem_nil, or_false] at hkey
  rcases hkey with rfl | rfl | rfl | rfl | rfl | rfl
  · exact Or.inl ⟨Or.inl rfl, fun _ _ => rfl⟩
  · exact Or.inl ⟨Or.inr rfl, fun _ _ => rfl⟩
  · exact Or.inr (Or.inl ⟨Or.inl rfl, fun _ _ => rfl⟩)
  · exact Or.inr (Or.inl ⟨Or.inr rfl, fun _ _ => rfl⟩)
  · exact Or.inr (Or.inr ⟨Or.inl rfl, fun _ _ => rfl⟩)
  · exact Or.inr (Or.inr ⟨Or.inr rfl, fun _ _ => rfl⟩)

/-- The features that are still to be changed have the arguments that they had. -/
theorem lookup_reform_of_mem {feature : String} {f : Value → Except SchemaError Value}
    {keys : List String} {features form : Entries Value} (hkeys : (feature :: keys).Nodup)
    (h : reform feature f features = .ok form) {key : String} (hkey : key ∈ keys) :
    Entries.lookup key form = Entries.lookup key features := by
  refine lookup_reform_ne h ?_
  rintro rfl
  exact (List.nodup_cons.1 hkeys).1 hkey

/-- Features whose arguments are changed alike have one form. -/
theorem reformAll_congr {f g : String → Value → Except SchemaError Value} {keys : List String}
    {features : Entries Value} (hkeys : keys.Nodup)
    (h : ∀ key ∈ keys, ∀ v, Entries.lookup key features = some v → f key v = g key v) :
    reformAll f keys features = reformAll g keys features := by
  induction keys generalizing features with
  | nil => rfl
  | cons feature keys ih =>
    have hfirst : reform feature (f feature) features = reform feature (g feature) features := by
      rw [reform, reform]
      split
      · rfl
      · rename_i v hv
        rw [h feature (List.mem_cons_self ..) v hv]
    rw [reformAll, reformAll, List.foldlM_cons, List.foldlM_cons, ← hfirst]
    cases hform : reform feature (f feature) features with
    | error e => rfl
    | ok form =>
      refine ih hkeys.of_cons fun key hkey v hv => h key (List.mem_cons_of_mem _ hkey) v ?_
      rw [← lookup_reform_of_mem hkeys hform hkey]
      exact hv

/-- Features that are not to be changed keep their arguments. -/
theorem lookup_reformAll_of_not_mem {f : String → Value → Except SchemaError Value}
    {keys : List String} {features form : Entries Value} (h : reformAll f keys features = .ok form)
    {key : String} (hkey : key ∉ keys) : Entries.lookup key form = Entries.lookup key features := by
  induction keys generalizing features with
  | nil => rw [← Except.ok.inj h]
  | cons feature keys ih =>
    rw [reformAll, List.foldlM_cons, Except.bind_eq_ok_iff] at h
    obtain ⟨next, hnext, h⟩ := h
    rw [List.mem_cons, not_or] at hkey
    rw [ih h hkey.2, lookup_reform_ne hnext hkey.1]

/-- Each feature that is changed is changed once. -/
theorem lookup_reformAll_of_mem {f : String → Value → Except SchemaError Value}
    {keys : List String} {features form : Entries Value} (hkeys : keys.Nodup)
    (h : reformAll f keys features = .ok form) {key : String} (hkey : key ∈ keys) :
    Option.Rel (fun a b => f key a = .ok b) (Entries.lookup key features)
      (Entries.lookup key form) := by
  induction keys generalizing features with
  | nil => cases hkey
  | cons feature keys ih =>
    rw [reformAll, List.foldlM_cons, Except.bind_eq_ok_iff] at h
    obtain ⟨next, hnext, h⟩ := h
    rcases List.mem_cons.1 hkey with rfl | hkey
    · rw [lookup_reformAll_of_not_mem h (List.nodup_cons.1 hkeys).1]
      exact lookup_reform_self hnext
    · rw [← lookup_reform_of_mem hkeys hnext hkey]
      exact ih hkeys.of_cons h hkey

/-- The form of features whose inner rules have the given forms. -/
structure FormOf (s : Source) (sub : Value → Except SchemaError Value)
    (features form : Entries Value) : Prop where
  plain : ∀ key, key ∉ ruleFeatures → Entries.lookup key form = Entries.lookup key features
  items : Option.Rel (fun a b => s.ruleMapForm sub a = .ok b)
    (Entries.lookup "items" features) (Entries.lookup "items" form)
  patternItems : Option.Rel (fun a b => s.ruleMapForm sub a = .ok b)
    (Entries.lookup "pattern_items" features) (Entries.lookup "pattern_items" form)
  keys : Option.Rel (fun a b => sub a = .ok b)
    (Entries.lookup "keys" features) (Entries.lookup "keys" form)
  values : Option.Rel (fun a b => sub a = .ok b)
    (Entries.lookup "values" features) (Entries.lookup "values" form)
  anyOf : Option.Rel (fun a b => ruleListForm sub a = .ok b)
    (Entries.lookup "any_of" features) (Entries.lookup "any_of" form)
  oneOf : Option.Rel (fun a b => ruleListForm sub a = .ok b)
    (Entries.lookup "one_of" features) (Entries.lookup "one_of" form)

theorem formOf_of_formWith {sub : Value → Except SchemaError Value}
    {features form : Entries Value} (h : s.formWith sub features = .ok form) :
    s.FormOf sub features form := by
  rw [formWith_eq_reformAll] at h
  have hdistinct : ruleFeatures.Nodup := by decide
  have hchanged : ∀ key ∈ ruleFeatures, Option.Rel (fun a b => s.change sub key a = .ok b)
      (Entries.lookup key features) (Entries.lookup key form) :=
    fun key hkey => lookup_reformAll_of_mem hdistinct h hkey
  exact {
    plain := fun key hkey => lookup_reformAll_of_not_mem h hkey
    items := hchanged "items" (by decide)
    patternItems := hchanged "pattern_items" (by decide)
    keys := hchanged "keys" (by decide)
    values := hchanged "values" (by decide)
    anyOf := hchanged "any_of" (by decide)
    oneOf := hchanged "one_of" (by decide) }

/-- The form of an inner rule to some depth of unfolding. -/
abbrev innerForm (s : Source) (depth : Nat) : Value → Except SchemaError Value :=
  subForm s.flattenInline (s.formOf s.flattenInline "" depth)

theorem FormIs.formOf {features : Entries Value} {form : Value} (h : s.FormIs features form) :
    ∃ depth fs, form = .mapping fs ∧ s.FormOf (s.innerForm depth) features fs := by
  obtain ⟨depth, h⟩ := h
  cases depth with
  | zero => cases h
  | succ depth =>
    obtain ⟨fs, hfs, rfl⟩ := formOf_succ_eq_ok_iff.1 h
    exact ⟨depth, fs, rfl, formOf_of_formWith hfs⟩

/-- A form agrees with the features on what holds no rules. -/
theorem FormIs.lookup {features fs : Entries Value} (h : s.FormIs features (.mapping fs))
    {key : String} (hkey : key ∉ ruleFeatures) :
    Entries.lookup key fs = Entries.lookup key features := by
  obtain ⟨depth, fs', heq, hform⟩ := h.formOf
  cases heq
  exact hform.plain key hkey

/-- Features of one form agree on what holds no rules. -/
theorem FormIs.lookup_eq {t : Source} {features features' : Entries Value} {form : Value}
    (h : s.FormIs features form) (h' : t.FormIs features' form) {key : String}
    (hkey : key ∉ ruleFeatures) : Entries.lookup key features = Entries.lookup key features' := by
  obtain ⟨-, fs, rfl, -⟩ := h.formOf
  rw [← h.lookup hkey, ← h'.lookup hkey]

/-- A form has a feature where the features have it. -/
theorem FormOf.isSome_lookup {sub : Value → Except SchemaError Value}
    {features form : Entries Value} (h : s.FormOf sub features form) (key : String) :
    (Entries.lookup key form).isSome = (Entries.lookup key features).isSome := by
  by_cases hkey : key ∈ ruleFeatures
  · simp only [ruleFeatures, List.mem_cons, List.not_mem_nil, or_false] at hkey
    rcases hkey with rfl | rfl | rfl | rfl | rfl | rfl
    · exact (Rule.isSome_eq h.items).symm
    · exact (Rule.isSome_eq h.patternItems).symm
    · exact (Rule.isSome_eq h.keys).symm
    · exact (Rule.isSome_eq h.values).symm
    · exact (Rule.isSome_eq h.anyOf).symm
    · exact (Rule.isSome_eq h.oneOf).symm
  · rw [h.plain key hkey]

theorem eq_nil_iff_lookup {es : Entries Value} :
    es = [] ↔ ∀ key, (Entries.lookup key es).isSome = false := by
  constructor
  · rintro rfl key
    rfl
  · intro h
    cases es with
    | nil => rfl
    | cons e es =>
      have := h e.1
      simp [Entries.lookup] at this

/-- Only an empty rule has an empty form. -/
theorem FormIs.eq_nil_iff {features fs : Entries Value}
    (h : s.FormIs features (.mapping fs)) : fs = [] ↔ features = [] := by
  obtain ⟨depth, fs', heq, hform⟩ := h.formOf
  cases heq
  rw [eq_nil_iff_lookup, eq_nil_iff_lookup]
  simp only [hform.isSome_lookup]

/-! ## Forms of the rules inside a rule -/

theorem exists_of_mapM {α β : Type} {f : α → Except SchemaError β} {as : List α} {bs : List β}
    (h : as.mapM f = .ok bs) {a : α} (ha : a ∈ as) : ∃ b, f a = .ok b := by
  induction as generalizing bs with
  | nil => cases ha
  | cons x as ih =>
    simp only [List.mapM_cons, Except.bind_eq_ok_iff] at h
    obtain ⟨b, hb, cs, hcs, -⟩ := h
    rcases List.mem_cons.1 ha with rfl | ha
    · exact ⟨b, hb⟩
    · exact ih hcs ha

theorem exists_of_ruleMapForm {sub : Value → Except SchemaError Value} {es : Entries Value}
    {b : Value} (h : s.ruleMapForm sub (.mapping es) = .ok b) {e : String × Value}
    (he : e ∈ es) (htext : ∀ n, e.2 ≠ .text n) : ∃ c, sub e.2 = .ok c := by
  simp only [ruleMapForm, Except.bind_eq_ok_iff] at h
  obtain ⟨forms, hforms, -⟩ := h
  obtain ⟨c, hc⟩ := exists_of_mapM hforms he
  obtain ⟨k, v⟩ := e
  cases v with
  | text n => exact absurd rfl (htext n)
  | _ =>
    simp only [entryForm, Except.bind_eq_ok_iff] at hc
    obtain ⟨form, hform, -⟩ := hc
    exact ⟨form, hform⟩

theorem exists_of_ruleListForm {sub : Value → Except SchemaError Value} {vs : List Value}
    {b : Value} (h : ruleListForm sub (.list vs) = .ok b) {v : Value} (hv : v ∈ vs) :
    ∃ c, sub v = .ok c := by
  simp only [ruleListForm, Except.bind_eq_ok_iff] at h
  obtain ⟨forms, hforms, -⟩ := h
  exact exists_of_mapM hforms hv

theorem exists_of_rel {R : Value → Value → Prop} {x y : Option Value} (h : Option.Rel R x y)
    {v : Value} (hx : x = some v) : ∃ b, R v b := by
  cases h with
  | none => cases hx
  | some hR =>
    rw [← Option.some.inj hx]
    exact ⟨_, hR⟩

/-- The rules inside a rule that has a form have forms. -/
theorem FormOf.exists_of_inside {sub : Value → Except SchemaError Value}
    {features form : Entries Value} (h : s.FormOf sub features form) {v : Value}
    (hv : Rule.Inside features v) (htext : ∀ n, v ≠ .text n) : ∃ b, sub v = .ok b := by
  cases hv with
  | entry hkey hlookup hmem =>
    rcases hkey with rfl | rfl
    · obtain ⟨b, hb⟩ := exists_of_rel h.items hlookup
      exact exists_of_ruleMapForm hb hmem htext
    · obtain ⟨b, hb⟩ := exists_of_rel h.patternItems hlookup
      exact exists_of_ruleMapForm hb hmem htext
  | argument hkey hlookup =>
    rcases hkey with rfl | rfl
    · exact exists_of_rel h.keys hlookup
    · exact exists_of_rel h.values hlookup
  | branch hkey hlookup hmem =>
    rcases hkey with rfl | rfl
    · obtain ⟨b, hb⟩ := exists_of_rel h.anyOf hlookup
      exact exists_of_ruleListForm hb hmem
    · obtain ⟨b, hb⟩ := exists_of_rel h.oneOf hlookup
      exact exists_of_ruleListForm hb hmem

end Source
end Rulebook
