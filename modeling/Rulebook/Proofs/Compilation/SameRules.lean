import Rulebook.Proofs.Compilation.Unfolding

/-!
# What rules come to depends on the rules only

Flattening and unfolding are cut off at depths that are counted from the rules there
are.  Where they are not cut off they come to the same at every greater depth.  So two
sources in which the same names stand for the same rules flatten all features alike,
and a rule that has a form in the one has that form in the other, however many rules
there are besides.
-/

namespace Rulebook

variable {α β : Type}

/-- The first computation is cut off, or comes to the same as the second one. -/
def GoesOn (x y : Except SchemaError α) : Prop := (∃ label, x = .error (.endless label)) ∨ x = y

namespace GoesOn

theorem refl (x : Except SchemaError α) : GoesOn x x := Or.inr rfl

theorem eq_of_ends {x y : Except SchemaError α} (h : GoesOn x y) (hx : Ends x) : x = y := by
  rcases h with ⟨label, h⟩ | h
  · exact absurd h (hx label)
  · exact h

theorem bind {x y : Except SchemaError α} {f g : α → Except SchemaError β} (h : GoesOn x y)
    (hf : ∀ a, GoesOn (f a) (g a)) : GoesOn (x >>= f) (y >>= g) := by
  rcases h with ⟨label, rfl⟩ | rfl
  · exact Or.inl ⟨label, rfl⟩
  · cases x with
    | error e => exact Or.inr rfl
    | ok a => exact hf a

theorem mapM {f g : α → Except SchemaError β} (h : ∀ a, GoesOn (f a) (g a)) (as : List α) :
    GoesOn (as.mapM f) (as.mapM g) := by
  induction as with
  | nil => exact refl _
  | cons a as ih =>
    rw [List.mapM_cons, List.mapM_cons]
    exact (h a).bind fun _ => ih.bind fun _ => refl _

end GoesOn

namespace Source

open Rule

variable {s t : Source} {label : String}

/-! ## Deeper unfolding -/

theorem reform_goesOn {feature : String} {f g : Value → Except SchemaError Value}
    (h : ∀ v, GoesOn (f v) (g v)) (form : Entries Value) :
    GoesOn (reform feature f form) (reform feature g form) := by
  rw [reform, reform]
  split
  · exact .refl _
  · exact (h _).bind fun _ => .refl _

theorem ruleMapForm_goesOn {f g : Value → Except SchemaError Value}
    (h : ∀ v, GoesOn (f v) (g v)) (v : Value) :
    GoesOn (s.ruleMapForm f v) (s.ruleMapForm g v) := by
  cases v with
  | mapping es =>
    refine (GoesOn.mapM (fun e => ?_) es).bind fun _ => .refl _
    rw [entryForm, entryForm]
    split
    · exact .refl _
    · exact (h _).bind fun _ => .refl _
  | _ => exact .refl _

theorem ruleListForm_goesOn {f g : Value → Except SchemaError Value}
    (h : ∀ v, GoesOn (f v) (g v)) (v : Value) :
    GoesOn (ruleListForm f v) (ruleListForm g v) := by
  cases v with
  | list vs => exact (GoesOn.mapM h vs).bind fun _ => .refl _
  | _ => exact .refl _

theorem formWith_goesOn {f g : Value → Except SchemaError Value}
    (h : ∀ v, GoesOn (f v) (g v)) (features : Entries Value) :
    GoesOn (s.formWith f features) (s.formWith g features) := by
  rw [formWith, formWith]
  refine (reform_goesOn (ruleMapForm_goesOn h) _).bind fun _ => ?_
  refine (reform_goesOn (ruleMapForm_goesOn h) _).bind fun _ => ?_
  refine (reform_goesOn h _).bind fun _ => ?_
  refine (reform_goesOn h _).bind fun _ => ?_
  refine (reform_goesOn (ruleListForm_goesOn h) _).bind fun _ => ?_
  exact reform_goesOn (ruleListForm_goesOn h) _

/-- A deeper unfolding goes on. -/
theorem formOf_goesOn (flatten : Entries Value → Except SchemaError (Entries Value))
    (label : String) {depth depth' : Nat} (hle : depth ≤ depth') (features : Entries Value) :
    GoesOn (s.formOf flatten label depth features) (s.formOf flatten label depth' features) := by
  induction depth generalizing depth' features with
  | zero => exact Or.inl ⟨label, rfl⟩
  | succ depth ih =>
    obtain ⟨depth', rfl⟩ : ∃ n, depth' = n + 1 := ⟨depth' - 1, by omega⟩
    rw [formOf, formOf]
    refine (formWith_goesOn (fun v => ?_) features).bind fun _ => .refl _
    cases v with
    | mapping es => exact (GoesOn.refl _).bind (ih (Nat.le_of_succ_le_succ hle))
    | _ => exact .refl _

/-- A chain of bases that is followed further goes on. -/
theorem flattenFrom_goesOn {fuel fuel' : Nat} (hle : fuel ≤ fuel') (chain : List String)
    (features : Entries Value) :
    GoesOn (s.flattenFrom label fuel chain features) (s.flattenFrom label fuel' chain features) := by
  induction fuel generalizing fuel' chain features with
  | zero => exact Or.inl ⟨label, rfl⟩
  | succ fuel ih =>
    obtain ⟨fuel', rfl⟩ : ∃ n, fuel' = n + 1 := ⟨fuel' - 1, by omega⟩
    rw [flattenFrom, flattenFrom]
    split
    · exact .refl _
    · exact .refl _
    · split
      · exact .refl _
      · split
        · exact ih (Nat.le_of_succ_le_succ hle) _ _
        · exact .refl _
        · exact .refl _
    · exact .refl _

/-! ## The same rules -/

/-- The same names stand for the same rules. -/
def SameRules (s t : Source) : Prop := ∀ name, s.lookup name = t.lookup name

theorem SameRules.symm (h : SameRules s t) : SameRules t s := fun name => (h name).symm

theorem SameRules.flattenFrom_eq (h : SameRules s t) (fuel : Nat) (chain : List String)
    (features : Entries Value) :
    s.flattenFrom label fuel chain features = t.flattenFrom label fuel chain features := by
  induction fuel generalizing chain features with
  | zero => rfl
  | succ fuel ih =>
    rw [flattenFrom, flattenFrom]
    simp only [h _, ih]

/-- Chains of bases that are not cut off come to the same, if they do to each depth. -/
theorem flattenFrom_eq_of_ends {chain : List String} {features : Entries Value}
    (heq : ∀ fuel, s.flattenFrom label fuel chain features =
      t.flattenFrom label fuel chain features) {fuel fuel' : Nat}
    (hs : Ends (s.flattenFrom label fuel chain features))
    (ht : Ends (t.flattenFrom label fuel' chain features)) :
    s.flattenFrom label fuel chain features = t.flattenFrom label fuel' chain features := by
  have hs' := (flattenFrom_goesOn (Nat.le_max_left fuel fuel') chain features).eq_of_ends hs
  have ht' := (flattenFrom_goesOn (Nat.le_max_right fuel fuel') chain features).eq_of_ends ht
  exact hs'.trans ((heq _).trans ht'.symm)

/-- The same features are flattened alike. -/
theorem SameRules.flatten_eq (h : SameRules s t) (features : Entries Value) (label : String) :
    s.flatten features label = t.flatten features label :=
  flattenFrom_eq_of_ends (fun fuel => h.flattenFrom_eq fuel _ _) (ends_flatten features label)
    (ends_flatten features label)

theorem ends_flattenInline (features : Entries Value) : Ends (s.flattenInline features) :=
  ends_flattenFrom .nil (List.nil_subset _) (Nat.le_refl _)

theorem SameRules.flattenInline_eq (h : SameRules s t) (features : Entries Value) :
    s.flattenInline features = t.flattenInline features :=
  flattenFrom_eq_of_ends (fun fuel => h.flattenFrom_eq fuel _ _) (ends_flattenInline features)
    (ends_flattenInline features)

theorem SameRules.flattens (h : SameRules s t) {n : String} {v : Value} {flat : Entries Value}
    (hflat : s.Flattens n v flat) : t.Flattens n v flat := by
  cases hflat with
  | null => exact .null
  | mapping hflat => exact .mapping ((h.flatten_eq _ _).symm.trans hflat)

theorem SameRules.taken_eq (h : SameRules s t) (name : String) : s.taken name = t.taken name := by
  rw [taken, taken, h name]
  split
  · rw [h.flatten_eq]
  · rfl

theorem SameRules.formWith_eq (h : SameRules s t) (sub : Value → Except SchemaError Value)
    (features : Entries Value) : s.formWith sub features = t.formWith sub features := by
  have hentry : s.entryForm sub = t.entryForm sub := by
    funext e
    simp only [entryForm, namedEntry, h.taken_eq]
  have hmap : s.ruleMapForm sub = t.ruleMapForm sub := by
    funext v
    cases v with
    | mapping es => rw [ruleMapForm, ruleMapForm, hentry]
    | _ => rfl
  rw [formWith, formWith, hmap]

/-- The same features are unfolded alike to every depth. -/
theorem SameRules.formOf_eq (h : SameRules s t)
    (flatten : Entries Value → Except SchemaError (Entries Value)) (depth : Nat) :
    s.formOf flatten label depth = t.formOf flatten label depth := by
  induction depth with
  | zero => rfl
  | succ depth ih =>
    funext features
    rw [formOf, formOf, ih, h.formWith_eq]

theorem SameRules.contains (h : SameRules s t) {features inner : Entries Value}
    (hcontains : s.Contains features inner) : t.Contains features inner := by
  obtain ⟨es, hes, hflat⟩ := hcontains
  exact ⟨es, hes, (h.flattenInline_eq es).symm.trans hflat⟩

theorem SameRules.recurs (h : SameRules s t) {features : Entries Value}
    (hrecurs : s.Recurs features) : t.Recurs features := by
  obtain ⟨inner, hreached, hcycle⟩ := hrecurs
  have hle : s.Contains ≤ t.Contains := fun _ _ => h.contains
  exact ⟨inner, Relation.ReflTransGen.mono hle _ _ hreached,
    Relation.TransGen.mono hle _ _ hcycle⟩

/-! ## Forms -/

theorem Recurs.exists_contains {features : Entries Value} (h : s.Recurs features) :
    ∃ inner, s.Contains features inner ∧ s.Recurs inner := by
  obtain ⟨last, hreached, hcycle⟩ := h
  rcases Relation.ReflTransGen.cases_head hreached with rfl | ⟨inner, hfirst, hrest⟩
  · obtain ⟨inner, hfirst, hrest⟩ := Relation.TransGen.head'_iff.1 hcycle
    exact ⟨inner, hfirst, features, hrest, hcycle⟩
  · exact ⟨inner, hfirst, last, hrest, hcycle⟩

/-- A rule that has a form does not come to contain itself. -/
theorem FormIs.not_recurs {features : Entries Value} {form : Value} (h : s.FormIs features form) :
    ¬ s.Recurs features := by
  obtain ⟨depth, h⟩ := h
  induction depth generalizing features form with
  | zero => cases h
  | succ depth ih =>
    intro hrecurs
    obtain ⟨inner, ⟨es, hes, hflat⟩, hinner⟩ := hrecurs.exists_contains
    obtain ⟨fs, hfs, -⟩ := formOf_succ_eq_ok_iff.1 h
    obtain ⟨sub, hsub⟩ := (formOf_of_formWith hfs).exists_of_inside hes (fun _ heq => by cases heq)
    simp only [subForm, hflat, Except.bind_eq_ok_iff, Except.ok.injEq] at hsub
    obtain ⟨_, rfl, hform⟩ := hsub
    exact ih hform hinner

/-- A rule is unfolded among the same rules, to the depth counted from the first ones. -/
theorem SameRules.form_eq_formOf (h : SameRules s t) (features : Entries Value) (label : String) :
    s.form features label =
      t.formOf (fun es => t.flatten es label) label (s.formDepth features) features := by
  have hflatten : (fun es => s.flatten es label) = fun es => t.flatten es label := by
    funext es
    exact h.flatten_eq es label
  rw [form, hflatten, h.formOf_eq]

/-- The same features are unfolded alike where the depth is the same. -/
theorem SameRules.form_eq (h : SameRules s t) {features : Entries Value}
    (hdepth : s.formDepth features = t.formDepth features) (label : String) :
    s.form features label = t.form features label := by
  rw [h.form_eq_formOf, form, hdepth]

/-- A rule that has a form has the same form among the same rules. -/
theorem SameRules.form_eq_ok (h : SameRules s t) {features : Entries Value} {form : Value}
    (hform : s.form features label = .ok form) : t.form features label = .ok form := by
  have hrecurs : ¬ t.Recurs features := fun hrecurs =>
    (formIs_of_form hform).not_recurs (h.symm.recurs hrecurs)
  rw [h.form_eq_formOf] at hform
  -- Neither depth cuts the unfolding off.
  have hs := (formOf_goesOn (s := t) (fun es => t.flatten es label) label
    (Nat.le_max_left (s.formDepth features) (t.formDepth features)) features).eq_of_ends
    (hform ▸ ends_ok form)
  have ht := (formOf_goesOn (s := t) (fun es => t.flatten es label) label
    (Nat.le_max_right (s.formDepth features) (t.formDepth features)) features).eq_of_ends
    (ends_form hrecurs label)
  exact ht.trans (hs.symm.trans hform)

end Source
end Rulebook
