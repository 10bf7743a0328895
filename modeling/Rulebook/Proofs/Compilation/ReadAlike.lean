import Rulebook.Proofs.Compilation.Inherited

/-!
# Rules that two sources read alike

A rule is read in a source: the rules it inherits from are looked up there, and so are
those that its entries refer to.  If all rules with some property are flattened alike in
two sources, and take up the same for their entries, then they have the same forms in
both; and so have the rules inside them, since such a property is passed on.
-/

namespace Rulebook
namespace Source

open Rule

variable {s t : Source} {features flat : Entries Value} {options : Options}

/-- An entry of the features refers to a named rule. -/
inductive Cites (features : Entries Value) (n : String) : Prop where
  | entry {key k : String} {es : Entries Value} (hkey : key = "items" ∨ key = "pattern_items")
      (hlookup : Entries.lookup key features = some (.mapping es)) (hmem : (k, .text n) ∈ es)

theorem Cites.inside {n : String} (h : Cites features n) : Inside features (.text n) := by
  obtain ⟨hkey, hlookup, hmem⟩ := h
  exact .entry hkey hlookup hmem

theorem Gathers.cites {P : Value → Prop} (h : Gathers P features) {n : String}
    (hn : Cites features n) : ∃ fs, P (.mapping fs) ∧ Cites fs n := by
  obtain ⟨hkey, hlookup, hmem⟩ := hn
  obtain ⟨fs, hfs, hstands⟩ := h.stands _ _ hlookup
  exact ⟨fs, hfs, .entry hkey hstands hmem⟩

/-! ## Forms from the same parts -/

theorem bind_congr_ok {α β : Type} {x : Except SchemaError α} {f g : α → Except SchemaError β}
    (h : ∀ a, x = .ok a → f a = g a) : (x >>= f) = x >>= g := by
  cases x with
  | error e => rfl
  | ok a => exact h a rfl

theorem mapM_congr {α β : Type} {f g : α → Except SchemaError β} {as : List α}
    (h : ∀ a ∈ as, f a = g a) : as.mapM f = as.mapM g := by
  induction as with
  | nil => rfl
  | cons a as ih =>
    rw [List.mapM_cons, List.mapM_cons, h a (List.mem_cons_self ..),
      ih fun b hb => h b (List.mem_cons_of_mem _ hb)]

theorem ruleMapForm_congr {f g : Value → Except SchemaError Value} {v : Value}
    (h : ∀ es, v = .mapping es → ∀ e ∈ es, s.entryForm f e = t.entryForm g e) :
    s.ruleMapForm f v = t.ruleMapForm g v := by
  cases v with
  | mapping es => rw [ruleMapForm, ruleMapForm, mapM_congr (h es rfl)]
  | _ => rfl

theorem ruleListForm_congr {f g : Value → Except SchemaError Value} {v : Value}
    (h : ∀ vs, v = .list vs → ∀ w ∈ vs, f w = g w) : ruleListForm f v = ruleListForm g v := by
  cases v with
  | list vs => rw [ruleListForm, ruleListForm, mapM_congr (h vs rfl)]
  | _ => rfl

/-- Forms agree if the entries that name rules and the rules inside do. -/
theorem formWith_congr {f g : Value → Except SchemaError Value}
    (hnamed : ∀ n, Cites features n → s.namedEntry n = t.namedEntry n)
    (hsub : ∀ v, Inside features v → f v = g v) :
    s.formWith f features = t.formWith g features := by
  rw [formWith_eq_reformAll, formWith_eq_reformAll]
  refine reformAll_congr (by decide) fun key hkey v hv => ?_
  rcases change_eq hkey with ⟨hkey, heq⟩ | ⟨hkey, heq⟩ | ⟨hkey, heq⟩
  · rw [heq, heq]
    refine ruleMapForm_congr fun es hes e he => ?_
    subst hes
    obtain ⟨k, w⟩ := e
    rw [entryForm, entryForm]
    split
    · rename_i n heq
      cases heq
      rw [hnamed n (.entry hkey hv he)]
    · rw [hsub w (.entry hkey hv he)]
  · rw [heq, heq]
    exact hsub v (.argument hkey hv)
  · rw [heq, heq]
    exact ruleListForm_congr fun vs hvs w hw =>
      hsub w (.branch hkey (hv.trans (congrArg some hvs)) hw)

/-! ## Rules with a property -/

/-- All rules with the property are read alike in both sources. -/
structure ReadAlike (P : Value → Prop) (s t : Source) : Prop where
  closed : s.Closed P
  flatten : ∀ fs label, P (.mapping fs) → s.flatten fs label = t.flatten fs label
  inline : ∀ fs, P (.mapping fs) → s.flattenInline fs = t.flattenInline fs
  taken : ∀ fs n, P (.mapping fs) → Cites fs n → s.taken n = t.taken n

namespace ReadAlike

variable {P : Value → Prop} (h : ReadAlike P s t)
include h

theorem flattens {n : String} {v : Value} (hv : P v) (hflat : s.Flattens n v flat) :
    t.Flattens n v flat := by
  cases hflat with
  | null => exact .null
  | @mapping fs _ hflat => exact .mapping ((h.flatten fs n hv).symm.trans hflat)

theorem unfolds {v : Value} (hv : P v) (hflat : s.Unfolds v flat) : t.Unfolds v flat := by
  obtain ⟨⟨fs, rfl, hfs⟩, hne⟩ := hflat
  exact ⟨⟨fs, rfl, (h.inline fs hv).symm.trans hfs⟩, hne⟩

/-- What a rule with the property is flattened to is gathered from such rules. -/
theorem gathers {fs : Entries Value} (hfs : P (.mapping fs))
    (hflat : s.flattenInline fs = .ok flat) : Gathers P flat :=
  (gathers_of (h.closed.sorted fs hfs) hfs).flattenFrom h.closed.sorted h.closed.base hflat

/-- A rule that occurs in the one source occurs in the other, if that has the same rules
and more. -/
theorem occurs (hbatch : s.batch ⊆ t.batch) (hoptions : s.options = t.options)
    (hoccurs : s.Occurs features options) : t.Occurs features options := by
  induction hoccurs with
  | named hmem hflat =>
    rw [hoptions]
    exact .named (hbatch hmem) (h.flattens (h.closed.named _ _ hmem) hflat)
  | inner houter hread hmem hunfolds ih =>
    obtain ⟨fs, hfs, hinside⟩ := (houter.gathers h.closed).inside (inside_of_subRule hread hmem)
    exact .inner ih hread hmem (h.unfolds (h.closed.inner _ _ hfs hinside) hunfolds)

theorem formOf_eq (hfeatures : Gathers P features) (depth : Nat) :
    s.formOf s.flattenInline "" depth features = t.formOf t.flattenInline "" depth features := by
  induction depth generalizing features with
  | zero => rfl
  | succ depth ih =>
    rw [formOf, formOf]
    refine congrArg (· >>= _) (formWith_congr (fun n hn => ?_) fun v hv => ?_)
    · obtain ⟨fs, hfs, hcites⟩ := hfeatures.cites hn
      rw [namedEntry, namedEntry, h.taken fs n hfs hcites]
    · obtain ⟨fs, hfs, hinside⟩ := hfeatures.inside hv
      cases v with
      | mapping es =>
        have hes : P (.mapping es) := h.closed.inner _ _ hfs hinside
        simp only [subForm, ← h.inline es hes]
        exact bind_congr_ok fun flat hflat => ih (h.gathers hes hflat)
      | _ => simp only [subForm]

/-- A rule has the same form in both sources. -/
theorem formIs_iff (hfeatures : Gathers P features) {form : Value} :
    s.FormIs features form ↔ t.FormIs features form := by
  rw [FormIs, FormIs]
  exact exists_congr fun depth => by rw [h.formOf_eq hfeatures depth]

theorem plain_iff {v : Value} (hv : P v) : s.Plain v ↔ t.Plain v := by
  constructor
  · rintro hplain fs flat form rfl hflat hform
    rw [← h.inline fs hv] at hflat
    exact hplain fs flat form rfl hflat ((h.formIs_iff (h.gathers hv hflat)).2 hform)
  · rintro hplain fs flat form rfl hflat hform
    have hform' := (h.formIs_iff (h.gathers hv hflat)).1 hform
    exact hplain fs flat form rfl ((h.inline fs hv).symm.trans hflat) hform'

/-- The rules of entries are plain in both sources if they are in one. -/
theorem plainEntries_iff (hfeatures : Gathers P features) :
    s.PlainEntries features ↔ t.PlainEntries features := by
  have hP : ∀ {key es e}, key ∈ ["items", "pattern_items"] →
      Entries.lookup key features = some (.mapping es) → e ∈ es → P e.2 := by
    intro key es e hkey hes he
    have hentry : Inside features e.2 := .entry (by simpa using hkey) hes he
    obtain ⟨gs, hgs, hinside⟩ := hfeatures.inside hentry
    exact h.closed.inner _ _ hgs hinside
  constructor
  · intro hplain key hkey es hes e he
    exact (h.plain_iff (hP hkey hes he)).1 (hplain key hkey es hes e he)
  · intro hplain key hkey es hes e he
    exact (h.plain_iff (hP hkey hes he)).2 (hplain key hkey es hes e he)

end ReadAlike

end Source
end Rulebook
