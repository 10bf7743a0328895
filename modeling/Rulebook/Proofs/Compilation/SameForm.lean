import Rulebook.Proofs.Compilation.Forms

/-!
# Rules of one form

Rules with the same form differ in nothing that matters: they read alike, up to
inner rules that have the same form again, and the entries that hold those say
the same.  So their stages differ in such inner rules only.

An entry that names a rule has a form of its own, and a rule written in place
could imitate it with features of the same keys.  Entries that do not are free.
-/

namespace Rulebook
namespace Source

variable {s t : Source}

/-- Inner rules of two sources that are the same value, or have the same form. -/
inductive SameRule (s t : Source) : Value → Value → Prop where
  | plain {v : Value} (h : ∀ fs, v ≠ .mapping fs) : SameRule s t v v
  | mapping {fs gs features features' : Entries Value} {form : Value}
      (h : s.flattenInline fs = .ok features) (h' : t.flattenInline gs = .ok features')
      (hform : s.FormIs features form) (hform' : t.FormIs features' form) :
      SameRule s t (.mapping fs) (.mapping gs)

/-- Rules of entries that also say the same about their entries. -/
inductive SameEntry (s t : Source) : Value → Value → Prop where
  | name {n : String} {form : Value} (h : s.namedEntry n = .ok form)
      (h' : t.namedEntry n = .ok form) : SameEntry s t (.text n) (.text n)
  | rule {v w : Value} (hv : ∀ n, v ≠ .text n) (h : SameRule s t v w) : SameEntry s t v w

theorem SameEntry.sameRule {v w : Value} (h : SameEntry s t v w) : SameRule s t v w := by
  cases h with
  | name _ _ => exact .plain (by simp)
  | rule _ h => exact h

theorem SameRule.passes_eq {v w : Value} (h : SameRule s t v w) :
    s.outlook.passes v = t.outlook.passes w := by
  cases h with
  | plain hv =>
    cases v with
    | mapping fs => exact absurd rfl (hv fs)
    | _ => rfl
  | mapping h h' hform hform' =>
    simp only [outlook, h, h']
    obtain ⟨-, es, rfl, -⟩ := hform.formOf
    have hiff := hform.eq_nil_iff.symm.trans hform'.eq_nil_iff
    rw [Bool.eq_iff_iff, List.isEmpty_iff, List.isEmpty_iff]
    exact hiff

/-! ## What entries say -/

theorem termsOf_congr {features features' : Entries Value}
    (h : ∀ key ∈ entryFeatures, Entries.lookup key features = Entries.lookup key features') :
    Rule.termsOf features = Rule.termsOf features' := by
  have hdefault := h "default" (by decide)
  have hrename := h "rename" (by decide)
  have hrequired := h "required" (by decide)
  have hsynonyms := h "synonyms" (by decide)
  have htext : Rule.readText features "" "rename" = Rule.readText features' "" "rename" := by
    rw [Rule.readText, Rule.readText, Rule.argument?_congr hrename]
  have hbool : Rule.readBool features "" "required" = Rule.readBool features' "" "required" := by
    rw [Rule.readBool, Rule.readBool, Rule.argument?_congr hrequired]
  have htexts : Rule.readTexts features "" "synonyms" =
      Rule.readTexts features' "" "synonyms" := by
    rw [Rule.readTexts, Rule.readTexts, Rule.readList, Rule.readList,
      Rule.argument?_congr hsynonyms]
  rw [Rule.termsOf, Rule.termsOf, htext, hbool, htexts, hdefault]

theorem FormIs.termsOf_eq {features fs : Entries Value} (h : s.FormIs features (.mapping fs)) :
    Rule.termsOf features = Rule.termsOf fs := by
  refine termsOf_congr ?_
  intro key hkey
  refine (h.lookup ?_).symm
  simp only [entryFeatures, List.mem_cons, List.not_mem_nil, or_false] at hkey
  rcases hkey with rfl | rfl | rfl | rfl <;> decide

/-- What a name says about its entry can be read off the form of the entry. -/
theorem namedEntry_terms {n : String} {form : Value} (h : s.namedEntry n = .ok form) :
    ∃ taken, form = .mapping [(entryTaken, .mapping taken), (entryName, .text n)] ∧
      s.outlook.terms (.text n) = Rule.termsOf taken := by
  simp only [namedEntry, Except.bind_eq_ok_iff] at h
  obtain ⟨es, htaken, h⟩ := h
  refine ⟨es, (Except.ok.inj h).symm, ?_⟩
  rw [taken] at htaken
  split at htaken
  · rename_i fs hfs
    simp only [Except.bind_eq_ok_iff] at htaken
    obtain ⟨flat, hflat, htaken⟩ := htaken
    rw [outlook_terms_of_lookup hfs hflat]
    refine termsOf_congr ?_
    intro key hkey
    rw [← Except.ok.inj htaken]
    exact ((Entries.lookup_filter _ _ _).trans (if_pos (List.contains_iff_mem.2 hkey))).symm
  · rename_i hnone
    rw [← Except.ok.inj htaken, outlook_terms_of_not_mapping hnone]
    rfl

theorem SameEntry.terms_eq {v w : Value} (h : SameEntry s t v w) :
    s.outlook.terms v = t.outlook.terms w := by
  cases h with
  | name h h' =>
    obtain ⟨taken, rfl, hterms⟩ := namedEntry_terms h
    obtain ⟨taken', heq, hterms'⟩ := namedEntry_terms h'
    cases heq
    rw [hterms, hterms']
  | rule hv h =>
    cases h with
    | plain hmapping =>
      cases v with
      | text n => exact absurd rfl (hv n)
      | mapping fs => exact absurd rfl (hmapping fs)
      | _ => rfl
    | mapping h h' hform hform' =>
      simp only [outlook, h, h']
      obtain ⟨-, es, rfl, -⟩ := hform.formOf
      rw [hform.termsOf_eq, hform'.termsOf_eq]

/-! ## Inner rules of one form -/

/-- The rule, if it is written in place, does not have the form of a named entry. -/
def Plain (s : Source) (v : Value) : Prop :=
  ∀ fs flat form, v = .mapping fs → s.flattenInline fs = .ok flat → s.FormIs flat form →
    ∀ taken name, form ≠ .mapping [(entryTaken, .mapping taken), (entryName, .text name)]

/-- The rules of entries are plain. -/
def PlainEntries (s : Source) (features : Entries Value) : Prop :=
  ∀ key ∈ ["items", "pattern_items"], ∀ es, Entries.lookup key features = some (.mapping es) →
    ∀ e ∈ es, s.Plain e.2

/-- Entries that have one form are names in both sources or in neither. -/
def NamesMatch (s t : Source) (features features' : Entries Value) : Prop :=
  ∀ key ∈ ["items", "pattern_items"], ∀ es, Entries.lookup key features = some (.mapping es) →
    ∀ fs, Entries.lookup key features' = some (.mapping fs) → ∀ e ∈ es, ∀ f ∈ fs,
      ∀ depth depth' c, s.entryForm (s.innerForm depth) e = .ok c →
        t.entryForm (t.innerForm depth') f = .ok c → ((∃ n, e.2 = .text n) ↔ ∃ n, f.2 = .text n)

variable {depth depth' : Nat}

theorem innerForm_mapping {fs : Entries Value} {b : Value}
    (h : s.innerForm depth (.mapping fs) = .ok b) :
    ∃ flat, s.flattenInline fs = .ok flat ∧ s.FormIs flat b := by
  simp only [innerForm, subForm, Except.bind_eq_ok_iff] at h
  obtain ⟨flat, hflat, hform⟩ := h
  exact ⟨flat, hflat, depth, hform⟩

theorem innerForm_plain {v b : Value} (hv : ∀ fs, v ≠ .mapping fs)
    (h : s.innerForm depth v = .ok b) : v = b := by
  cases v with
  | mapping fs => exact absurd rfl (hv fs)
  | _ => exact Except.ok.inj h

theorem sameRule_of_form {v w b : Value} (h : s.innerForm depth v = .ok b)
    (h' : t.innerForm depth' w = .ok b) : SameRule s t v w := by
  by_cases hv : ∃ fs, v = .mapping fs
  · obtain ⟨fs, rfl⟩ := hv
    obtain ⟨flat, hflat, hform⟩ := innerForm_mapping h
    obtain ⟨-, es, rfl, -⟩ := hform.formOf
    by_cases hw : ∃ gs, w = .mapping gs
    · obtain ⟨gs, rfl⟩ := hw
      obtain ⟨flat', hflat', hform'⟩ := innerForm_mapping h'
      exact .mapping hflat hflat' hform hform'
    · have hwb := innerForm_plain (not_exists.1 hw) h'
      exact absurd ⟨es, hwb⟩ hw
  · have hvb := innerForm_plain (not_exists.1 hv) h
    by_cases hw : ∃ gs, w = .mapping gs
    · obtain ⟨gs, rfl⟩ := hw
      obtain ⟨flat', hflat', hform'⟩ := innerForm_mapping h'
      obtain ⟨-, es, rfl, -⟩ := hform'.formOf
      exact absurd ⟨es, hvb⟩ hv
    · have hwb := innerForm_plain (not_exists.1 hw) h'
      rw [← hwb] at hvb
      subst hvb
      exact .plain (not_exists.1 hv)

theorem entryForm_text {k n : String} {c : String × Value}
    (h : s.entryForm (s.innerForm depth) (k, .text n) = .ok c) :
    k = c.1 ∧ s.namedEntry n = .ok c.2 := by
  simp only [entryForm, Except.bind_eq_ok_iff] at h
  obtain ⟨form, hform, h⟩ := h
  rw [← Except.ok.inj h]
  exact ⟨rfl, hform⟩

theorem entryForm_rule {k : String} {v : Value} {c : String × Value} (hv : ∀ n, v ≠ .text n)
    (h : s.entryForm (s.innerForm depth) (k, v) = .ok c) :
    k = c.1 ∧ s.innerForm depth v = .ok c.2 := by
  have hinner : ∃ form, s.innerForm depth v = .ok form ∧ (k, form) = c := by
    cases v with
    | text n => exact absurd rfl (hv n)
    | _ =>
      simp only [entryForm, Except.bind_eq_ok_iff] at h
      obtain ⟨form, hform, h⟩ := h
      exact ⟨form, hform, Except.ok.inj h⟩
  obtain ⟨form, hform, rfl⟩ := hinner
  exact ⟨rfl, hform⟩

/-- No rule that is plain has the form of a named entry. -/
theorem not_namedEntry_of_plain {n : String} {w b : Value} (hw : t.Plain w)
    (h : s.namedEntry n = .ok b) (hform : t.innerForm depth w = .ok b) : False := by
  obtain ⟨es, rfl, -⟩ := namedEntry_terms h
  by_cases hmapping : ∃ gs, w = .mapping gs
  · obtain ⟨gs, rfl⟩ := hmapping
    obtain ⟨flat, hflat, hform⟩ := innerForm_mapping hform
    exact hw gs flat _ rfl hflat hform es n rfl
  · have heq := innerForm_plain (not_exists.1 hmapping) hform
    exact hmapping ⟨_, heq⟩

theorem names_of_plain {e f c : String × Value} (hf : t.Plain f.2)
    (h : s.entryForm (s.innerForm depth) e = .ok c)
    (h' : t.entryForm (t.innerForm depth') f = .ok c) (hname : ∃ n, e.2 = .text n) :
    ∃ n, f.2 = .text n := by
  obtain ⟨k, v⟩ := e
  obtain ⟨l, w⟩ := f
  obtain ⟨n, rfl⟩ := hname
  by_contra hw
  obtain ⟨-, hnamed⟩ := entryForm_text h
  obtain ⟨-, hform⟩ := entryForm_rule (not_exists.1 hw) h'
  exact not_namedEntry_of_plain hf hnamed hform

/-- The entries of plain rules are not mistaken for each other. -/
theorem PlainEntries.namesMatch {features features' : Entries Value} (h : s.PlainEntries features)
    (h' : t.PlainEntries features') : NamesMatch s t features features' := by
  intro key hkey es hes fs hfs e he f hf depth depth' c hc hc'
  constructor
  · exact names_of_plain (h' key hkey fs hfs f hf) hc hc'
  · exact names_of_plain (h key hkey es hes e he) hc' hc

theorem sameEntry_of_form {e f c : String × Value}
    (hnames : (∃ n, e.2 = .text n) ↔ ∃ n, f.2 = .text n)
    (h : s.entryForm (s.innerForm depth) e = .ok c)
    (h' : t.entryForm (t.innerForm depth') f = .ok c) : e.1 = f.1 ∧ SameEntry s t e.2 f.2 := by
  obtain ⟨k, v⟩ := e
  obtain ⟨l, w⟩ := f
  by_cases hv : ∃ n, v = .text n
  · obtain ⟨m, rfl⟩ := hnames.1 hv
    obtain ⟨n, rfl⟩ := hv
    obtain ⟨rfl, hname⟩ := entryForm_text h
    obtain ⟨rfl, hname'⟩ := entryForm_text h'
    obtain ⟨es, heq, -⟩ := namedEntry_terms hname
    obtain ⟨es', heq', -⟩ := namedEntry_terms hname'
    rw [heq] at heq'
    cases heq'
    exact ⟨rfl, .name hname hname'⟩
  · have hw : ¬ ∃ n, w = .text n := fun hw => hv (hnames.2 hw)
    obtain ⟨rfl, hform⟩ := entryForm_rule (not_exists.1 hv) h
    obtain ⟨rfl, hform'⟩ := entryForm_rule (not_exists.1 hw) h'
    exact ⟨rfl, .rule (not_exists.1 hv) (sameRule_of_form hform hform')⟩

/-! ## Reading rules of one form -/

theorem forall₂_of_mapM {α β γ : Type} {f : α → Except SchemaError γ}
    {g : β → Except SchemaError γ} {R : α → β → Prop} {as : List α} {bs : List β} {cs : List γ}
    (h : as.mapM f = .ok cs) (h' : bs.mapM g = .ok cs)
    (hR : ∀ a ∈ as, ∀ b ∈ bs, ∀ c, f a = .ok c → g b = .ok c → R a b) :
    List.Forall₂ R as bs := by
  induction as generalizing bs cs with
  | nil =>
    rw [List.mapM_nil] at h
    cases h
    cases bs with
    | nil => exact .nil
    | cons b bs =>
      simp only [List.mapM_cons, Except.bind_eq_ok_iff] at h'
      obtain ⟨c, -, ds, -, h'⟩ := h'
      cases h'
  | cons a as ih =>
    simp only [List.mapM_cons, Except.bind_eq_ok_iff] at h
    obtain ⟨c, hc, ds, hds, h⟩ := h
    cases h
    cases bs with
    | nil =>
      rw [List.mapM_nil] at h'
      cases h'
    | cons b bs =>
      simp only [List.mapM_cons, Except.bind_eq_ok_iff] at h'
      obtain ⟨c', hc', ds', hds', h'⟩ := h'
      cases h'
      refine .cons (hR a (List.mem_cons_self ..) b (List.mem_cons_self ..) _ hc hc') ?_
      refine ih hds hds' ?_
      intro x hx y hy
      exact hR x (List.mem_cons_of_mem _ hx) y (List.mem_cons_of_mem _ hy)

theorem ruleMapForm_mapping {sub : Value → Except SchemaError Value} {v : Value}
    {forms : Entries Value} (h : s.ruleMapForm sub v = .ok (.mapping forms)) :
    ∃ es, v = .mapping es ∧ es.mapM (s.entryForm sub) = .ok forms := by
  cases v with
  | mapping es =>
    simp only [ruleMapForm, Except.bind_eq_ok_iff] at h
    obtain ⟨forms', hforms, h⟩ := h
    cases h
    exact ⟨es, rfl, hforms⟩
  | _ => cases h

theorem ruleMapForm_null {sub : Value → Except SchemaError Value} {v : Value}
    (h : s.ruleMapForm sub v = .ok .null) : v = .null := by
  cases v with
  | mapping es =>
    simp only [ruleMapForm, Except.bind_eq_ok_iff] at h
    obtain ⟨forms', -, h⟩ := h
    cases h
  | _ => exact Except.ok.inj h

theorem ruleListForm_list {sub : Value → Except SchemaError Value} {v : Value}
    {forms : List Value} (h : ruleListForm sub v = .ok (.list forms)) :
    ∃ vs, v = .list vs ∧ vs.mapM sub = .ok forms := by
  cases v with
  | list vs =>
    simp only [ruleListForm, Except.bind_eq_ok_iff] at h
    obtain ⟨forms', hforms, h⟩ := h
    cases h
    exact ⟨vs, rfl, hforms⟩
  | _ => cases h

theorem ruleListForm_null {sub : Value → Except SchemaError Value} {v : Value}
    (h : ruleListForm sub v = .ok .null) : v = .null := by
  cases v with
  | list vs =>
    simp only [ruleListForm, Except.bind_eq_ok_iff] at h
    obtain ⟨forms', -, h⟩ := h
    cases h
  | _ => exact Except.ok.inj h

variable {features features' fs : Entries Value} {key : String}

theorem readMapping_sameForm
    (h : Option.Rel (fun a b => s.ruleMapForm (s.innerForm depth) a = .ok b)
      (Entries.lookup key features) (Entries.lookup key fs))
    (h' : Option.Rel (fun a b => t.ruleMapForm (t.innerForm depth') a = .ok b)
      (Entries.lookup key features') (Entries.lookup key fs))
    (hnames : ∀ es, Entries.lookup key features = some (.mapping es) →
      ∀ fs, Entries.lookup key features' = some (.mapping fs) → ∀ e ∈ es, ∀ f ∈ fs,
        ∀ depth depth' c, s.entryForm (s.innerForm depth) e = .ok c →
          t.entryForm (t.innerForm depth') f = .ok c →
          ((∃ n, e.2 = .text n) ↔ ∃ n, f.2 = .text n))
    {a : Option (Entries Value)} (ha : Rule.readMapping features "" key = .ok a) :
    ∃ a', Rule.readMapping features' "" key = .ok a' ∧
      Option.Rel (List.Forall₂ fun e f => e.1 = f.1 ∧ SameEntry s t e.2 f.2) a a' := by
  rw [Rule.readMapping, Rule.argument?] at ha ⊢
  generalize Entries.lookup key fs = form at h h'
  generalize Entries.lookup key features = x at h hnames ha
  generalize Entries.lookup key features' = y at h' hnames ⊢
  cases h with
  | none =>
    cases h' with
    | none =>
      cases ha
      exact ⟨none, rfl, .none⟩
  | @some v b hv =>
    cases h' with
    | @some w _ hw =>
      cases v with
      | null =>
        cases Except.ok.inj hv
        cases ruleMapForm_null hw
        cases ha
        exact ⟨none, rfl, .none⟩
      | mapping es =>
        simp only [ruleMapForm, Except.bind_eq_ok_iff] at hv
        obtain ⟨forms, hforms, hv⟩ := hv
        cases hv
        obtain ⟨es', rfl, hforms'⟩ := ruleMapForm_mapping hw
        cases ha
        refine ⟨some es', rfl, .some ?_⟩
        refine forall₂_of_mapM hforms hforms' ?_
        intro e he f hf c hc hc'
        exact sameEntry_of_form (hnames es rfl es' rfl e he f hf _ _ c hc hc') hc hc'
      | _ => cases ha

theorem readList_sameForm
    (h : Option.Rel (fun a b => ruleListForm (s.innerForm depth) a = .ok b)
      (Entries.lookup key features) (Entries.lookup key fs))
    (h' : Option.Rel (fun a b => ruleListForm (t.innerForm depth') a = .ok b)
      (Entries.lookup key features') (Entries.lookup key fs))
    {a : Option (List Value)} (ha : Rule.readList features "" key = .ok a) :
    ∃ a', Rule.readList features' "" key = .ok a' ∧
      Option.Rel (List.Forall₂ (SameRule s t)) a a' := by
  rw [Rule.readList, Rule.argument?] at ha ⊢
  generalize Entries.lookup key fs = form at h h'
  generalize Entries.lookup key features = x at h ha
  generalize Entries.lookup key features' = y at h' ⊢
  cases h with
  | none =>
    cases h' with
    | none =>
      cases ha
      exact ⟨none, rfl, .none⟩
  | @some v b hv =>
    cases h' with
    | @some w _ hw =>
      cases v with
      | null =>
        cases Except.ok.inj hv
        cases ruleListForm_null hw
        cases ha
        exact ⟨none, rfl, .none⟩
      | list vs =>
        simp only [ruleListForm, Except.bind_eq_ok_iff] at hv
        obtain ⟨forms, hforms, hv⟩ := hv
        cases hv
        obtain ⟨ws, rfl, hforms'⟩ := ruleListForm_list hw
        cases ha
        refine ⟨some ws, rfl, .some ?_⟩
        refine forall₂_of_mapM hforms hforms' ?_
        intro v _ w _ c hc hc'
        exact sameRule_of_form hc hc'
      | _ => cases ha

theorem sameRule_of_rel
    (h : Option.Rel (fun a b => s.innerForm depth a = .ok b)
      (Entries.lookup key features) (Entries.lookup key fs))
    (h' : Option.Rel (fun a b => t.innerForm depth' a = .ok b)
      (Entries.lookup key features') (Entries.lookup key fs)) :
    Option.Rel (SameRule s t) (Entries.lookup key features) (Entries.lookup key features') := by
  generalize Entries.lookup key fs = form at h h'
  generalize Entries.lookup key features = x at h ⊢
  generalize Entries.lookup key features' = y at h' ⊢
  cases h with
  | none =>
    cases h' with
    | none => exact .none
  | some hv =>
    cases h' with
    | some hw => exact .some (sameRule_of_form hv hw)

/-- Rules of one form differ in inner rules of one form only. -/
theorem rel_of_sameForm {form : Value} (h : s.FormIs features form)
    (h' : t.FormIs features' form) (hnames : NamesMatch s t features features') {r : Rule}
    (hr : Rule.read? features = some r) :
    ∃ r', Rule.read? features' = some r' ∧ Rule.Rel (SameEntry s t) (SameRule s t) r r' := by
  obtain ⟨depth, fs, rfl, hform⟩ := h.formOf
  obtain ⟨depth', fs', heq, hform'⟩ := h'.formOf
  cases heq
  have hread : Rule.read features "" = .ok r := Rule.read_of_read? hr
  have hreads := Rule.read_eq_ok_iff.1 hread
  have hsame : ∀ {key}, key ∉ ruleFeatures →
      Entries.lookup key features = Entries.lookup key features' := h.lookup_eq h'
  obtain ⟨items, hitems, hitemsRel⟩ := readMapping_sameForm hform.items hform'.items
    (hnames "items" (by decide)) hreads.items
  obtain ⟨patternItems, hpatternItems, hpatternItemsRel⟩ :=
    readMapping_sameForm hform.patternItems hform'.patternItems
      (hnames "pattern_items" (by decide)) hreads.patternItems
  obtain ⟨anyOf, hanyOf, hanyOfRel⟩ := readList_sameForm hform.anyOf hform'.anyOf hreads.anyOf
  obtain ⟨oneOf, honeOf, honeOfRel⟩ := readList_sameForm hform.oneOf hform'.oneOf hreads.oneOf
  have hkeys := sameRule_of_rel hform.keys hform'.keys
  have hvalues := sameRule_of_rel hform.values hform'.values
  rw [hreads.keys] at hkeys
  rw [hreads.values] at hvalues
  obtain ⟨nullable, hnullable, hnullable'⟩ := hreads.nullable
  obtain ⟨positive, hpositive, hpositive'⟩ := hreads.positiveExamples
  obtain ⟨negative, hnegative, hnegative'⟩ := hreads.negativeExamples
  have hreads' : Rule.Reads features' "" { r with
      items, patternItems, anyOf, oneOf
      keys := Entries.lookup "keys" features'
      values := Entries.lookup "values" features' } := {
    kind := Rule.readKind_congr (hsame (by decide)) hreads.kind ""
    coerce := Rule.readText_congr (hsame (by decide)) hreads.coerce ""
    postCoerce := Rule.readText_congr (hsame (by decide)) hreads.postCoerce ""
    nullable := ⟨nullable, Rule.readBool_congr (hsame (by decide)) hnullable "", hnullable'⟩
    ifNull := by rw [← hsame (by decide), hreads.ifNull]
    default := by rw [← hsame (by decide), hreads.default]
    required := Rule.readBool_congr (hsame (by decide)) hreads.required ""
    rename := Rule.readText_congr (hsame (by decide)) hreads.rename ""
    synonyms := Rule.readTexts_congr (hsame (by decide)) hreads.synonyms ""
    regex := Rule.readText_congr (hsame (by decide)) hreads.regex ""
    allowed := Rule.readList_congr (hsame (by decide)) hreads.allowed ""
    remap := by rw [← Rule.argument?_congr (hsame (by decide)), hreads.remap]
    min := by rw [← Rule.argument?_congr (hsame (by decide)), hreads.min]
    max := by rw [← Rule.argument?_congr (hsame (by decide)), hreads.max]
    minLen := Rule.readCount_congr (hsame (by decide)) hreads.minLen ""
    maxLen := Rule.readCount_congr (hsame (by decide)) hreads.maxLen ""
    items := hitems
    patternItems := hpatternItems
    keys := rfl
    values := rfl
    anyOf := hanyOf
    oneOf := honeOf
    allowUnknown := Rule.readBool_congr (hsame (by decide)) hreads.allowUnknown ""
    purgeUnknown := Rule.readBool_congr (hsame (by decide)) hreads.purgeUnknown ""
    requireAll := Rule.readBool_congr (hsame (by decide)) hreads.requireAll ""
    positiveExamples :=
      ⟨positive, Rule.readList_congr (hsame (by decide)) hpositive "", hpositive'⟩
    negativeExamples :=
      ⟨negative, Rule.readList_congr (hsame (by decide)) hnegative "", hnegative'⟩ }
  refine ⟨_, Rule.read?_of_read (Rule.read_eq_ok_iff.2 hreads'), ?_⟩
  exact ⟨rfl, hitemsRel, hpatternItemsRel, hkeys, hvalues, hanyOfRel, honeOfRel⟩

/-! ## Stages of rules of one form -/

theorem policy_eq_iff {o o' : Options} : SchemaId.policy o = SchemaId.policy o' ↔
    o.allowUnknown = o'.allowUnknown ∧ o.breakLoops = o'.breakLoops ∧
      o.purgeUnknown = o'.purgeUnknown ∧ o.requireAll = o'.requireAll := by
  simp [SchemaId.policy]

/-- Overriding keeps the agreement of options. -/
theorem policy_overriddenBy {o o' : Options} (h : SchemaId.policy o = SchemaId.policy o')
    (overrides : OptionsOverride) :
    SchemaId.policy (o.overriddenBy overrides) = SchemaId.policy (o'.overriddenBy overrides) := by
  obtain ⟨hallow, hbreak, hpurge, hrequire⟩ := policy_eq_iff.1 h
  refine policy_eq_iff.2 ⟨?_, hbreak, ?_, ?_⟩
  · simp only [Options.overriddenBy, hallow]
  · simp only [Options.overriddenBy, hpurge]
  · simp only [Options.overriddenBy, hrequire]

theorem of_eq_of_policy {o o' : Options} (h : SchemaId.policy o = SchemaId.policy o')
    (digest : Digest) (form : Value) : SchemaId.of digest form o = SchemaId.of digest form o' := by
  rw [SchemaId.of, SchemaId.of, SchemaId.subject, SchemaId.subject, h]

/-- What refers to a rule refers to each rule of its form. -/
theorem Refers.of_sameRule (hdigest : s.digest = t.digest) {T : Links} {v w : Value} {c : Callee}
    {o o' : Options} (hv : s.Refers T o v c) (h : SameRule s t v w)
    (hpolicy : SchemaId.policy o = SchemaId.policy o') : t.Refers T o' w c := by
  cases h with
  | plain hmapping =>
    cases hv with
    | null => exact .null
    | name hl => exact .name hl
    | empty _ => exact absurd rfl (hmapping _)
    | rule hflat _ _ =>
      obtain ⟨fs, rfl, -⟩ := hflat.flatten
      exact absurd rfl (hmapping fs)
  | @mapping fs gs features features' form hfeatures hfeatures' hform hform' =>
    obtain ⟨-, es, rfl, -⟩ := hform.formOf
    have hnil : features = [] ↔ features' = [] := hform.eq_nil_iff.symm.trans hform'.eq_nil_iff
    cases hv with
    | empty hflat =>
      rw [hfeatures] at hflat
      rw [hnil.1 (Except.ok.inj hflat)] at hfeatures'
      exact .empty hfeatures'
    | @rule _ flat form l hflat hform'' hl =>
      obtain ⟨⟨_, heq, hflat⟩, hne⟩ := hflat
      cases heq
      rw [hfeatures] at hflat
      have hsame := Except.ok.inj hflat
      subst hsame
      rw [hform''.unique hform, of_eq_of_policy hpolicy, hdigest] at hl
      exact .rule ⟨⟨gs, rfl, hfeatures'⟩, fun hempty => hne (hnil.2 hempty)⟩ hform' hl

/-- Rules of one form, under options that agree, have stages that differ in inner
rules of one form only. -/
theorem stages_of_sameForm {form : Value} (h : s.FormIs features form)
    (h' : t.FormIs features' form) (hnames : NamesMatch s t features features')
    (hcoercions : s.coercions = t.coercions) {o o' : Options}
    (hpolicy : SchemaId.policy o = SchemaId.policy o') {r : Rule} {plan : List (Step Value)}
    (hr : Rule.read? features = some r)
    (hplan : r.stages s.coercions s.outlook (o.overriddenBy r.overrides) = some plan) :
    ∃ r' plan', Rule.read? features' = some r' ∧ r.overrides = r'.overrides ∧
      r'.stages t.coercions t.outlook (o'.overriddenBy r'.overrides) = some plan' ∧
      List.Forall₂ (Step.Rel fun v w => SameRule s t v w ∧ w ∈ r'.subRules) plan plan' := by
  obtain ⟨r', hr', hrel⟩ := rel_of_sameForm h h' hnames hr
  have hoverrides : r.overrides = r'.overrides := hrel.field Rule.overrides fun _ => rfl
  obtain ⟨hallow, -, hpurge, hrequire⟩ := policy_eq_iff.1 (policy_overriddenBy hpolicy r.overrides)
  have hunknown : (o.overriddenBy r.overrides).unknownKeys =
      (o'.overriddenBy r.overrides).unknownKeys := by
    rw [Options.unknownKeys, Options.unknownKeys, hallow, hpurge]
  have hstages := Rule.stages_rel hrel.and_mem (fun v w hvw => ⟨hvw.1.sameRule, hvw.2⟩)
    (fun v w hvw => hvw.1.terms_eq) (fun v w hvw => hvw.1.passes_eq) hrequire hunknown
    s.coercions
  rw [hplan, hcoercions, hoverrides] at hstages
  generalize hplan' : r'.stages t.coercions t.outlook (o'.overriddenBy r'.overrides) = x at hstages
  cases hstages with
  | @some _ plan' hsteps => exact ⟨r', plan', hr', hoverrides, hplan', hsteps⟩

/-- What a rule is compiled to goes with the stages of each rule of its form. -/
theorem Emits.steps_of_sameForm (hdigest : s.digest = t.digest)
    (hcoercions : s.coercions = t.coercions) {form : Value} (h : s.FormIs features form)
    (h' : t.FormIs features' form) (hnames : NamesMatch s t features features') {o o' : Options}
    (hpolicy : SchemaId.policy o = SchemaId.policy o') {T : Links} {p : Program}
    (hp : s.Emits T features o p) :
    p.breakLoops = o'.breakLoops ∧ ∃ r plan, Rule.read? features' = some r ∧
      r.stages t.coercions t.outlook (o'.overriddenBy r.overrides) = some plan ∧
      List.Forall₂ (Step.Rel fun w c =>
        t.Refers T (o'.overriddenBy r.overrides) w c ∧ w ∈ r.subRules) plan p.steps := by
  obtain ⟨hbreak, r, plan, hread, hplan, hsteps⟩ := hp
  obtain ⟨r', plan', hread', hoverrides, hplan', hrel⟩ :=
    stages_of_sameForm h h' hnames hcoercions hpolicy hread hplan
  refine ⟨hbreak.trans (policy_eq_iff.1 hpolicy).2.1, r', plan', hread', hplan', ?_⟩
  have hinside := policy_overriddenBy hpolicy r.overrides
  have hback : List.Forall₂ (Step.Rel fun w v => SameRule s t v w ∧ w ∈ r'.subRules) plan' plan :=
    hrel.flip.imp fun _ _ hst => hst.flip
  refine (Step.Rel.forall₂Comp hback hsteps).imp fun _ _ hst => hst.mono ?_
  rintro w c ⟨v, ⟨hsame, hmem⟩, hrefers⟩
  rw [← hoverrides]
  exact ⟨hrefers.of_sameRule hdigest hsame hinside, hmem⟩

/-- What a rule is compiled to is what each rule of its form comes to, with the same links. -/
theorem Emits.of_sameForm (hdigest : s.digest = t.digest)
    (hcoercions : s.coercions = t.coercions) {form : Value} (h : s.FormIs features form)
    (h' : t.FormIs features' form) (hnames : NamesMatch s t features features') {o o' : Options}
    (hpolicy : SchemaId.policy o = SchemaId.policy o') {T : Links} {p : Program}
    (hp : s.Emits T features o p) : t.Emits T features' o' p := by
  obtain ⟨hbreak, r, plan, hread, hplan, hsteps⟩ :=
    hp.steps_of_sameForm hdigest hcoercions h h' hnames hpolicy
  exact ⟨hbreak, r, plan, hread, hplan, hsteps.imp fun _ _ hst => hst.mono fun _ _ hwc => hwc.1⟩

end Source
end Rulebook
