import Rulebook.Proofs.Compilation.Links

/-!
# Compiling one rule

What a compilation of one rule does, function by function: it hands out links for
the names and the inner rules it meets, and it gives steps that are the stages of
the rule with callees that refer to those inner rules.
-/

namespace Rulebook
namespace Source

open Compile

variable {s : Source} {st st' : Staging} {options : Options} {label : String}

variable (s) in
/-- The inner rules among some values may be put on the worklist. -/
def Permits (options : Options) (vs : List Value) : Prop :=
  ∀ v ∈ vs, ∀ flat, s.Unfolds v flat → s.Occurs flat options

theorem Permits.mono {vs ws : List Value} (h : s.Permits options vs) (hsub : ws ⊆ vs) :
    s.Permits options ws := by
  intro v hv flat hflat
  exact h v (hsub hv) flat hflat

/-! ## Links -/

theorem linkOfName_yields {n : String} {l : Link} (h : (s.linkOfName n).Yields st l st') :
    s.Advance st st' ∧ (s.links st').name n = some l := by
  rw [linkOfName] at h
  cases hold : Entries.lookup n s.nameLinks with
  | some l' =>
    simp only [hold, yields_pure] at h
    obtain ⟨rfl, rfl⟩ := h
    refine ⟨.refl, ?_⟩
    simp only [links, hold, Option.or]
  | none =>
    simp only [hold, yields_bind, yields_get] at h
    obtain ⟨_, _, ⟨rfl, rfl⟩, h⟩ := h
    cases hstaged : Entries.lookup n st.nameLinks with
    | some l' =>
      simp only [hstaged, yields_pure] at h
      obtain ⟨rfl, rfl⟩ := h
      refine ⟨.refl, ?_⟩
      simp only [links, hold, hstaged, Option.or]
    | none =>
      simp only [hstaged, newLink, yields_bind, yields_get, yields_set, yields_modify,
        yields_pure] at h
      obtain ⟨l', st₁, ⟨_, _, ⟨rfl, rfl⟩, _, st₂, rfl, rfl, rfl⟩, _, st₃, rfl, rfl, rfl⟩ := h
      have hnew : (s.links st).name n = none := by
        simp only [links, hold, hstaged, Option.or]
      refine ⟨.single (.name hnew), ?_⟩
      simp only [links, hold, Entries.lookup_insert, if_true, Option.or]

theorem schedule_yields {features : Entries Value} {l : Link}
    (h : (s.schedule features options label).Yields st l st')
    (hocc : s.Occurs features options) :
    s.Advance st st' ∧ ∃ form, s.form features label = .ok form ∧
      (s.links st').rule (SchemaId.of s.digest form options) = some l := by
  simp only [schedule, yields_bind, yields_lift, yields_get] at h
  obtain ⟨form, st₁, ⟨hform, rfl⟩, _, _, ⟨rfl, rfl⟩, h⟩ := h
  cases hknown : (s.links st).rule (SchemaId.of s.digest form options) with
  | some l' =>
    have hknown' := hknown
    simp only [links] at hknown'
    simp only [hknown', yields_pure] at h
    obtain ⟨rfl, rfl⟩ := h
    exact ⟨.refl, form, hform, hknown⟩
  | none =>
    have hknown' := hknown
    simp only [links] at hknown'
    simp only [hknown', newLink, yields_bind, yields_get, yields_set, yields_modify,
      yields_pure] at h
    obtain ⟨l', st₁, ⟨_, _, ⟨rfl, rfl⟩, _, st₂, rfl, rfl, rfl⟩, _, st₃, rfl, rfl, rfl⟩ := h
    have hwaits : s.Waits ⟨SchemaId.of s.digest form options, ⟨st.nextLink, label⟩, features,
        form, options, label⟩ := ⟨hocc, formIs_of_form hform, rfl⟩
    refine ⟨.single (.rule hwaits rfl hknown), form, hform, ?_⟩
    have hcache : s.cache.lookup (SchemaId.of s.digest form options) = none :=
      (Option.or_eq_none_iff.1 hknown').1
    simp only [links, hcache, List.lookup_cons, beq_self_eq_true, Option.or]

/-- A rule whose identity is known is given the link it has. -/
theorem schedule_of_known {features : Entries Value} {form : Value} {l : Link}
    (hform : s.form features label = .ok form)
    (hl : (s.links st).rule (SchemaId.of s.digest form options) = some l) :
    (s.schedule features options label).Yields st l st := by
  have hknown : (s.cache.lookup (SchemaId.of s.digest form options)).or
      (st.cache.lookup (SchemaId.of s.digest form options)) = some l := hl
  simp only [schedule, yields_bind, yields_lift, yields_get]
  refine ⟨form, st, ⟨hform, rfl⟩, st, st, ⟨rfl, rfl⟩, ?_⟩
  rw [hknown]
  exact yields_pure.2 ⟨rfl, rfl⟩

theorem resolve_yields {v : Value} {r : Resolved}
    (h : (s.resolve v options label).Yields st r st')
    (hocc : ∀ flat, s.Unfolds v flat → s.Occurs flat options) :
    s.Advance st st' ∧ s.Refers (s.links st') options v r.callee ∧
      r.terms = s.outlook.terms v := by
  cases v with
  | null =>
    simp only [resolve, yields_pure] at h
    obtain ⟨rfl, rfl⟩ := h
    exact ⟨.refl, .null, rfl⟩
  | text n =>
    simp only [resolve, yields_bind] at h
    obtain ⟨l, st₁, hl, h⟩ := h
    obtain ⟨hadv, hname⟩ := linkOfName_yields hl
    split at h
    · rename_i fs hfs
      simp only [yields_bind, yields_lift, yields_pure] at h
      obtain ⟨flat, _, ⟨hflat, rfl⟩, rule, _, ⟨hrule, rfl⟩, rfl, rfl⟩ := h
      refine ⟨hadv, .name hname, ?_⟩
      rw [outlook_terms_of_lookup hfs hflat]
      exact Rule.terms_eq_of_read hrule
    · rename_i hnone
      rw [yields_pure] at h
      obtain ⟨rfl, rfl⟩ := h
      refine ⟨hadv, .name hname, ?_⟩
      rw [outlook_terms_of_not_mapping hnone]
      rfl
  | mapping fs =>
    simp only [resolve, yields_bind, yields_lift] at h
    obtain ⟨flat, st₁, ⟨hflat, rfl⟩, h⟩ := h
    have hinline : s.flattenInline fs = .ok flat := flattenInline_of_flatten hflat
    simp only [outlook, hinline]
    split at h
    · rename_i hempty
      rw [yields_pure] at h
      obtain ⟨rfl, rfl⟩ := h
      rw [List.isEmpty_iff] at hempty
      subst hempty
      exact ⟨.refl, .empty hinline, rfl⟩
    · rename_i hne
      simp only [yields_bind, yields_lift, yields_pure] at h
      obtain ⟨rule, _, ⟨hrule, rfl⟩, l, st₂, hl, rfl, rfl⟩ := h
      have hunfolds : s.Unfolds (.mapping fs) flat := by
        refine ⟨⟨fs, rfl, hinline⟩, ?_⟩
        rintro rfl
        exact hne rfl
      obtain ⟨hadv, form, hform, hrule'⟩ := schedule_yields hl (hocc flat hunfolds)
      refine ⟨hadv, .rule hunfolds (formIs_of_form hform) hrule', ?_⟩
      exact Rule.terms_eq_of_read hrule
  | bool b => exact (yields_throw.1 h).elim
  | number n => exact (yields_throw.1 h).elim
  | list xs => exact (yields_throw.1 h).elim

/-! ## Lists of inner rules -/

theorem zipIdx_forall₂ {α β : Type} {R : α → β → Prop} {as : List α} {bs : List β} {n : Nat}
    (h : List.Forall₂ (fun e b => R e.1 b) (as.zipIdx n) bs) : List.Forall₂ R as bs := by
  induction as generalizing n bs with
  | nil =>
    cases h
    exact .nil
  | cons a as ih =>
    rw [List.zipIdx_cons] at h
    cases h with
    | cons hab hrest => exact .cons hab (ih hrest)

theorem branches_yields {feature : String} {vs : List Value} {cs : List Callee}
    (h : (s.branches options label feature vs).Yields st cs st') (hocc : s.Permits options vs) :
    s.Advance st st' ∧ List.Forall₂ (s.Refers (s.links st') options) vs cs := by
  rw [branches] at h
  have hstep : ∀ e ∈ vs.zipIdx, ∀ {st c st'},
      (do
        let r ← s.resolve e.1 options (label ++ "." ++ feature ++ "[" ++ toString e.2 ++ "]")
        pure r.callee : Compile Callee).Yields st c st' →
      s.Advance st st' ∧ s.Refers (s.links st') options e.1 c := by
    intro e he st c st' h
    simp only [yields_bind, yields_pure] at h
    obtain ⟨r, _, hr, rfl, rfl⟩ := h
    have hmem : e.1 ∈ vs := List.fst_mem_of_mem_zipIdx he
    obtain ⟨hadv, href, _⟩ := resolve_yields hr (hocc e.1 hmem)
    exact ⟨hadv, href⟩
  obtain ⟨hadv, hcs⟩ := Yields.mapM (fun _ => .refl) (fun h k => h.trans k)
    (fun h k => k.mono h.links_within) hstep h
  exact ⟨hadv, zipIdx_forall₂ hcs⟩

theorem openCallee_yields {v : Option Value} {c : Option Callee}
    (h : (s.openCallee v options label).Yields st c st')
    (hocc : s.Permits options v.toList) :
    s.Advance st st' ∧ Option.Rel (s.Refers (s.links st') options) v c := by
  cases v with
  | none =>
    simp only [openCallee, yields_pure] at h
    obtain ⟨rfl, rfl⟩ := h
    exact ⟨.refl, .none⟩
  | some v =>
    simp only [openCallee, yields_bind, yields_pure] at h
    obtain ⟨r, _, hr, rfl, rfl⟩ := h
    obtain ⟨hadv, href, _⟩ := resolve_yields hr (hocc v (List.mem_singleton.2 rfl))
    exact ⟨hadv, .some href⟩

theorem entry_yields {e : String × Value} {f : Entry Callee}
    (h : (s.entry options label e).Yields st f st') (hocc : s.Permits options [e.2]) :
    s.Advance st st' ∧ Entry.Rel (s.Refers (s.links st') options)
      (Entry.ofTerms e.1 (s.outlook.terms e.2) e.2 options.requireAll) f := by
  simp only [entry, yields_bind, yields_pure] at h
  obtain ⟨r, _, hr, rfl, rfl⟩ := h
  obtain ⟨hadv, href, hterms⟩ := resolve_yields hr (hocc _ (List.mem_singleton.2 rfl))
  rw [hterms]
  exact ⟨hadv, rfl, rfl, rfl, href, rfl, rfl⟩

theorem pattern_yields {source : String} {p : Pattern}
    (h : (pattern source label).Yields st p st') :
    st = st' ∧ Pattern.ofSource? .estimate source = some p := by
  rw [pattern] at h
  split at h
  · rename_i q hq
    rw [yields_pure] at h
    obtain ⟨rfl, rfl⟩ := h
    exact ⟨rfl, hq⟩
  · exact (yields_throw.1 h).elim

theorem patternEntry_yields {e : String × Value} {f : PatternEntry Callee}
    (h : (s.patternEntry options label e).Yields st f st') (hocc : s.Permits options [e.2]) :
    s.Advance st st' ∧ Option.Rel (PatternEntry.Rel (s.Refers (s.links st') options))
      (Rule.patternOf? s.outlook e) (some f) := by
  simp only [patternEntry, yields_bind, yields_pure] at h
  obtain ⟨r, _, hr, p, _, hp, rfl, rfl⟩ := h
  obtain ⟨hadv, href, hterms⟩ := resolve_yields hr (hocc _ (List.mem_singleton.2 rfl))
  obtain ⟨rfl, hpattern⟩ := pattern_yields hp
  refine ⟨hadv, ?_⟩
  rw [Rule.patternOf?, hpattern, hterms]
  exact .some ⟨rfl, rfl, href⟩

theorem entries_yields {es : List (String × Value)} {fs : List (Entry Callee)}
    (h : (es.mapM (s.entry options label)).Yields st fs st')
    (hocc : s.Permits options (es.map (·.2))) :
    s.Advance st st' ∧ List.Forall₂ (Entry.Rel (s.Refers (s.links st') options))
      (es.map fun e => Entry.ofTerms e.1 (s.outlook.terms e.2) e.2 options.requireAll) fs := by
  rw [List.forall₂_map_left_iff]
  refine Yields.mapM (P := s.Advance)
    (Q := fun st (e : String × Value) (f : Entry Callee) =>
      Entry.Rel (s.Refers (s.links st) options)
        (Entry.ofTerms e.1 (s.outlook.terms e.2) e.2 options.requireAll) f)
    (fun _ => .refl) (fun h k => h.trans k) (fun h k => ?_) (fun e he => ?_) h
  · exact k.mono fun _ _ href => href.mono h.links_within
  · intro st f st' h
    refine entry_yields h (hocc.mono ?_)
    exact List.cons_subset.2 ⟨List.mem_map_of_mem he, List.nil_subset _⟩

theorem patternEntries_yields {es : List (String × Value)} {fs : List (PatternEntry Callee)}
    (h : (es.mapM (s.patternEntry options label)).Yields st fs st')
    (hocc : s.Permits options (es.map (·.2))) :
    s.Advance st st' ∧ ∃ ps, es.mapM (Rule.patternOf? s.outlook) = some ps ∧
      List.Forall₂ (PatternEntry.Rel (s.Refers (s.links st') options)) ps fs := by
  have hmap := Yields.mapM (P := s.Advance)
    (Q := fun st (e : String × Value) (f : PatternEntry Callee) =>
      Option.Rel (PatternEntry.Rel (s.Refers (s.links st) options))
        (Rule.patternOf? s.outlook e) (some f))
    (fun _ => .refl) (fun h k => h.trans k) (fun {st st' e f} h k => ?_) (fun e he => ?_) h
  · obtain ⟨hadv, hfs⟩ := hmap
    refine ⟨hadv, ?_⟩
    clear h hocc hadv
    induction hfs with
    | nil => exact ⟨[], rfl, .nil⟩
    | @cons e f es fs hef _ ih =>
      obtain ⟨ps, hps, hrel⟩ := ih
      cases hp : Rule.patternOf? s.outlook e with
      | none =>
        rw [hp] at hef
        cases hef
      | some p =>
        rw [hp] at hef
        cases hef with
        | some hpf =>
          refine ⟨p :: ps, ?_, .cons hpf hrel⟩
          simp only [List.mapM_cons, hp, hps]
          rfl
  · generalize Rule.patternOf? s.outlook e = x at k ⊢
    cases k with
    | some hpf => exact .some (hpf.mono fun _ _ href => href.mono h.links_within)
  · intro st f st' h
    refine patternEntry_yields h (hocc.mono ?_)
    exact List.cons_subset.2 ⟨List.mem_map_of_mem he, List.nil_subset _⟩

/-! ## Steps -/

theorem structureOf_yields {rule : Rule} {t : Structure Callee}
    (h : (s.structureOf rule options label).Yields st t st')
    (hocc : s.Permits options rule.subRules) :
    s.Advance st st' ∧ ∃ plan, rule.structure? s.outlook options = some plan ∧
      Structure.Rel (s.Refers (s.links st') options) plan t := by
  simp only [structureOf, yields_bind] at h
  obtain ⟨keys, st₁, hkeys, values, st₂, hvalues, h⟩ := h
  obtain ⟨hitems, hpatternItems, hoccKeys, hoccValues, -, -⟩ := Rule.forall_mem_subRules.1 hocc
  obtain ⟨hadv₁, hkeys⟩ := openCallee_yields hkeys hoccKeys
  obtain ⟨hadv₂, hvalues⟩ := openCallee_yields hvalues hoccValues
  have hopen {T : Links} (hT : (s.links st₂).Within T) :
      Option.Rel (OpenRule.Rel (s.Refers T options))
        (rule.openRule (rule.keys.filter fun v => !s.outlook.passes v) rule.values)
        (rule.openRule (keys.filter (· != .pass)) values) := by
    have hkeys' := optionRel_mono
      (fun _ _ href => Refers.mono (hadv₂.links_within.trans hT) href) hkeys
    have hvalues' := optionRel_mono (fun _ _ href => Refers.mono hT href) hvalues
    refine Rule.openRule_rel rfl rfl (Rule.filter_rel hkeys' fun v c href => ?_) hvalues'
    rw [href.passes_eq]
    rfl
  by_cases hlist : rule.kind = some .list
  · simp only [hlist, if_true, yields_pure] at h
    obtain ⟨rfl, rfl⟩ := h
    have hsequence := Rule.sequenceItems_rel (r := rule) rfl (hopen (Links.Within.refl _))
    refine ⟨hadv₁.trans hadv₂, ⟨none, rule.sequenceItems _⟩, ?_, .none, hsequence⟩
    rw [Rule.structure?, if_pos hlist]
  · simp only [hlist, if_false, yields_bind, yields_pure] at h
    obtain ⟨entries, st₃, hentries, patterns, st₄, hpatterns, rfl, rfl⟩ := h
    obtain ⟨hadv₃, hentries⟩ := entries_yields hentries hitems
    obtain ⟨hadv₄, ps, hps, hpatterns⟩ := patternEntries_yields hpatterns hpatternItems
    have hentries' := hentries.imp fun _ _ hef =>
      Entry.Rel.mono (fun _ _ href => Refers.mono hadv₄.links_within href) hef
    have hopen' := hopen (hadv₃.links_within.trans hadv₄.links_within)
    have hitems := Rule.make_rel hentries' hpatterns hopen' options.unknownKeys
    have hsequence := Rule.sequenceItems_rel (r := rule) rfl hopen'
    refine ⟨((hadv₁.trans hadv₂).trans hadv₃).trans hadv₄, ⟨some _, rule.sequenceItems _⟩, ?_,
      .some hitems, hsequence⟩
    rw [Rule.structure?, if_neg hlist, hps]
    rfl

theorem coercer_yields {name : String} {c : Coercer}
    (h : (s.coercer name label).Yields st c st') :
    st = st' ∧ s.coercions.resolve? name = some c := by
  rw [coercer] at h
  split at h
  · rename_i c' hc
    rw [yields_pure] at h
    obtain ⟨rfl, rfl⟩ := h
    exact ⟨rfl, hc⟩
  · exact (yields_throw.1 h).elim

theorem remapOf_yields {table : Value} {m : Remap}
    (h : (remapOf table label).Yields st m st') :
    st = st' ∧ (Remap.ofValue table).toOption = some m := by
  rw [remapOf] at h
  split at h
  · rename_i m' hm
    rw [yields_pure] at h
    obtain ⟨rfl, rfl⟩ := h
    rw [hm]
    exact ⟨rfl, rfl⟩
  · exact (yields_throw.1 h).elim

theorem nullableStep_yields {rule : Rule} {ss : List (Step Callee)} (R : Value → Callee → Prop)
    (h : (s.nullableStep rule label).Yields st ss st') :
    st = st' ∧ ∃ plan, rule.nullableStage s.coercions = some plan ∧
      List.Forall₂ (Step.Rel R) plan ss := by
  rw [nullableStep] at h
  rw [Rule.nullableStage]
  split at h
  · rename_i hnull
    rw [if_pos hnull]
    cases hpost : rule.postCoerce with
    | some name =>
      simp only [hpost, yields_bind, yields_pure] at h
      obtain ⟨c, _, hc, rfl, rfl⟩ := h
      obtain ⟨rfl, hresolve⟩ := coercer_yields hc
      refine ⟨rfl, [.check (.nullable rule.ifNull (some c))], ?_, .cons (.check _) .nil⟩
      simp only [hresolve]
      rfl
    | none =>
      simp only [hpost, yields_pure] at h
      obtain ⟨rfl, rfl⟩ := h
      exact ⟨rfl, _, rfl, .cons (.check _) .nil⟩
  · rename_i hnull
    rw [if_neg hnull]
    rw [yields_pure] at h
    obtain ⟨rfl, rfl⟩ := h
    exact ⟨rfl, _, rfl, .nil⟩

/-- A check whose argument can be read. -/
theorem checkOf_yields {α β : Type} {argument : Option α} {reader : α → Compile β}
    {reading : α → Option β} {make : β → Check} {ss : List (Step Callee)}
    (R : Value → Callee → Prop)
    (h : (stepOf argument fun a => do
      let b ← reader a
      pure (.check (make b))).Yields st ss st')
    (hreader : ∀ {a b st st'}, (reader a).Yields st b st' → st = st' ∧ reading a = some b) :
    st = st' ∧ ∃ plan, Rule.stageOf argument
        (fun a => (reading a).map fun b => .check (make b)) = some plan ∧
      List.Forall₂ (Step.Rel R) plan ss := by
  cases argument with
  | none =>
    simp only [stepOf, yields_pure] at h
    obtain ⟨rfl, rfl⟩ := h
    exact ⟨rfl, _, rfl, .nil⟩
  | some a =>
    simp only [stepOf, yields_bind, yields_pure] at h
    obtain ⟨t, _, ⟨b, _, hb, rfl, rfl⟩, rfl, rfl⟩ := h
    obtain ⟨rfl, hreading⟩ := hreader hb
    refine ⟨rfl, [.check (make b)], ?_, .cons (.check _) .nil⟩
    simp only [Rule.stageOf, hreading, Option.map_some]

/-- A step that lists inner rules. -/
theorem branchesOf_yields {feature : String} {argument : Option (List Value)}
    (make : {γ : Type} → List γ → Step γ) {ss : List (Step Callee)}
    (h : (stepOf argument fun vs => do
      let cs ← s.branches options label feature vs
      pure (make cs)).Yields st ss st')
    (hocc : s.Permits options (argument.getD []))
    (hmake : ∀ {γ δ : Type} {R : γ → δ → Prop} {vs : List γ} {ws : List δ},
      List.Forall₂ R vs ws → Step.Rel R (make vs) (make ws)) :
    s.Advance st st' ∧ ∃ plan, Rule.stageOf argument (fun vs => some (make vs)) = some plan ∧
      List.Forall₂ (Step.Rel (s.Refers (s.links st') options)) plan ss := by
  cases argument with
  | none =>
    simp only [stepOf, yields_pure] at h
    obtain ⟨rfl, rfl⟩ := h
    exact ⟨.refl, _, rfl, .nil⟩
  | some vs =>
    simp only [stepOf, yields_bind, yields_pure] at h
    obtain ⟨t, _, ⟨cs, _, hcs, rfl, rfl⟩, rfl, rfl⟩ := h
    obtain ⟨hadv, href⟩ := branches_yields hcs hocc
    exact ⟨hadv, _, rfl, .cons (hmake href) .nil⟩

theorem memberStep_yields {rule : Rule} {ss : List (Step Callee)}
    (h : (s.memberStep rule options label).Yields st ss st')
    (hocc : s.Permits options rule.subRules) :
    s.Advance st st' ∧ ∃ plan, rule.memberStage s.outlook options = some plan ∧
      List.Forall₂ (Step.Rel (s.Refers (s.links st') options)) plan ss := by
  rw [memberStep] at h
  rw [Rule.memberStage]
  split at h
  · rename_i hstructure
    rw [if_pos hstructure]
    simp only [yields_bind, yields_pure] at h
    obtain ⟨t, _, ht, rfl, rfl⟩ := h
    obtain ⟨hadv, plan, hplan, hrel⟩ := structureOf_yields ht hocc
    rw [hplan]
    exact ⟨hadv, _, rfl, .cons (.members hrel) .nil⟩
  · rename_i hstructure
    rw [if_neg hstructure]
    rw [yields_pure] at h
    obtain ⟨rfl, rfl⟩ := h
    exact ⟨.refl, _, rfl, .nil⟩

theorem forall₂_lift {T U : Links} (h : T.Within U) {plan : List (Step Value)}
    {ss : List (Step Callee)} (hss : List.Forall₂ (Step.Rel (s.Refers T options)) plan ss) :
    List.Forall₂ (Step.Rel (s.Refers U options)) plan ss :=
  hss.imp fun _ _ hst => hst.mono fun _ _ href => href.mono h

/-- The steps of a rule are its stages, linked. -/
theorem steps_yields {rule : Rule} {ss : List (Step Callee)}
    (h : (s.steps rule options label).Yields st ss st')
    (hocc : s.Permits options rule.subRules) :
    s.Advance st st' ∧ ∃ plan, rule.stages s.coercions s.outlook options = some plan ∧
      List.Forall₂ (Step.Rel (s.Refers (s.links st') options)) plan ss := by
  rw [steps] at h
  simp only [yields_bind, yields_pure] at h
  obtain ⟨nullable, st₁, hnullable, coerce, st₂, hcoerce, regex, st₃, hregex, members, st₄,
    hmembers, remap, st₅, hremap, anyOf, st₆, hanyOf, oneOf, st₇, honeOf, postCoerce, st₈,
    hpost, rfl, rfl⟩ := h
  obtain ⟨-, -, -, -, hoccAnyOf, hoccOneOf⟩ := Rule.forall_mem_subRules.1 hocc
  obtain ⟨hadv₄, members', hmembers', kmembers⟩ := memberStep_yields hmembers hocc
  obtain ⟨hadv₆, anyOf', hanyOf', kanyOf⟩ :=
    branchesOf_yields Step.anyOf hanyOf hoccAnyOf Step.Rel.anyOf
  obtain ⟨hadv₇, oneOf', honeOf', koneOf⟩ :=
    branchesOf_yields Step.oneOf honeOf hoccOneOf Step.Rel.oneOf
  obtain ⟨rfl, nullable', hnullable', knullable⟩ :=
    nullableStep_yields (s.Refers (s.links st₈) options) hnullable
  obtain ⟨rfl, coerce', hcoerce', kcoerce⟩ :=
    checkOf_yields (s.Refers (s.links st₈) options) hcoerce coercer_yields
  obtain ⟨rfl, regex', hregex', kregex⟩ :=
    checkOf_yields (s.Refers (s.links st₈) options) hregex pattern_yields
  obtain ⟨rfl, remap', hremap', kremap⟩ :=
    checkOf_yields (s.Refers (s.links st₈) options) hremap remapOf_yields
  obtain ⟨rfl, post', hpost', kpost⟩ :=
    checkOf_yields (s.Refers (s.links st₇) options) hpost coercer_yields
  refine ⟨(hadv₄.trans hadv₆).trans hadv₇, nullable' ++ (rule.kind.map fun k =>
    Step.check (.kind k)).toList ++ coerce' ++ regex' ++ members' ++ remap' ++
    rule.bounds.map Step.check ++ anyOf' ++ oneOf' ++ post', ?_, ?_⟩
  · rw [Rule.stages, hnullable', hcoerce', hregex', hmembers', hremap', hanyOf', honeOf', hpost']
    rfl
  · exact List.rel_append (List.rel_append (List.rel_append (List.rel_append (List.rel_append
      (List.rel_append (List.rel_append (List.rel_append (List.rel_append knullable
      (Rule.kindStage_rel _)) kcoerce) kregex)
      (forall₂_lift (Advance.links_within (hadv₆.trans hadv₇)) kmembers)) kremap)
      (Rule.checkList_rel _)) (forall₂_lift hadv₇.links_within kanyOf)) koneOf) kpost

/-- The staging area after a rule of the worklist has been compiled: its examples
are noted and its program has a number. -/
def compiled (st : Staging) (task : Task) (r : Rule) : Staging :=
  { st with
    nextProgram := st.nextProgram + 1
    examples :=
      if !r.positiveExamples.isEmpty || !r.negativeExamples.isEmpty then
        st.examples ++ [⟨task.label, task.link, r.positiveExamples, r.negativeExamples⟩]
      else st.examples }

/-- Compiling a rule is reading it, working out its steps and giving them a number. -/
theorem compile_yields_iff {task : Task} {p : Program} : (s.compile task).Yields st p st' ↔
    ∃ r ss st₁, Rule.read task.features task.label = .ok r ∧
      (s.steps r (task.options.overriddenBy r.overrides) task.label).Yields st ss st₁ ∧
        p = ⟨st₁.nextProgram, task.id, task.label, task.options.breakLoops, ss⟩ ∧
        st' = compiled st₁ task r := by
  rw [compile]
  simp only [yields_bind, yields_lift]
  constructor
  · rintro ⟨r, _, ⟨hr, rfl⟩, ss, st₁, hss, h⟩
    refine ⟨r, ss, st₁, hr, hss, ?_⟩
    by_cases hexamples : !r.positiveExamples.isEmpty || !r.negativeExamples.isEmpty
    · simp only [hexamples, if_true, newProgram, yields_bind, yields_modify, yields_get,
        yields_set, yields_pure] at h
      obtain ⟨_, st₂, rfl, _, _, ⟨rfl, rfl⟩, _, st₃, rfl, rfl, rfl⟩ := h
      rw [compiled, if_pos hexamples]
      exact ⟨rfl, rfl⟩
    · simp only [hexamples, Bool.false_eq_true, if_false, newProgram, yields_bind, yields_get,
        yields_set, yields_pure] at h
      obtain ⟨_, _, ⟨rfl, rfl⟩, _, st₂, rfl, rfl, rfl⟩ := h
      rw [compiled, if_neg hexamples]
      exact ⟨rfl, rfl⟩
  · rintro ⟨r, ss, st₁, hr, hss, rfl, rfl⟩
    refine ⟨r, st, ⟨hr, rfl⟩, ss, st₁, hss, ?_⟩
    by_cases hexamples : !r.positiveExamples.isEmpty || !r.negativeExamples.isEmpty
    · rw [if_pos hexamples, compiled, if_pos hexamples]
      rfl
    · rw [if_neg hexamples, compiled, if_neg hexamples]
      rfl

/-- Compiling a rule hands out links and gives a program with a new number. -/
theorem compile_yields {task : Task} {p : Program} (h : (s.compile task).Yields st p st')
    (htask : s.Waits task) :
    ∃ st₁ r, s.Advance st st₁ ∧ Rule.read? task.features = some r ∧ st' = compiled st₁ task r ∧
      p.number = st₁.nextProgram ∧ p.id = task.id ∧ p.label = task.label ∧
      s.Emits (s.links st₁) task.features task.options p := by
  obtain ⟨r, ss, st₁, hr, hss, rfl, hst'⟩ := compile_yields_iff.1 h
  have hread : Rule.read? task.features = some r := Rule.read?_of_read hr
  have hocc : s.Permits (task.options.overriddenBy r.overrides) r.subRules := by
    intro v hv flat hflat
    exact .inner htask.occurs hread hv hflat
  obtain ⟨hadv, plan, hplan, hrel⟩ := steps_yields hss hocc
  exact ⟨st₁, r, hadv, hread, hst', rfl, rfl, rfl, rfl, r, plan, hread, hplan, hrel⟩

end Source
end Rulebook
