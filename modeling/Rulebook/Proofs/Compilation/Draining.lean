import Rulebook.Proofs.Compilation.Moves
import Rulebook.Proofs.Compilation.Unfolding

/-!
# The worklist is drained

Compiling a rule puts only rules from inside it on the worklist, each of them once.
Their forms are parts of the form of the rule, so that all forms on the worklist
taken together get smaller with every rule that is compiled.  The compilation of a
batch therefore ends where the forms of its rules do.
-/

namespace Rulebook

open Source

variable {α β : Type}

-- A sum starts at the core library's zero, whatever else is imported.
attribute [local instance (high)] Zero.ofOfNat0

namespace Compile

/-- The compilation ends, and the forms of what it puts on the worklist have no more
nodes than that. -/
structure Bounded (n : Nat) (m : Compile α) : Prop where
  ends : ∀ st, Ends (m.run st)
  pending : ∀ {st a st'}, m.Yields st a st' → pending st' ≤ pending st + n

theorem ends_run_bind {m : Compile α} {f : α → Compile β} {st : Staging} (hm : Ends (m.run st))
    (hf : ∀ a st', m.Yields st a st' → Ends ((f a).run st')) : Ends ((m >>= f).run st) := by
  rw [StateT.run_bind]
  exact hm.bind fun p hp => hf p.1 p.2 hp

variable {n k : Nat} {m : Compile α}

theorem Bounded.mono (h : Bounded n m) (hle : n ≤ k) : Bounded k m :=
  ⟨h.ends, fun hm => (h.pending hm).trans (Nat.add_le_add_left hle _)⟩

theorem Bounded.bind {f : α → Compile β} (hm : Bounded n m)
    (hf : ∀ {st a st'}, m.Yields st a st' → Bounded k (f a)) : Bounded (n + k) (m >>= f) := by
  refine ⟨fun st => ends_run_bind (hm.ends st) fun a st' ha => (hf ha).ends st', ?_⟩
  intro st b st' h
  obtain ⟨a, st₁, ha, hb⟩ := yields_bind.1 h
  have hfirst := hm.pending ha
  have hrest := (hf ha).pending hb
  omega

/-- What comes after a compilation that puts nothing on the worklist. -/
theorem Bounded.andThen {f : α → Compile β} (hm : Bounded 0 m)
    (hf : ∀ {st a st'}, m.Yields st a st' → Bounded k (f a)) : Bounded k (m >>= f) :=
  (hm.bind hf).mono (Nat.le_of_eq (Nat.zero_add k))

theorem bounded_pure (a : α) : Bounded 0 (pure a : Compile α) := by
  refine ⟨fun st => ends_ok _, ?_⟩
  intro st b st' h
  rw [yields_pure] at h
  exact h.2 ▸ Nat.le_refl _

theorem bounded_throw {e : SchemaError} (h : ∀ label, e ≠ .endless label) :
    Bounded 0 (throw e : Compile α) :=
  ⟨fun _ => ends_error h, fun hm => (yields_throw.1 hm).elim⟩

theorem bounded_lift {x : Except SchemaError α} (h : Ends x) : Bounded 0 (liftM x : Compile α) := by
  refine ⟨fun st => h.bind fun a _ => ends_ok _, ?_⟩
  intro st a st' hm
  exact (yields_lift.1 hm).2 ▸ Nat.le_refl _

theorem bounded_get : Bounded 0 (get : Compile Staging) := by
  refine ⟨fun st => ends_ok _, ?_⟩
  intro st a st' h
  exact (yields_get.1 h).2 ▸ Nat.le_refl _

theorem bounded_modify {f : Staging → Staging} (h : ∀ st, pending (f st) ≤ pending st + n) :
    Bounded n (modify f : Compile PUnit) := by
  refine ⟨fun st => ends_ok _, ?_⟩
  intro st a st' hm
  exact yields_modify.1 hm ▸ h st

theorem bounded_mapM {f : α → Compile β} {weight : α → Nat} {as : List α}
    (h : ∀ a ∈ as, Bounded (weight a) (f a)) : Bounded (as.map weight).sum (as.mapM f) := by
  induction as with
  | nil => exact bounded_pure []
  | cons a as ih =>
    rw [List.mapM_cons, List.map_cons, List.sum_cons]
    refine (h a (List.mem_cons_self ..)).bind fun _ => ?_
    refine ((ih fun a ha => h a (List.mem_cons_of_mem _ ha)).bind fun _ => ?_).mono
      (Nat.le_of_eq (Nat.add_zero _))
    exact bounded_pure _

end Compile

namespace Source

open Compile Value

variable {s : Source} {options : Options} {label : String} {w : Value → Nat}

/-! ## Compiling one rule -/

variable (s) in
/-- A rule inside a rule has a form, of no more nodes than its weight. -/
def Weighs (w : Value → Nat) (v : Value) : Prop :=
  ∀ flat, s.Unfolds v flat → (∀ label, Ends (s.form flat label)) ∧
    ∀ form, s.FormIs flat form → form.nodes ≤ w v

theorem newLink_bounded (name : String) : Bounded 0 (newLink name) := by
  refine ⟨fun st => ends_ok _, ?_⟩
  intro st a st' h
  simp only [newLink, yields_bind, yields_get, yields_set, yields_pure] at h
  obtain ⟨_, _, ⟨rfl, rfl⟩, _, _, rfl, -, rfl⟩ := h
  exact Nat.le_refl _

theorem newProgram_bounded (id : SchemaId) (breakLoops : Bool) (steps : List (Step Callee)) :
    Bounded 0 (newProgram id label breakLoops steps) := by
  refine ⟨fun st => ends_ok _, ?_⟩
  intro st a st' h
  simp only [newProgram, yields_bind, yields_get, yields_set, yields_pure] at h
  obtain ⟨_, _, ⟨rfl, rfl⟩, _, _, rfl, -, rfl⟩ := h
  exact Nat.le_refl _

theorem linkOfName_bounded (name : String) : Bounded 0 (s.linkOfName name) := by
  rw [linkOfName]
  split
  · exact bounded_pure _
  · refine bounded_get.andThen fun _ => ?_
    split
    · exact bounded_pure _
    · refine (newLink_bounded name).andThen fun _ => ?_
      exact (bounded_modify fun _ => Nat.le_refl _).andThen fun _ => bounded_pure _

theorem schedule_bounded {features : Entries Value} {n : Nat}
    (hends : Ends (s.form features label))
    (hform : ∀ form, s.FormIs features form → form.nodes ≤ n) :
    Bounded n (s.schedule features options label) := by
  rw [schedule]
  refine (bounded_lift hends).andThen fun h => ?_
  have hnodes := hform _ (formIs_of_form (yields_lift.1 h).1)
  refine bounded_get.andThen fun _ => ?_
  split
  · exact (bounded_pure _).mono (Nat.zero_le n)
  · refine (newLink_bounded label).andThen fun _ => ?_
    refine (bounded_modify fun st => ?_).bind fun _ => bounded_pure _
    simp only [pending, List.map_append, List.sum_append, List.map_cons, List.map_nil,
      List.sum_cons, List.sum_nil]
    omega

theorem resolve_bounded {v : Value} (h : s.Weighs w v) :
    Bounded (w v) (s.resolve v options label) := by
  cases v with
  | null => exact (bounded_pure _).mono (Nat.zero_le _)
  | text name =>
    refine Bounded.mono (n := 0) ?_ (Nat.zero_le _)
    rw [resolve]
    refine (linkOfName_bounded name).andThen fun _ => ?_
    split
    · refine (bounded_lift (ends_flatten _ _)).andThen fun _ => ?_
      exact (bounded_lift Rule.ends_read).andThen fun _ => bounded_pure _
    · exact bounded_pure _
  | mapping features =>
    rw [resolve]
    refine (bounded_lift (ends_flatten _ _)).andThen fun hflat => ?_
    split
    · exact (bounded_pure _).mono (Nat.zero_le _)
    · rename_i hempty
      have hunfolds : s.Unfolds (.mapping features) _ :=
        ⟨⟨features, rfl, flattenInline_of_flatten (yields_lift.1 hflat).1⟩, fun heq =>
          hempty (List.isEmpty_iff.2 heq)⟩
      obtain ⟨hends, hnodes⟩ := h _ hunfolds
      refine (bounded_lift Rule.ends_read).andThen fun _ => ?_
      exact (schedule_bounded (hends label) hnodes).bind fun _ => bounded_pure _
  | bool _ | number _ | list _ =>
    exact (bounded_throw fun _ heq => by cases heq).mono (Nat.zero_le _)

/-- The weight of rules taken together. -/
def total (w : Value → Nat) (vs : List Value) : Nat := (vs.map w).sum

theorem total_append (vs ws : List Value) : total w (vs ++ ws) = total w vs + total w ws := by
  rw [total, total, total, List.map_append, List.sum_append]

theorem branches_bounded {feature : String} {vs : List Value} (h : ∀ v ∈ vs, s.Weighs w v) :
    Bounded (total w vs) (s.branches options label feature vs) := by
  rw [branches]
  have hweight : total w vs = (vs.zipIdx.map fun e => w e.1).sum := by
    rw [total, ← List.zipIdx_map_fst 0 vs, List.map_map, List.zipIdx_map_fst]
    rfl
  rw [hweight]
  refine bounded_mapM fun e he => ?_
  exact (resolve_bounded (h e.1 (List.fst_mem_of_mem_zipIdx he))).bind fun _ => bounded_pure _

theorem openCallee_bounded {v : Option Value} (h : ∀ u ∈ v.toList, s.Weighs w u) :
    Bounded (total w v.toList) (s.openCallee v options label) := by
  cases v with
  | none => exact bounded_pure none
  | some v =>
    rw [openCallee]
    exact (resolve_bounded (h v (List.mem_singleton_self v))).bind fun _ => bounded_pure _

theorem pattern_bounded (source : String) : Bounded 0 (pattern source label) := by
  rw [pattern]
  split
  · exact bounded_pure _
  · exact bounded_throw fun _ heq => by cases heq

theorem coercer_bounded (name : String) : Bounded 0 (s.coercer name label) := by
  rw [coercer]
  split
  · exact bounded_pure _
  · exact bounded_throw fun _ heq => by cases heq

theorem remapOf_bounded (table : Value) : Bounded 0 (remapOf table label) := by
  rw [remapOf]
  split
  · exact bounded_pure _
  · exact bounded_throw fun _ heq => by cases heq

theorem entries_bounded {es : List (String × Value)} (h : ∀ v ∈ es.map (·.2), s.Weighs w v) :
    Bounded (total w (es.map (·.2))) (es.mapM (s.entry options label)) := by
  rw [total, List.map_map]
  refine bounded_mapM fun e he => ?_
  exact (resolve_bounded (h e.2 (List.mem_map_of_mem he))).bind fun _ => bounded_pure _

theorem patternEntries_bounded {es : List (String × Value)}
    (h : ∀ v ∈ es.map (·.2), s.Weighs w v) :
    Bounded (total w (es.map (·.2))) (es.mapM (s.patternEntry options label)) := by
  rw [total, List.map_map]
  refine bounded_mapM fun e he => ?_
  have hresolve : Bounded (w e.2) (s.resolve e.2 options (label ++ "." ++ e.1)) :=
    resolve_bounded (h e.2 (List.mem_map_of_mem he))
  exact hresolve.bind fun _ => (pattern_bounded e.1).bind fun _ => bounded_pure _

/-- A step that may be missing. -/
theorem stepOf_bounded {argument : Option α} {make : α → Compile (Step Callee)} {n : Nat}
    (h : ∀ a, argument = some a → Bounded n (make a)) : Bounded n (stepOf argument make) := by
  cases argument with
  | none => exact (bounded_pure []).mono (Nat.zero_le n)
  | some a => exact (h a rfl).bind fun _ => bounded_pure _

theorem structureOf_bounded {rule : Rule} (h : ∀ v ∈ rule.subRules, s.Weighs w v) :
    Bounded (total w rule.keys.toList + (total w rule.values.toList +
      (total w ((rule.items.getD []).map (·.2)) + total w ((rule.patternItems.getD []).map (·.2)))))
      (s.structureOf rule options label) := by
  obtain ⟨hitems, hpatternItems, hkeys, hvalues, -, -⟩ := Rule.forall_mem_subRules.1 h
  rw [structureOf]
  refine (openCallee_bounded hkeys).bind fun _ => ?_
  refine (openCallee_bounded hvalues).bind fun _ => ?_
  split
  · exact (bounded_pure _).mono (Nat.zero_le _)
  · refine (entries_bounded hitems).bind fun _ => ?_
    exact (patternEntries_bounded hpatternItems).bind fun _ => bounded_pure _

theorem nullableStep_bounded {rule : Rule} : Bounded 0 (s.nullableStep rule label) := by
  rw [nullableStep]
  split
  · split
    · exact (coercer_bounded _).bind fun _ => bounded_pure _
    · exact bounded_pure _
  · exact bounded_pure _

theorem branchesOf_bounded {feature : String} {argument : Option (List Value)}
    {make : List Callee → Step Callee} (h : ∀ v ∈ argument.getD [], s.Weighs w v) :
    Bounded (total w (argument.getD [])) (stepOf argument fun vs => do
      let cs ← s.branches options label feature vs
      pure (make cs)) := by
  refine stepOf_bounded fun vs hvs => ?_
  subst hvs
  exact (branches_bounded h).bind fun _ => bounded_pure _

theorem memberStep_bounded {rule : Rule} (h : ∀ v ∈ rule.subRules, s.Weighs w v) :
    Bounded (total w rule.keys.toList + (total w rule.values.toList +
      (total w ((rule.items.getD []).map (·.2)) + total w ((rule.patternItems.getD []).map (·.2)))))
      (s.memberStep rule options label) := by
  rw [memberStep]
  split
  · exact (structureOf_bounded h).bind fun _ => bounded_pure _
  · exact (bounded_pure _).mono (Nat.zero_le _)

/-- The steps of a rule put no more on the worklist than what the rules inside weigh. -/
theorem steps_bounded {rule : Rule} (h : ∀ v ∈ rule.subRules, s.Weighs w v) :
    Bounded (total w rule.subRules) (s.steps rule options label) := by
  have hmembers : Bounded _ (s.memberStep rule options label) := memberStep_bounded h
  obtain ⟨-, -, -, -, hanyOf, honeOf⟩ := Rule.forall_mem_subRules.1 h
  rw [steps]
  refine Bounded.mono (nullableStep_bounded.andThen fun _ =>
    (stepOf_bounded fun name _ => (coercer_bounded name).bind fun _ => bounded_pure _).andThen
      fun _ =>
    (stepOf_bounded fun source _ => (pattern_bounded source).bind fun _ => bounded_pure _).andThen
      fun _ =>
    hmembers.bind fun _ =>
    (stepOf_bounded fun table _ => (remapOf_bounded table).bind fun _ => bounded_pure _).andThen
      fun _ =>
    (branchesOf_bounded hanyOf).bind fun _ =>
    (branchesOf_bounded honeOf).bind fun _ =>
    (stepOf_bounded fun name _ => (coercer_bounded name).bind fun _ => bounded_pure _).bind
      fun _ => bounded_pure _) ?_
  simp only [Rule.subRules, total_append]
  omega

theorem compile_bounded {task : Task} {n : Nat}
    (h : ∀ r, Rule.read? task.features = some r → ∀ v ∈ r.subRules, s.Weighs w v)
    (hweight : ∀ r, Rule.read? task.features = some r → total w r.subRules ≤ n) :
    Bounded n (s.compile task) := by
  rw [compile]
  refine (bounded_lift Rule.ends_read).andThen fun hread => ?_
  have hread := Rule.read?_of_read (yields_lift.1 hread).1
  change Bounded (n + 0) _
  refine ((steps_bounded (h _ hread)).mono (hweight _ hread)).bind fun _ => ?_
  split
  · exact (bounded_modify fun _ => Nat.le_refl _).andThen fun _ => newProgram_bounded ..
  · exact newProgram_bounded ..

/-! ## The forms of the rules inside a rule -/

/-- The nodes of the argument of a feature. -/
def argumentNodes (es : Entries Value) (key : String) : Nat :=
  ((Entries.lookup key es).map Value.nodes).getD 0

theorem argumentNodes_cons {e : String × Value} {es : Entries Value} {key : String}
    (hne : key ≠ e.1) : argumentNodes (e :: es) key = argumentNodes es key := by
  rw [argumentNodes, argumentNodes, Entries.lookup, if_neg hne.symm]

/-- The arguments of different features are parts of one mapping. -/
theorem sum_argumentNodes_le {keys : List String} (hkeys : keys.Nodup) (es : Entries Value) :
    (keys.map (argumentNodes es)).sum ≤ nodesEntries es := by
  induction es generalizing keys with
  | nil =>
    have hnone : ∀ n ∈ keys.map (argumentNodes []), n = 0 := by
      intro n hn
      obtain ⟨k, -, rfl⟩ := List.mem_map.1 hn
      rfl
    exact Nat.le_of_eq (List.sum_eq_zero hnone)
  | cons e es ih =>
    rw [nodesEntries]
    by_cases hmem : e.1 ∈ keys
    · have hrest : ∀ k ∈ keys.erase e.1, argumentNodes (e :: es) k = argumentNodes es k :=
        fun k hk => argumentNodes_cons (hkeys.mem_erase_iff.1 hk).1
      rw [((List.perm_cons_erase hmem).map _).sum_eq, List.map_cons, List.sum_cons,
        List.map_congr_left hrest, argumentNodes, Entries.lookup, if_pos rfl]
      exact Nat.add_le_add_left (ih (hkeys.erase _)) _
    · have hall : ∀ k ∈ keys, argumentNodes (e :: es) k = argumentNodes es k := by
        rintro k hk
        exact argumentNodes_cons fun heq => hmem (heq ▸ hk)
      rw [List.map_congr_left hall]
      exact (ih hkeys).trans (Nat.le_add_left _ _)

/-- The weight of a rule inside a rule: the nodes of its form. -/
def formNodes (sub : Value → Except SchemaError Value) (v : Value) : Nat :=
  match sub v with
  | .ok form => form.nodes
  | .error _ => 0

section

variable {sub : Value → Except SchemaError Value}

theorem formNodes_eq {v form : Value} (h : sub v = .ok form) : formNodes sub v = form.nodes := by
  rw [formNodes, h]

theorem total_of_mapM {vs forms : List Value} (h : vs.mapM sub = .ok forms) :
    total (formNodes sub) vs = nodesList forms := by
  induction vs generalizing forms with
  | nil =>
    cases h
    rfl
  | cons v vs ih =>
    simp only [List.mapM_cons, Except.bind_eq_ok_iff] at h
    obtain ⟨form, hform, rest, hrest, heq⟩ := h
    cases heq
    rw [total, List.map_cons, List.sum_cons, nodesList, formNodes_eq hform, ← total, ih hrest]

theorem formNodes_le_of_entryForm (hnames : ∀ n, formNodes sub (.text n) ≤ 1)
    {e e' : String × Value} (h : s.entryForm sub e = .ok e') : formNodes sub e.2 ≤ e'.2.nodes := by
  obtain ⟨key, v⟩ := e
  cases v with
  | text n => exact (hnames n).trans (nodes_pos _)
  | _ =>
    simp only [entryForm, Except.bind_eq_ok_iff] at h
    obtain ⟨form, hform, heq⟩ := h
    cases heq
    exact Nat.le_of_eq (formNodes_eq hform)

theorem total_le_of_entryForms (hnames : ∀ n, formNodes sub (.text n) ≤ 1)
    {es forms : Entries Value} (h : es.mapM (s.entryForm sub) = .ok forms) :
    total (formNodes sub) (es.map (·.2)) ≤ nodesEntries forms := by
  induction es generalizing forms with
  | nil => exact Nat.zero_le _
  | cons e es ih =>
    simp only [List.mapM_cons, Except.bind_eq_ok_iff] at h
    obtain ⟨e', he', rest, hrest, heq⟩ := h
    cases heq
    rw [total, List.map_cons, List.map_cons, List.sum_cons, nodesEntries, ← total]
    exact Nat.add_le_add (formNodes_le_of_entryForm hnames he') (ih hrest)

theorem argumentNodes_of_rel {R : Value → Value → Prop} {features fs : Entries Value} {key : String}
    (h : Option.Rel R (Entries.lookup key features) (Entries.lookup key fs)) {v : Value}
    (hv : Entries.lookup key features = some v) : ∃ b, R v b ∧ argumentNodes fs key = b.nodes := by
  rw [hv] at h
  rw [argumentNodes]
  cases hb : Entries.lookup key fs with
  | none =>
    rw [hb] at h
    cases h
  | some b =>
    rw [hb] at h
    cases h with
    | some hR => exact ⟨b, hR, rfl⟩

theorem total_entries_le (hnames : ∀ n, formNodes sub (.text n) ≤ 1) {features fs : Entries Value}
    {key : String} {x : Option (Entries Value)} (hx : Rule.readMapping features "" key = .ok x)
    (h : Option.Rel (fun a b => s.ruleMapForm sub a = .ok b) (Entries.lookup key features)
      (Entries.lookup key fs)) :
    total (formNodes sub) ((x.getD []).map (·.2)) ≤ argumentNodes fs key := by
  cases x with
  | none => exact Nat.zero_le _
  | some es =>
    obtain ⟨b, hb, hnodes⟩ := argumentNodes_of_rel h (Rule.lookup_of_readMapping hx)
    simp only [ruleMapForm, Except.bind_eq_ok_iff] at hb
    obtain ⟨forms, hforms, heq⟩ := hb
    cases heq
    rw [hnodes]
    exact (total_le_of_entryForms hnames hforms).trans (Nat.le_succ _)

theorem total_branches_le {features fs : Entries Value} {key : String} {x : Option (List Value)}
    (hx : Rule.readList features "" key = .ok x)
    (h : Option.Rel (fun a b => ruleListForm sub a = .ok b) (Entries.lookup key features)
      (Entries.lookup key fs)) :
    total (formNodes sub) (x.getD []) ≤ argumentNodes fs key := by
  cases x with
  | none => exact Nat.zero_le _
  | some vs =>
    obtain ⟨b, hb, hnodes⟩ := argumentNodes_of_rel h (Rule.lookup_of_readList hx)
    simp only [ruleListForm, Except.bind_eq_ok_iff] at hb
    obtain ⟨forms, hforms, heq⟩ := hb
    cases heq
    rw [hnodes, Option.getD_some, total_of_mapM hforms]
    exact Nat.le_succ _

theorem total_argument_le {features fs : Entries Value} {key : String}
    (h : Option.Rel (fun a b => sub a = .ok b) (Entries.lookup key features)
      (Entries.lookup key fs)) :
    total (formNodes sub) (Entries.lookup key features).toList ≤ argumentNodes fs key := by
  cases hv : Entries.lookup key features with
  | none => exact Nat.zero_le _
  | some v =>
    obtain ⟨b, hb, hnodes⟩ := argumentNodes_of_rel h hv
    rw [hnodes, ← formNodes_eq hb]
    exact Nat.le_refl _

/-- The forms of the rules inside a rule are parts of its form. -/
theorem total_subRules_le (hnames : ∀ n, formNodes sub (.text n) ≤ 1) {features fs : Entries Value}
    (h : s.FormOf sub features fs) {r : Rule} (hread : Rule.read? features = some r) :
    total (formNodes sub) r.subRules ≤ nodesEntries fs := by
  have hread' : Rule.read features "" = .ok r := Rule.read_of_read? hread
  have hreads := Rule.read_eq_ok_iff.1 hread'
  have hitems := total_entries_le hnames hreads.items h.items
  have hpatternItems := total_entries_le hnames hreads.patternItems h.patternItems
  have hkeys := total_argument_le h.keys
  have hvalues := total_argument_le h.values
  have hanyOf := total_branches_le hreads.anyOf h.anyOf
  have honeOf := total_branches_le hreads.oneOf h.oneOf
  rw [hreads.keys] at hkeys
  rw [hreads.values] at hvalues
  have hdistinct : ruleFeatures.Nodup := by decide
  have hsum := sum_argumentNodes_le hdistinct fs
  simp only [ruleFeatures, List.map_cons, List.map_nil, List.sum_cons, List.sum_nil] at hsum
  simp only [Rule.subRules, total_append]
  omega

end

/-- Compiling a waiting rule puts less on the worklist than was taken from it. -/
theorem compile_bounded_of_waits
    (hforms : ∀ features options, s.Occurs features options → ¬ s.Recurs features) {task : Task}
    (htask : s.Waits task) : ∃ n, n < task.form.nodes ∧ Bounded n (s.compile task) := by
  obtain ⟨depth, fs, hform, hformOf⟩ := htask.form.formOf
  have hnames : ∀ n, formNodes (s.innerForm depth) (.text n) ≤ 1 := fun _ => Nat.le_refl 1
  refine ⟨nodesEntries fs, hform ▸ Nat.lt_succ_self _, ?_⟩
  refine compile_bounded (fun r hread v hv flat hflat => ?_)
    fun r hread => total_subRules_le hnames hformOf hread
  refine ⟨fun label => ends_form (hforms _ _ (.inner htask.occurs hread hv hflat)) label, ?_⟩
  intro form hflatForm
  obtain ⟨⟨es, rfl, hes⟩, -⟩ := hflat
  obtain ⟨b, hb⟩ := hformOf.exists_of_inside (Rule.inside_of_subRule hread hv) fun _ heq => by
    cases heq
  have hinner : s.formOf s.flattenInline "" depth flat = .ok b := by
    rw [innerForm, subForm, hes] at hb
    exact hb
  rw [formNodes_eq hb, hflatForm.unique ⟨depth, hinner⟩]

/-! ## The whole batch -/

section

variable (hforms : ∀ features options, s.Occurs features options → ¬ s.Recurs features)
include hforms

/-- Enough rules may be compiled, since every one leaves less on the worklist. -/
theorem ends_drain {fuel : Nat} {st : Staging} (hready : s.Ready st) (hfuel : pending st ≤ fuel) :
    Ends ((s.drain fuel).run st) := by
  induction fuel generalizing st with
  | zero =>
    rw [drain]
    refine ends_run_bind (ends_ok _) fun st' st'' hget => ?_
    obtain ⟨rfl, rfl⟩ := yields_get.1 hget
    cases htodo : st.todo with
    | nil => exact ends_ok _
    | cons task rest =>
      rw [pending, htodo, List.map_cons, List.sum_cons] at hfuel
      have hpos := nodes_pos task.form
      omega
  | succ fuel ih =>
    rw [drain]
    refine ends_run_bind (ends_ok _) fun st' st'' hget => ?_
    obtain ⟨rfl, rfl⟩ := yields_get.1 hget
    cases htodo : st.todo with
    | nil => exact ends_ok _
    | cons task rest =>
      have htask : s.Waits task := hready task (htodo ▸ List.mem_cons_self ..)
      have hrest : s.Ready { st with todo := rest } :=
        fun t ht => hready t (htodo ▸ List.mem_cons_of_mem _ ht)
      obtain ⟨n, hn, hbounded⟩ := compile_bounded_of_waits hforms htask
      refine ends_run_bind (ends_ok _) fun _ st₁ hset => ?_
      obtain rfl := yields_set.1 hset
      refine ends_run_bind (hbounded.ends _) fun p st₂ hcompile => ?_
      refine ends_run_bind (ends_ok _) fun _ st₃ hbind => ?_
      obtain rfl := yields_modify.1 hbind
      refine ih ((Moves.finish hcompile htask).2 hrest) ?_
      have hless := hbounded.pending hcompile
      rw [pending, htodo, List.map_cons, List.sum_cons] at hfuel
      simp only [pending] at hless ⊢
      omega

theorem ends_drainAll {st : Staging} (hready : s.Ready st) : Ends (s.drainAll.run st) := by
  rw [drainAll]
  refine ends_run_bind (ends_ok _) fun st' st'' hget => ?_
  obtain ⟨rfl, rfl⟩ := yields_get.1 hget
  exact ends_drain hforms hready (Nat.le_refl _)

/-- The compilation of a batch ends where no rule of it comes to contain itself. -/
theorem ends_compileBatch {st : Staging} (hready : s.Ready st) : Ends (s.compileBatch.run st) := by
  refine ends_iff.2 (refuses_compileBatch ?_ ?_ ?_ (fun _ _ _ _ _ _ _ => trivial) ?_ hready
    fun _ _ => trivial)
  · exact fun _ _ _ _ _ _ _ heq => by cases heq
  · exact fun n fs _ => ends_iff.1 (ends_flatten fs n)
  · exact fun n v flat hmem hflat => ends_iff.1 (ends_form (hforms _ _ (.named hmem hflat)) n)
  · exact fun st hready _ => ends_iff.1 (ends_drainAll hforms hready)

end

end Source
end Rulebook
