import Rulebook.Proofs.Compilation.SameRules
import Rulebook.Proofs.Evaluation.Renumbering

/-!
# Compilations under other numbers

A compilation gives out numbers for links and programs one after the other, and only
ever compares them.  So if it starts with other numbers, from which on all are used in
the same order, it does the same step by step: it refuses the batch for the same reason,
or stages the same under the other numbers.
-/

namespace Rulebook

variable {α β γ δ : Type}

/-! ## Computations side by side -/

/-- Both computations are refused for the same reason, or give related results. -/
inductive SameOutcome (R : α → β → Prop) : Except SchemaError α → Except SchemaError β → Prop where
  | refused (e : SchemaError) : SameOutcome R (.error e) (.error e)
  | accepted {a : α} {b : β} (h : R a b) : SameOutcome R (.ok a) (.ok b)

namespace SameOutcome

theorem refl (x : Except SchemaError α) : SameOutcome Eq x x := by
  cases x with
  | error e => exact .refused e
  | ok a => exact .accepted rfl

theorem bind {R : α → β → Prop} {Q : γ → δ → Prop} {x : Except SchemaError α}
    {y : Except SchemaError β} {f : α → Except SchemaError γ} {g : β → Except SchemaError δ}
    (hxy : SameOutcome R x y) (hfg : ∀ a b, R a b → SameOutcome Q (f a) (g b)) :
    SameOutcome Q (x >>= f) (y >>= g) := by
  cases hxy with
  | refused e => exact .refused e
  | accepted h => exact hfg _ _ h

end SameOutcome

namespace Compile

/-- Started in related staging areas, both compilations are refused for the same reason,
or give related results and leave related staging areas. -/
def Carries (S : Staging → Staging → Prop) (R : α → β → Prop) (m : Compile α) (n : Compile β) :
    Prop :=
  ∀ st st', S st st' →
    SameOutcome (fun x y => R x.1 y.1 ∧ S x.2 y.2) (m.run st) (n.run st')

variable {S : Staging → Staging → Prop} {R : α → β → Prop} {Q : γ → δ → Prop}

theorem carries_pure {a : α} {b : β} (h : R a b) : Carries S R (pure a) (pure b) :=
  fun _ _ hst => .accepted ⟨h, hst⟩

theorem carries_throw (e : SchemaError) : Carries S R (throw e) (throw e) :=
  fun _ _ _ => .refused e

theorem carries_lift (x : Except SchemaError α) :
    Carries S Eq (liftM x : Compile α) (liftM x : Compile α) := by
  intro st st' hst
  cases x with
  | error e => exact .refused e
  | ok a => exact .accepted ⟨rfl, hst⟩

theorem carries_get : Carries S S get get := fun _ _ hst => .accepted ⟨hst, hst⟩

theorem Carries.bind {m : Compile α} {n : Compile β} {f : α → Compile γ} {g : β → Compile δ}
    (hmn : Carries S R m n) (hfg : ∀ a b, R a b → Carries S Q (f a) (g b)) :
    Carries S Q (m >>= f) (n >>= g) := by
  intro st st' hst
  rw [StateT.run_bind, StateT.run_bind]
  exact (hmn st st' hst).bind fun x y h => hfg x.1 y.1 h.1 x.2 y.2 h.2

theorem carries_modify {f g : Staging → Staging} (h : ∀ st st', S st st' → S (f st) (g st')) :
    Carries S (fun _ _ => True) (modify f : Compile PUnit) (modify g : Compile PUnit) :=
  fun st st' hst => .accepted ⟨trivial, h st st' hst⟩

theorem carries_set {u v : Staging} (h : S u v) :
    Carries S (fun _ _ => True) (set u : Compile PUnit) (set v : Compile PUnit) :=
  fun _ _ _ => .accepted ⟨trivial, h⟩

theorem carries_mapM {ι κ : Type} {P : ι → κ → Prop} {f : ι → Compile α} {g : κ → Compile β}
    (hfg : ∀ i k, P i k → Carries S R (f i) (g k)) {is : List ι} {ks : List κ}
    (h : List.Forall₂ P is ks) : Carries S (List.Forall₂ R) (is.mapM f) (ks.mapM g) := by
  induction h with
  | nil => exact carries_pure .nil
  | cons hik _ ih =>
    rw [List.mapM_cons, List.mapM_cons]
    refine (hfg _ _ hik).bind fun a b hab => ?_
    exact ih.bind fun as bs hasbs => carries_pure (.cons hab hasbs)

theorem carries_mapM_same {ι : Type} {f : ι → Compile α} {g : ι → Compile β}
    (hfg : ∀ i, Carries S R (f i) (g i)) (is : List ι) :
    Carries S (List.Forall₂ R) (is.mapM f) (is.mapM g) := by
  refine carries_mapM (P := Eq) ?_ (List.forall₂_same.2 fun _ _ => rfl)
  rintro i _ rfl
  exact hfg i

theorem carries_forM {ι κ : Type} {P : ι → κ → Prop} {f : ι → Compile Unit}
    {g : κ → Compile Unit} (hfg : ∀ i k, P i k → Carries S (fun _ _ => True) (f i) (g k))
    {is : List ι} {ks : List κ} (h : List.Forall₂ P is ks) :
    Carries S (fun _ _ => True) (is.forM f) (ks.forM g) := by
  induction h with
  | nil => exact carries_pure trivial
  | cons hik _ ih => exact (hfg _ _ hik).bind fun _ _ _ => ih

end Compile

/-! ## Staging areas under other numbers -/

/-- From a number on all are used in the same order, without gaps. -/
def Consecutive (f : Nat → Nat) (n : Nat) : Prop := ∀ i, f (n + i) = f n + i

theorem Consecutive.succ {f : Nat → Nat} {n : Nat} (h : Consecutive f n) :
    f (n + 1) = f n + 1 ∧ Consecutive f (n + 1) := by
  refine ⟨h 1, fun i => ?_⟩
  rw [h 1, Nat.add_assoc, h (1 + i), Nat.add_assoc]

namespace Renumbering

variable (ρ : Renumbering)

/-- The links of names under their other numbers. -/
def onNames (names : Entries Link) : Entries Link := Entries.mapValues ρ.onLink names

/-- The links of rules under their other numbers. -/
def onCache (cache : List (SchemaId × Link)) : List (SchemaId × Link) :=
  cache.map fun e => (e.1, ρ.onLink e.2)

/-- The task with its link under the other number. -/
def onTask (task : Task) : Task := { task with link := ρ.onLink task.link }

/-- The examples with their link under the other number. -/
def onCase (c : ExampleCase) : ExampleCase := { c with link := ρ.onLink c.link }

/-- A name and what it stands for under their other numbers. -/
def onPair (pair : Link × Link) : Link × Link := (ρ.onLink pair.1, ρ.onLink pair.2)

/-- The staging area under the other numbers. -/
def onStaging (st : Staging) : Staging where
  nameLinks := ρ.onNames st.nameLinks
  cache := ρ.onCache st.cache
  bindings := ρ.onBindings st.bindings
  bound := st.bound.map ρ.onLink
  todo := st.todo.map ρ.onTask
  named := st.named.map ρ.onPair
  examples := st.examples.map ρ.onCase
  nextLink := ρ.link st.nextLink
  nextProgram := ρ.program st.nextProgram

/-- What a batch is compiled from under the other numbers. -/
def onSource (s : Source) : Source :=
  { s with
    nameLinks := ρ.onNames s.nameLinks
    cache := ρ.onCache s.cache
    bindings := ρ.onBindings s.bindings }

/-- The second staging area is the first one under the other numbers, and so will be all
that is given out from now on. -/
structure Stages (st st' : Staging) : Prop where
  eq : st' = ρ.onStaging st
  link : Consecutive ρ.link st.nextLink
  program : Consecutive ρ.program st.nextProgram

/-- The second callee is the first one under its other number. -/
abbrev Calls : Callee → Callee → Prop := Callee.Rel fun l l' => l' = ρ.onLink l

theorem lookup_onNames (names : Entries Link) (n : String) :
    Entries.lookup n (ρ.onNames names) = (Entries.lookup n names).map ρ.onLink :=
  Entries.lookup_mapValues ρ.onLink names n

theorem lookup_onCache (cache : List (SchemaId × Link)) (i : SchemaId) :
    (ρ.onCache cache).lookup i = (cache.lookup i).map ρ.onLink := by
  induction cache with
  | nil => rfl
  | cons e cache ih =>
    rw [onCache, List.map_cons, List.lookup_cons, List.lookup_cons, ← onCache, ih]
    cases i == e.1 <;> rfl

theorem insert_onNames (names : Entries Link) (n : String) (l : Link) :
    Entries.insert n (ρ.onLink l) (ρ.onNames names) = ρ.onNames (Entries.insert n l names) :=
  Entries.insert_mapValues ρ.onLink n l names

end Renumbering

namespace Source

open Compile

variable {ρ : Renumbering} {s : Source} {options : Options} {label : String}

theorem sameRules_onSource (ρ : Renumbering) (s : Source) : SameRules s (ρ.onSource s) :=
  fun _ => rfl

theorem flatten_onSource (features : Entries Value) (label : String) :
    (ρ.onSource s).flatten features label = s.flatten features label :=
  ((sameRules_onSource ρ s).flatten_eq features label).symm

theorem form_onSource (features : Entries Value) (label : String) :
    (ρ.onSource s).form features label = s.form features label :=
  ((sameRules_onSource ρ s).form_eq rfl label).symm

/-! ## Compiling one rule -/

theorem newLink_carries (name : String) :
    Carries ρ.Stages (fun l l' => l' = ρ.onLink l) (newLink name) (newLink name) := by
  refine carries_get.bind ?_
  rintro st _ ⟨rfl, hlink, hprogram⟩
  obtain ⟨hnext, hlink'⟩ := hlink.succ
  refine (carries_set ⟨?_, hlink', hprogram⟩).bind fun _ _ _ => carries_pure rfl
  simp only [Renumbering.onStaging, hnext]

theorem newProgram_carries (id : SchemaId) (breakLoops : Bool) {ss ts : List (Step Callee)}
    (h : List.Forall₂ (Step.Rel ρ.Calls) ss ts) :
    Carries ρ.Stages (fun p p' => p' = ρ.onProgram p) (newProgram id label breakLoops ss)
      (newProgram id label breakLoops ts) := by
  refine carries_get.bind ?_
  rintro st _ ⟨rfl, hlink, hprogram⟩
  obtain ⟨hnext, hprogram'⟩ := hprogram.succ
  have hsteps : ss.map (Step.map (Callee.relink ρ.onLink)) = ts := by
    refine map_eq_of_forall₂ (fun _ _ hst => Step.Rel.map_eq ?_ hst) h
    rintro _ _ (_ | ⟨rfl⟩) <;> rfl
  refine (carries_set ⟨?_, hlink, hprogram'⟩).bind fun _ _ _ => carries_pure ?_
  · rw [← hsteps]
    rfl
  · simp only [Renumbering.onStaging, hnext]

theorem bind_carries (l : Link) (p : Program) :
    Carries ρ.Stages (fun _ _ => True) (Source.bind l p)
      (Source.bind (ρ.onLink l) (ρ.onProgram p)) := by
  refine carries_modify ?_
  rintro st _ ⟨rfl, hlink, hprogram⟩
  refine ⟨?_, hlink, hprogram⟩
  simp only [Renumbering.onStaging, Renumbering.onBindings, Renumbering.onLink, List.map_cons,
    List.map_append, List.map_nil]

theorem linkOfName_carries (name : String) :
    Carries ρ.Stages (fun l l' => l' = ρ.onLink l) (s.linkOfName name)
      ((ρ.onSource s).linkOfName name) := by
  rw [linkOfName, linkOfName, Renumbering.onSource, ρ.lookup_onNames]
  cases Entries.lookup name s.nameLinks with
  | some l => exact carries_pure rfl
  | none =>
    refine carries_get.bind ?_
    rintro st _ ⟨rfl, hlink, hprogram⟩
    rw [Renumbering.onStaging, ρ.lookup_onNames]
    cases Entries.lookup name st.nameLinks with
    | some l => exact carries_pure rfl
    | none =>
      refine (newLink_carries name).bind ?_
      rintro l _ rfl
      refine (carries_modify ?_).bind fun _ _ _ => carries_pure rfl
      rintro st _ ⟨rfl, hlink, hprogram⟩
      refine ⟨?_, hlink, hprogram⟩
      simp only [Renumbering.onStaging, ρ.insert_onNames]

theorem schedule_carries (features : Entries Value) :
    Carries ρ.Stages (fun l l' => l' = ρ.onLink l) (s.schedule features options label)
      ((ρ.onSource s).schedule features options label) := by
  rw [schedule, schedule, form_onSource]
  refine (carries_lift _).bind ?_
  rintro form _ rfl
  refine carries_get.bind ?_
  rintro st _ ⟨rfl, hlink, hprogram⟩
  have hknown : ∀ id, ((ρ.onSource s).cache.lookup id).or ((ρ.onStaging st).cache.lookup id) =
      ((s.cache.lookup id).or (st.cache.lookup id)).map ρ.onLink := by
    intro id
    rw [Renumbering.onSource, Renumbering.onStaging, ρ.lookup_onCache, ρ.lookup_onCache]
    cases s.cache.lookup id <;> rfl
  have hdigest : (ρ.onSource s).digest = s.digest := rfl
  rw [hknown, hdigest]
  cases (s.cache.lookup (SchemaId.of s.digest form options)).or
      (st.cache.lookup (SchemaId.of s.digest form options)) with
  | some l => exact carries_pure rfl
  | none =>
    refine (newLink_carries label).bind ?_
    rintro l _ rfl
    refine (carries_modify ?_).bind fun _ _ _ => carries_pure rfl
    rintro st _ ⟨rfl, hlink, hprogram⟩
    refine ⟨?_, hlink, hprogram⟩
    simp only [Renumbering.onStaging, Renumbering.onCache, Renumbering.onTask, List.map_append,
      List.map_cons, List.map_nil]

/-- The second inner rule is the first one under its other number. -/
structure Resolves (ρ : Renumbering) (r r' : Resolved) : Prop where
  callee : ρ.Calls r.callee r'.callee
  terms : r'.terms = r.terms

theorem resolve_carries (v : Value) :
    Carries ρ.Stages (Resolves ρ) (s.resolve v options label)
      ((ρ.onSource s).resolve v options label) := by
  have hlookup : ∀ name, (ρ.onSource s).lookup name = s.lookup name := fun _ => rfl
  cases v with
  | null => exact carries_pure ⟨.pass, rfl⟩
  | text name =>
    rw [resolve, resolve, hlookup]
    refine (linkOfName_carries name).bind ?_
    rintro l _ rfl
    split
    · rw [flatten_onSource]
      refine (carries_lift _).bind ?_
      rintro flat _ rfl
      refine (carries_lift _).bind ?_
      rintro r _ rfl
      exact carries_pure ⟨.link rfl, rfl⟩
    · exact carries_pure ⟨.link rfl, rfl⟩
  | mapping features =>
    rw [resolve, resolve, flatten_onSource]
    refine (carries_lift _).bind ?_
    rintro flat _ rfl
    split
    · exact carries_pure ⟨.pass, rfl⟩
    · refine (carries_lift _).bind ?_
      rintro r _ rfl
      refine (schedule_carries flat).bind ?_
      rintro l _ rfl
      exact carries_pure ⟨.link rfl, rfl⟩
  | _ => exact carries_throw _

theorem branches_carries (feature : String) (rules : List Value) :
    Carries ρ.Stages (List.Forall₂ ρ.Calls) (s.branches options label feature rules)
      ((ρ.onSource s).branches options label feature rules) := by
  refine carries_mapM_same (fun e => ?_) _
  exact (resolve_carries e.1).bind fun r r' h => carries_pure h.callee

theorem openCallee_carries (rule : Option Value) :
    Carries ρ.Stages (Option.Rel ρ.Calls) (s.openCallee rule options label)
      ((ρ.onSource s).openCallee rule options label) := by
  cases rule with
  | none => exact carries_pure .none
  | some v => exact (resolve_carries v).bind fun r r' h => carries_pure (.some h.callee)

theorem entry_carries (e : String × Value) :
    Carries ρ.Stages (Entry.Rel ρ.Calls) (s.entry options label e)
      ((ρ.onSource s).entry options label e) := by
  refine (resolve_carries e.2).bind fun r r' h => carries_pure ?_
  rw [h.terms]
  exact ⟨rfl, rfl, rfl, h.callee, rfl, rfl⟩

theorem pattern_carries (source : String) :
    Carries ρ.Stages Eq (pattern source label) (pattern source label) := by
  rw [pattern]
  split
  · exact carries_pure rfl
  · exact carries_throw _

theorem patternEntry_carries (e : String × Value) :
    Carries ρ.Stages (PatternEntry.Rel ρ.Calls) (s.patternEntry options label e)
      ((ρ.onSource s).patternEntry options label e) := by
  refine (resolve_carries e.2).bind fun r r' h => (pattern_carries e.1).bind ?_
  rintro p _ rfl
  exact carries_pure ⟨rfl, congrArg EntryTerms.rename h.terms.symm, h.callee⟩

theorem structureOf_carries (rule : Rule) :
    Carries ρ.Stages (Structure.Rel ρ.Calls) (s.structureOf rule options label)
      ((ρ.onSource s).structureOf rule options label) := by
  refine (openCallee_carries rule.keys).bind fun keys keys' hkeys => ?_
  refine (openCallee_carries rule.values).bind fun values values' hvalues => ?_
  have hopen : Option.Rel (OpenRule.Rel ρ.Calls) (rule.openRule (keys.filter (· != .pass)) values)
      (rule.openRule (keys'.filter (· != .pass)) values') := by
    refine Rule.openRule_rel rfl rfl (Rule.filter_rel hkeys ?_) hvalues
    rintro _ _ (_ | _) <;> rfl
  have hsequence := Rule.sequenceItems_rel (r := rule) rfl hopen
  split
  · exact carries_pure ⟨.none, hsequence⟩
  · refine (carries_mapM_same entry_carries _).bind fun es es' hes => ?_
    refine (carries_mapM_same patternEntry_carries _).bind fun ps ps' hps => ?_
    exact carries_pure ⟨.some (Rule.make_rel hes hps hopen _), hsequence⟩

theorem coercer_carries (name : String) :
    Carries ρ.Stages Eq (s.coercer name label) ((ρ.onSource s).coercer name label) := by
  have hcoercions : (ρ.onSource s).coercions = s.coercions := rfl
  rw [coercer, coercer, hcoercions]
  split
  · exact carries_pure rfl
  · exact carries_throw _

theorem remapOf_carries (table : Value) :
    Carries ρ.Stages Eq (remapOf table label) (remapOf table label) := by
  rw [remapOf]
  split
  · exact carries_pure rfl
  · exact carries_throw _

/-- A step that may be missing. -/
theorem stepOf_carries {argument : Option α} {make make' : α → Compile (Step Callee)}
    (h : ∀ a, Carries ρ.Stages (Step.Rel ρ.Calls) (make a) (make' a)) :
    Carries ρ.Stages (List.Forall₂ (Step.Rel ρ.Calls)) (stepOf argument make)
      (stepOf argument make') := by
  cases argument with
  | none => exact carries_pure .nil
  | some a => exact (h a).bind fun _ _ hst => carries_pure (.cons hst .nil)

/-- A step that calls no other rule. -/
theorem checkOf_carries {m n : Compile α} (h : Carries ρ.Stages Eq m n) (make : α → Check) :
    Carries ρ.Stages (Step.Rel ρ.Calls)
      (do
        let a ← m
        pure (.check (make a)))
      (do
        let a ← n
        pure (.check (make a))) := by
  refine h.bind ?_
  rintro a _ rfl
  exact carries_pure (.check _)

theorem nullableStep_carries (rule : Rule) :
    Carries ρ.Stages (List.Forall₂ (Step.Rel ρ.Calls)) (s.nullableStep rule label)
      ((ρ.onSource s).nullableStep rule label) := by
  rw [nullableStep, nullableStep]
  split
  · split
    · refine (coercer_carries _).bind ?_
      rintro c _ rfl
      exact carries_pure (.cons (.check _) .nil)
    · exact carries_pure (.cons (.check _) .nil)
  · exact carries_pure .nil

theorem memberStep_carries (rule : Rule) :
    Carries ρ.Stages (List.Forall₂ (Step.Rel ρ.Calls)) (s.memberStep rule options label)
      ((ρ.onSource s).memberStep rule options label) := by
  rw [memberStep, memberStep]
  split
  · exact (structureOf_carries rule).bind fun _ _ h => carries_pure (.cons (.members h) .nil)
  · exact carries_pure .nil

/-- The steps of a rule call the same under the other numbers. -/
theorem steps_carries (rule : Rule) :
    Carries ρ.Stages (List.Forall₂ (Step.Rel ρ.Calls)) (s.steps rule options label)
      ((ρ.onSource s).steps rule options label) := by
  refine (nullableStep_carries rule).bind fun _ _ hnullable => ?_
  refine (stepOf_carries fun _ => checkOf_carries (coercer_carries _) _).bind fun _ _ hcoerce => ?_
  refine (stepOf_carries fun _ => checkOf_carries (pattern_carries _) _).bind fun _ _ hregex => ?_
  refine (memberStep_carries rule).bind fun _ _ hmembers => ?_
  refine (stepOf_carries fun _ => checkOf_carries (remapOf_carries _) _).bind fun _ _ hremap => ?_
  refine (stepOf_carries fun _ => (branches_carries _ _).bind fun _ _ h =>
    carries_pure (.anyOf h)).bind fun _ _ hanyOf => ?_
  refine (stepOf_carries fun _ => (branches_carries _ _).bind fun _ _ h =>
    carries_pure (.oneOf h)).bind fun _ _ honeOf => ?_
  refine (stepOf_carries fun _ => checkOf_carries (coercer_carries _) _).bind fun _ _ hpost => ?_
  have hbefore := List.rel_append (List.rel_append (List.rel_append (List.rel_append hnullable
    (Rule.kindStage_rel rule.kind)) hcoerce) hregex) hmembers
  have hafter := List.rel_append (List.rel_append (List.rel_append (List.rel_append
    (List.rel_append hbefore hremap) (Rule.checkList_rel rule.bounds)) hanyOf) honeOf) hpost
  exact carries_pure hafter

/-- A rule is compiled to the same program under the other numbers. -/
theorem compile_carries (task : Task) :
    Carries ρ.Stages (fun p p' => p' = ρ.onProgram p) (s.compile task)
      ((ρ.onSource s).compile (ρ.onTask task)) := by
  refine (carries_lift _).bind ?_
  rintro rule _ rfl
  refine (steps_carries rule).bind fun ss ts hsteps => ?_
  have hprogram : Carries ρ.Stages (fun p p' => p' = ρ.onProgram p)
      (newProgram task.id task.label task.options.breakLoops ss)
      (newProgram (ρ.onTask task).id (ρ.onTask task).label (ρ.onTask task).options.breakLoops ts) :=
    newProgram_carries task.id task.options.breakLoops hsteps
  split
  · refine (carries_modify ?_).bind fun _ _ _ => hprogram
    rintro st _ ⟨rfl, hlink, hprogram⟩
    refine ⟨?_, hlink, hprogram⟩
    simp only [Renumbering.onStaging, Renumbering.onTask, Renumbering.onCase, List.map_append,
      List.map_cons, List.map_nil]
  · exact hprogram

/-! ## Compiling a batch -/

theorem drain_carries (fuel : Nat) :
    Carries ρ.Stages (fun _ _ => True) (s.drain fuel) ((ρ.onSource s).drain fuel) := by
  have htodo : ∀ st, (ρ.onStaging st).todo = st.todo.map ρ.onTask := fun _ => rfl
  induction fuel with
  | zero =>
    refine carries_get.bind ?_
    rintro st _ ⟨rfl, -, -⟩
    rw [htodo]
    cases st.todo with
    | nil => exact carries_pure trivial
    | cons task rest => exact carries_throw _
  | succ fuel ih =>
    refine carries_get.bind ?_
    rintro st _ ⟨rfl, hlink, hprogram⟩
    rw [htodo]
    cases st.todo with
    | nil => exact carries_pure trivial
    | cons task rest =>
      refine (carries_set ⟨rfl, hlink, hprogram⟩).bind fun _ _ _ => ?_
      refine (compile_carries task).bind ?_
      rintro p _ rfl
      exact (bind_carries task.link p).bind fun _ _ _ => ih

theorem drainAll_carries :
    Carries ρ.Stages (fun _ _ => True) s.drainAll (ρ.onSource s).drainAll := by
  refine carries_get.bind ?_
  rintro st _ ⟨rfl, -, -⟩
  have hpending : pending (ρ.onStaging st) = pending st := by
    rw [pending, pending, Renumbering.onStaging, List.map_map]
    rfl
  rw [hpending]
  exact drain_carries _

/-- A rule of the batch is named under the other numbers. -/
theorem nameRule_carries (flat : Entries Value) (n : String) (l : Link) :
    Carries ρ.Stages (fun _ _ => True)
      (do
        let target ← s.schedule flat s.options n
        modify fun st => { st with named := st.named ++ [(l, target)] }
        s.drainAll)
      (do
        let target ← (ρ.onSource s).schedule flat (ρ.onSource s).options n
        modify fun st => { st with named := st.named ++ [(ρ.onLink l, target)] }
        (ρ.onSource s).drainAll) := by
  refine (schedule_carries flat).bind ?_
  rintro target _ rfl
  refine (carries_modify ?_).bind fun _ _ _ => drainAll_carries
  rintro st _ ⟨rfl, hlink, hprogram⟩
  refine ⟨?_, hlink, hprogram⟩
  simp only [Renumbering.onStaging, Renumbering.onPair, List.map_append, List.map_cons,
    List.map_nil]

theorem compileNamed_carries (e : String × Value) :
    Carries ρ.Stages (fun _ _ => True) (s.compileNamed e) ((ρ.onSource s).compileNamed e) := by
  obtain ⟨n, v⟩ := e
  refine (linkOfName_carries n).bind ?_
  rintro l _ rfl
  cases v with
  | text name =>
    refine (linkOfName_carries name).bind ?_
    rintro target _ rfl
    refine (newProgram_carries _ _ (.cons (.refer (.link rfl)) .nil)).bind ?_
    rintro p _ rfl
    exact bind_carries l p
  | null => exact nameRule_carries [] n l
  | mapping features =>
    refine Carries.bind (R := Eq) ?_ ?_
    · rw [flatten_onSource]
      exact carries_lift _
    · rintro flat _ rfl
      exact nameRule_carries flat n l
  | _ => exact carries_throw _

theorem bindName_carries (pair : Link × Link) :
    Carries ρ.Stages (fun _ _ => True) (s.bindName pair)
      ((ρ.onSource s).bindName (ρ.onPair pair)) := by
  refine carries_get.bind ?_
  rintro st _ ⟨rfl, -, -⟩
  have hlookup : ((ρ.onStaging st).bindings.lookup (ρ.onPair pair).2.number).or
      ((ρ.onSource s).bindings.lookup (ρ.onPair pair).2.number) =
      ((st.bindings.lookup pair.2.number).or (s.bindings.lookup pair.2.number)).map
        ρ.onProgram := by
    rw [Renumbering.onStaging, Renumbering.onSource, Renumbering.onPair]
    have hnumber : (ρ.onLink pair.2).number = ρ.link pair.2.number := rfl
    dsimp only
    rw [hnumber, ρ.lookup_onBindings, ρ.lookup_onBindings]
    cases st.bindings.lookup pair.2.number <;> rfl
  rw [hlookup]
  cases (st.bindings.lookup pair.2.number).or (s.bindings.lookup pair.2.number) with
  | some p => exact bind_carries pair.1 p
  | none => exact carries_pure trivial

/-- A batch is compiled to the same under the other numbers. -/
theorem compileBatch_carries :
    Carries ρ.Stages (fun _ _ => True) s.compileBatch (ρ.onSource s).compileBatch := by
  refine (carries_forM (P := Eq) ?_ (List.forall₂_same.2 fun _ _ => rfl)).bind fun _ _ _ => ?_
  · rintro e _ rfl
    exact compileNamed_carries e
  refine drainAll_carries.bind fun _ _ _ => carries_get.bind ?_
  rintro st _ ⟨rfl, -, -⟩
  refine carries_forM (P := fun pair pair' => pair' = ρ.onPair pair) ?_ ?_
  · rintro pair _ rfl
    exact bindName_carries pair
  · exact List.forall₂_map_right_iff.2 (List.forall₂_same.2 fun _ _ => rfl)

end Source
end Rulebook
