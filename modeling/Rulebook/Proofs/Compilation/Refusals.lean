import Rulebook.Proofs.Compilation.Forms
import Rulebook.Proofs.Compilation.Moves
import Rulebook.Proofs.Rule.Grammar
import Rulebook.Proofs.Rule.Inside

/-!
# With what a computation is refused

`Refuses errors x` says that the computation is refused with one of the given errors, if it
is refused at all.  There is one rule for each way in which computations are put together.
`Compile.Confined errors admits m` says it of a compilation wherever that starts, and says
which rules the compilation may put on the worklist.

Features whose arguments have the shapes of a grammar are read without any refusal, and
a table of substitutions is refused only for a source that is a container.
-/

namespace Rulebook

variable {α β : Type} {errors : SchemaError → Prop}

/-- If the computation is refused, then with one of the given errors. -/
def Refuses (errors : SchemaError → Prop) (x : Except SchemaError α) : Prop :=
  ∀ e, x = .error e → errors e

theorem refuses_ok (a : α) : Refuses errors (.ok a) := by
  intro e h
  cases h

theorem refuses_error {e : SchemaError} (h : errors e) :
    Refuses errors (.error e : Except SchemaError α) := by
  rintro _ ⟨⟩
  exact h

theorem Refuses.bind {x : Except SchemaError α} {f : α → Except SchemaError β}
    (hx : Refuses errors x) (hf : ∀ a, x = .ok a → Refuses errors (f a)) :
    Refuses errors (x >>= f) := by
  cases x with
  | ok a => exact hf a rfl
  | error e => exact refuses_error (hx e rfl)

theorem refuses_mapM {f : α → Except SchemaError β} {as : List α}
    (h : ∀ a ∈ as, Refuses errors (f a)) : Refuses errors (as.mapM f) := by
  induction as with
  | nil => exact refuses_ok []
  | cons a as ih =>
    rw [List.mapM_cons]
    refine (h a (List.mem_cons_self ..)).bind fun b _ => ?_
    refine (ih fun a ha => h a (List.mem_cons_of_mem _ ha)).bind fun bs _ => ?_
    exact refuses_ok _

theorem refuses_forM {f : α → Except SchemaError Unit} {as : List α}
    (h : ∀ a ∈ as, Refuses errors (f a)) : Refuses errors (as.forM f) := by
  induction as with
  | nil => exact refuses_ok _
  | cons a as ih =>
    exact (h a (List.mem_cons_self ..)).bind fun _ _ =>
      ih fun b hb => h b (List.mem_cons_of_mem _ hb)

/-! ## Reading -/

namespace Rule

section

variable {features : Entries Value} {label feature : String}
  (hmalformed : ∀ flaw, errors (.malformed label flaw))
include hmalformed

theorem malformed_readKind : Refuses errors (readKind features label) := by
  rw [readKind]
  split
  · exact refuses_ok _
  · split
    · exact refuses_ok _
    · exact refuses_error (hmalformed _)
  · exact refuses_error (hmalformed _)

theorem malformed_readText : Refuses errors (readText features label feature) := by
  rw [readText]
  split
  · exact refuses_ok _
  · exact refuses_ok _
  · exact refuses_error (hmalformed _)

theorem malformed_readBool : Refuses errors (readBool features label feature) := by
  rw [readBool]
  split
  · exact refuses_ok _
  · exact refuses_ok _
  · exact refuses_error (hmalformed _)

theorem malformed_readCount : Refuses errors (readCount features label feature) := by
  rw [readCount]
  split
  · exact refuses_ok _
  · split
    · exact refuses_ok _
    · exact refuses_error (hmalformed _)
  · exact refuses_error (hmalformed _)

theorem malformed_readList : Refuses errors (readList features label feature) := by
  rw [readList]
  split
  · exact refuses_ok _
  · exact refuses_ok _
  · exact refuses_error (hmalformed _)

theorem malformed_readMapping : Refuses errors (readMapping features label feature) := by
  rw [readMapping]
  split
  · exact refuses_ok _
  · exact refuses_ok _
  · exact refuses_error (hmalformed _)

theorem malformed_readTexts : Refuses errors (readTexts features label feature) := by
  rw [readTexts]
  split
  · rename_i e he
    exact refuses_error (malformed_readList hmalformed e he)
  · exact refuses_ok _
  · split
    · exact refuses_ok _
    · exact refuses_error (hmalformed _)

/-- Reading a rule is refused only as malformed. -/
theorem malformed_read : Refuses errors (Rule.read features label) := by
  unfold Rule.read
  repeat refine Refuses.bind (by
    first
      | exact malformed_readKind hmalformed
      | exact malformed_readText hmalformed
      | exact malformed_readBool hmalformed
      | exact malformed_readCount hmalformed
      | exact malformed_readList hmalformed
      | exact malformed_readMapping hmalformed
      | exact malformed_readTexts hmalformed) fun _ _ => ?_
  exact refuses_ok _

end

section

variable {features : Entries Value} {label feature : String} (hfits : ArgumentsFit features)
include hfits

theorem refuses_readKind : Refuses errors (readKind features label) := by
  rw [readKind]
  cases hlookup : Entries.lookup "type" features with
  | none => exact refuses_ok _
  | some v =>
    obtain ⟨k, rfl⟩ := fits_iff.1 (hfits "type" v .tag hlookup rfl)
    dsimp only
    rw [Kind.ofTag?_tag]
    exact refuses_ok _

theorem refuses_readText (hshape : shapes.lookup feature = some .text) :
    Refuses errors (readText features label feature) := by
  rw [readText, argument?]
  cases hlookup : Entries.lookup feature features with
  | none => exact refuses_ok _
  | some v =>
    obtain ⟨t, rfl⟩ := fits_iff.1 (hfits feature v .text hlookup hshape)
    exact refuses_ok _

theorem refuses_readBool (hshape : shapes.lookup feature = some .switch) :
    Refuses errors (readBool features label feature) := by
  rw [readBool, argument?]
  cases hlookup : Entries.lookup feature features with
  | none => exact refuses_ok _
  | some v =>
    obtain ⟨b, rfl⟩ := fits_iff.1 (hfits feature v .switch hlookup hshape)
    exact refuses_ok _

theorem refuses_readCount (hshape : shapes.lookup feature = some .count) :
    Refuses errors (readCount features label feature) := by
  rw [readCount, argument?]
  cases hlookup : Entries.lookup feature features with
  | none => exact refuses_ok _
  | some v =>
    obtain ⟨i, rfl, hi⟩ := fits_iff.1 (hfits feature v .count hlookup hshape)
    dsimp only
    rw [if_pos hi]
    exact refuses_ok _

/-- Arguments of several shapes are lists. -/
theorem refuses_readList {shape : Shape} (hshape : shapes.lookup feature = some shape)
    (hlist : shape = .list ∨ shape = .texts ∨ shape = .branches) :
    Refuses errors (readList features label feature) := by
  rw [readList, argument?]
  cases hlookup : Entries.lookup feature features with
  | none => exact refuses_ok _
  | some v =>
    have hv := fits_iff.1 (hfits feature v shape hlookup hshape)
    obtain rfl | rfl | rfl := hlist
    · obtain ⟨vs, rfl⟩ := hv
      exact refuses_ok _
    · obtain ⟨vs, rfl, -⟩ := hv
      exact refuses_ok _
    · obtain ⟨vs, rfl, -⟩ := hv
      exact refuses_ok _

theorem refuses_readTexts (hshape : shapes.lookup feature = some .texts) :
    Refuses errors (readTexts features label feature) := by
  rw [readTexts]
  split
  · rename_i e he
    exact refuses_error (refuses_readList hfits hshape (Or.inr (Or.inl rfl)) e he)
  · exact refuses_ok _
  · rename_i vs hvs
    obtain ⟨ws, heq, htexts⟩ :=
      fits_iff.1 (hfits feature _ .texts (lookup_of_readList hvs) hshape)
    cases heq
    have hmapM : ∀ {vs : List Value}, (∀ w ∈ vs, ∃ t, w = .text t) →
        ∃ ts, vs.mapM Value.text? = some ts := by
      intro vs
      induction vs with
      | nil => exact fun _ => ⟨[], rfl⟩
      | cons w vs ih =>
        intro hall
        obtain ⟨⟨t, rfl⟩, hrest⟩ := List.forall_mem_cons.1 hall
        obtain ⟨ts, hts⟩ := ih hrest
        exact ⟨t :: ts, by rw [List.mapM_cons, hts]; rfl⟩
    obtain ⟨ts, hts⟩ := hmapM htexts
    rw [hts]
    exact refuses_ok _

theorem refuses_readMapping (hshape : shapes.lookup feature = some .rules) :
    Refuses errors (readMapping features label feature) := by
  rw [readMapping, argument?]
  cases hlookup : Entries.lookup feature features with
  | none => exact refuses_ok _
  | some v =>
    obtain ⟨es, rfl, -⟩ := fits_iff.1 (hfits feature v .rules hlookup hshape)
    exact refuses_ok _

/-- Features with arguments of their shapes are read without any refusal. -/
theorem refuses_read : Refuses errors (Rule.read features label) := by
  unfold Rule.read
  repeat refine Refuses.bind (by
    first
      | exact refuses_readKind hfits
      | exact refuses_readText hfits rfl
      | exact refuses_readBool hfits rfl
      | exact refuses_readCount hfits rfl
      | exact refuses_readTexts hfits rfl
      | exact refuses_readMapping hfits rfl
      | exact refuses_readList hfits rfl (by decide)) fun _ _ => ?_
  exact refuses_ok _

end

/-! ## Tables -/

/-- A list of pairs is refused only for a source that is a container. -/
theorem readPairs_error {pairs : List Value} {flaw : Flaw}
    (hpairs : ∀ v ∈ pairs, ∃ source target, v = .list [source, target])
    (h : Remap.readPairs pairs = .error flaw) : flaw = .remapSource ∧
      ∃ source target, .list [source, target] ∈ pairs ∧ ScalarKey.of? source = none := by
  induction pairs with
  | nil => cases h
  | cons v pairs ih =>
    obtain ⟨⟨source, target, rfl⟩, hrest⟩ := List.forall_mem_cons.1 hpairs
    have htail : ∀ flaw', Remap.readPairs pairs = .error flaw' → flaw' = flaw → flaw = .remapSource ∧
        ∃ source' target', .list [source', target'] ∈ Value.list [source, target] :: pairs ∧
          ScalarKey.of? source' = none := by
      rintro _ htail rfl
      obtain ⟨hflaw, source', target', hmem, hnone⟩ := ih hrest htail
      exact ⟨hflaw, source', target', List.mem_cons_of_mem _ hmem, hnone⟩
    rw [Remap.readPairs] at h
    split at h
    · split at h
      · cases h
      · rename_i e he
        exact htail e he (Except.error.inj h)
    · split at h
      · rename_i hkey
        exact ⟨(Except.error.inj h).symm, source, target, List.mem_cons_self .., hkey⟩
      · split at h
        · cases h
        · rename_i e he
          exact htail e he (Except.error.inj h)

/-- A table is refused only for a source that is a container. -/
theorem ofValue_error {table : Value} {flaw : Flaw} (htable : Fits .table table)
    (h : Remap.ofValue table = .error flaw) : flaw = .remapSource ∧ ∃ pairs source target,
      table = .list pairs ∧ .list [source, target] ∈ pairs ∧ ScalarKey.of? source = none := by
  obtain ⟨es, rfl⟩ | ⟨pairs, rfl, hpairs⟩ := fits_iff.1 htable
  · cases h
  · obtain ⟨hflaw, source, target, hmem, hnone⟩ := readPairs_error hpairs h
    exact ⟨hflaw, pairs, source, target, rfl, hmem, hnone⟩

end Rule

namespace Source

open Rule

variable {s : Source}

/-! ## Forms -/

theorem refuses_reform {feature : String} {change : Value → Except SchemaError Value}
    {form : Entries Value}
    (h : ∀ argument, Entries.lookup feature form = some argument → Refuses errors (change argument)) :
    Refuses errors (reform feature change form) := by
  rw [reform]
  split
  · exact refuses_ok _
  · rename_i argument hargument
    exact (h argument hargument).bind fun _ _ => refuses_ok _

theorem refuses_ruleMapForm {sub : Value → Except SchemaError Value} {v : Value}
    (htaken : ∀ es, v = .mapping es → ∀ key name, (key, .text name) ∈ es →
      Refuses errors (s.taken name))
    (hsub : ∀ es, v = .mapping es → ∀ e ∈ es, Refuses errors (sub e.2)) :
    Refuses errors (s.ruleMapForm sub v) := by
  cases v with
  | mapping es =>
    refine (refuses_mapM fun e he => ?_).bind fun _ _ => refuses_ok _
    obtain ⟨key, w⟩ := e
    rw [entryForm]
    split
    · rename_i name heq
      cases heq
      exact ((htaken es rfl key name he).bind fun _ _ => refuses_ok _).bind fun _ _ => refuses_ok _
    · exact (hsub es rfl _ he).bind fun _ _ => refuses_ok _
  | _ => exact refuses_ok _

theorem refuses_ruleListForm {sub : Value → Except SchemaError Value} {v : Value}
    (h : ∀ vs, v = .list vs → ∀ w ∈ vs, Refuses errors (sub w)) :
    Refuses errors (ruleListForm sub v) := by
  cases v with
  | list vs => exact (refuses_mapM (h vs rfl)).bind fun _ _ => refuses_ok _
  | _ => exact refuses_ok _

theorem refuses_reformAll {f : String → Value → Except SchemaError Value} {keys : List String}
    {features : Entries Value} (hkeys : keys.Nodup)
    (h : ∀ key ∈ keys, ∀ v, Entries.lookup key features = some v → Refuses errors (f key v)) :
    Refuses errors (reformAll f keys features) := by
  induction keys generalizing features with
  | nil => exact refuses_ok _
  | cons feature keys ih =>
    rw [reformAll, List.foldlM_cons]
    refine (refuses_reform (h feature (List.mem_cons_self ..))).bind fun form hform => ?_
    refine ih hkeys.of_cons fun key hkey v hv => h key (List.mem_cons_of_mem _ hkey) v ?_
    rw [← lookup_reform_of_mem hkeys hform hkey]
    exact hv

/-- The form of features is refused as those of the rules inside are, or as what an entry
takes up from the rule that it names. -/
theorem refuses_formWith {sub : Value → Except SchemaError Value} {features : Entries Value}
    (htaken : ∀ name, Inside features (.text name) → Refuses errors (s.taken name))
    (hsub : ∀ v, Inside features v → Refuses errors (sub v)) :
    Refuses errors (s.formWith sub features) := by
  rw [formWith_eq_reformAll]
  refine refuses_reformAll (by decide) fun key hkey v hv => ?_
  rcases change_eq hkey with ⟨hkey, heq⟩ | ⟨hkey, heq⟩ | ⟨hkey, heq⟩
  · rw [heq]
    exact refuses_ruleMapForm
      (fun es hes k name he => htaken name (.entry hkey (hv.trans (congrArg some hes)) he))
      fun es hes e he => hsub e.2 (.entry hkey (hv.trans (congrArg some hes)) he)
  · rw [heq]
    exact hsub v (.argument hkey hv)
  · rw [heq]
    exact refuses_ruleListForm fun vs hvs w hw =>
      hsub w (.branch hkey (hv.trans (congrArg some hvs)) hw)

end Source

/-! ## Compiling -/

namespace Compile

/-- Wherever it starts, the compilation is refused with one of the given errors, if it is
refused at all, and puts only admitted rules on the worklist. -/
structure Confined (errors : SchemaError → Prop) (admits : Task → Prop) (m : Compile α) : Prop where
  refuses : ∀ st, Refuses errors (m.run st)
  adds : ∀ {st a st'}, m.Yields st a st' → ∀ task ∈ st'.todo, task ∈ st.todo ∨ admits task

variable {admits : Task → Prop}

/-- What comes after a compilation need only be known where that one ends. -/
theorem refuses_run_bind {m : Compile α} {f : α → Compile β} {st : Staging}
    (hm : Refuses errors (m.run st))
    (hf : ∀ a st', m.Yields st a st' → Refuses errors ((f a).run st')) :
    Refuses errors ((m >>= f).run st) := by
  rw [StateT.run_bind]
  exact hm.bind fun p hp => hf p.1 p.2 hp

theorem Confined.bind {m : Compile α} {f : α → Compile β} (hm : Confined errors admits m)
    (hf : ∀ {st a st'}, m.Yields st a st' → Confined errors admits (f a)) :
    Confined errors admits (m >>= f) where
  refuses st := refuses_run_bind (hm.refuses st) fun _ st' ha => (hf ha).refuses st'
  adds := by
    intro st b st'' h task htask
    obtain ⟨a, st', ha, hb⟩ := yields_bind.1 h
    rcases (hf ha).adds hb task htask with hold | hadmits
    · exact hm.adds ha task hold
    · exact Or.inr hadmits

/-- A compilation that is not refused and leaves the worklist as it was. -/
theorem confined_of_todo {m : Compile α} (hends : ∀ st, ∃ p, m.run st = .ok p)
    (htodo : ∀ {st a st'}, m.Yields st a st' → st'.todo = st.todo) :
    Confined errors admits m where
  refuses st := by
    obtain ⟨p, hp⟩ := hends st
    rw [hp]
    exact refuses_ok p
  adds h task htask := Or.inl (htodo h ▸ htask)

theorem confined_pure (a : α) : Confined errors admits (pure a : Compile α) :=
  confined_of_todo (fun _ => ⟨_, rfl⟩) fun h => by rw [(yields_pure.1 h).2]

theorem confined_throw {e : SchemaError} (h : errors e) :
    Confined errors admits (throw e : Compile α) where
  refuses _ := refuses_error h
  adds hyields := (yields_throw.1 hyields).elim

theorem confined_lift {x : Except SchemaError α} (h : Refuses errors x) :
    Confined errors admits (liftM x : Compile α) where
  refuses _ := h.bind fun _ _ => refuses_ok _
  adds hyields task htask := by
    rw [(yields_lift.1 hyields).2]
    exact Or.inl htask

theorem confined_get : Confined errors admits (get : Compile Staging) :=
  confined_of_todo (fun _ => ⟨_, rfl⟩) fun h => by rw [(yields_get.1 h).2]

theorem confined_modify {f : Staging → Staging} (h : ∀ st, (f st).todo = st.todo) :
    Confined errors admits (modify f : Compile PUnit) :=
  confined_of_todo (fun _ => ⟨_, rfl⟩) fun hyields => by rw [yields_modify.1 hyields, h]

theorem confined_mapM {f : α → Compile β} {as : List α}
    (h : ∀ a ∈ as, Confined errors admits (f a)) : Confined errors admits (as.mapM f) := by
  induction as with
  | nil => exact confined_pure []
  | cons a as ih =>
    rw [List.mapM_cons]
    refine (h a (List.mem_cons_self ..)).bind fun _ => ?_
    refine (ih fun a ha => h a (List.mem_cons_of_mem _ ha)).bind fun _ => ?_
    exact confined_pure _

theorem confined_forM {f : α → Compile Unit} {as : List α}
    (h : ∀ a ∈ as, Confined errors admits (f a)) : Confined errors admits (as.forM f) := by
  induction as with
  | nil => exact confined_pure ()
  | cons a as ih =>
    refine (h a (List.mem_cons_self ..)).bind fun _ => ?_
    exact ih fun a ha => h a (List.mem_cons_of_mem _ ha)

end Compile

namespace Source

open Compile

variable {s : Source} {options : Options} {label : String} {admits : Task → Prop}

theorem newLink_confined (name : String) : Confined errors admits (newLink name) := by
  refine confined_of_todo (fun _ => ⟨_, rfl⟩) fun h => ?_
  simp only [newLink, yields_bind, yields_get, yields_set, yields_pure] at h
  obtain ⟨_, _, ⟨rfl, rfl⟩, _, _, rfl, -, rfl⟩ := h
  rfl

theorem newProgram_confined (id : SchemaId) (breakLoops : Bool) (steps : List (Step Callee)) :
    Confined errors admits (newProgram id label breakLoops steps) := by
  refine confined_of_todo (fun _ => ⟨_, rfl⟩) fun h => ?_
  simp only [newProgram, yields_bind, yields_get, yields_set, yields_pure] at h
  obtain ⟨_, _, ⟨rfl, rfl⟩, _, _, rfl, -, rfl⟩ := h
  rfl

theorem linkOfName_confined (name : String) : Confined errors admits (s.linkOfName name) := by
  rw [linkOfName]
  split
  · exact confined_pure _
  · refine confined_get.bind fun _ => ?_
    split
    · exact confined_pure _
    · refine (newLink_confined name).bind fun _ => ?_
      exact Confined.bind (confined_modify fun _ => rfl) fun _ => confined_pure _

theorem bindName_confined (pair : Link × Link) : Confined errors admits (s.bindName pair) := by
  rw [bindName]
  refine confined_get.bind fun _ => ?_
  split
  · exact confined_modify fun _ => rfl
  · exact confined_pure _

/-- Scheduling a rule is refused as its form is, and puts the rule on the worklist. -/
theorem schedule_confined {features : Entries Value} (h : Refuses errors (s.form features label))
    (hadmits : ∀ id link form, admits ⟨id, link, features, form, options, label⟩) :
    Confined errors admits (s.schedule features options label) := by
  rw [schedule]
  refine (confined_lift h).bind fun _ => confined_get.bind fun _ => ?_
  split
  · exact confined_pure _
  · refine (newLink_confined label).bind fun _ => ?_
    refine Confined.bind ⟨fun _ => refuses_ok _, fun hyields task htask => ?_⟩ fun _ =>
      confined_pure _
    rw [yields_modify.1 hyields] at htask
    rcases List.mem_append.1 htask with hold | hnew
    · exact Or.inl hold
    · rw [List.mem_singleton.1 hnew]
      exact Or.inr (hadmits _ _ _)

/-- A step that may be missing. -/
theorem stepOf_confined {argument : Option α} {make : α → Compile (Step Callee)}
    (h : ∀ a, argument = some a → Confined errors admits (make a)) :
    Confined errors admits (stepOf argument make) := by
  cases argument with
  | none => exact confined_pure []
  | some a => exact (h a rfl).bind fun _ => confined_pure _

section

variable {rule : Rule}
  (hcoercion : ∀ label name, errors (.unknownCoercion label name))
  (hpattern : ∀ label source, errors (.invalidPattern label source))
  (hresolve : ∀ v ∈ rule.subRules, ∀ place,
    Confined errors admits (s.resolve v options (label ++ "." ++ place)))

include hcoercion in
theorem coercer_confined (name : String) : Confined errors admits (s.coercer name label) := by
  rw [coercer]
  split
  · exact confined_pure _
  · exact confined_throw (hcoercion label name)

include hpattern in
theorem pattern_confined (source : String) : Confined errors admits (pattern source label) := by
  rw [pattern]
  split
  · exact confined_pure _
  · exact confined_throw (hpattern label source)

include hcoercion in
theorem nullableStep_confined : Confined errors admits (s.nullableStep rule label) := by
  rw [nullableStep]
  split
  · split
    · exact (coercer_confined hcoercion _).bind fun _ => confined_pure _
    · exact confined_pure _
  · exact confined_pure _

theorem branchesOf_confined {feature : String} {argument : Option (List Value)}
    {make : List Callee → Step Callee}
    (h : ∀ v ∈ argument.getD [], ∀ place,
      Confined errors admits (s.resolve v options (label ++ "." ++ place))) :
    Confined errors admits (stepOf argument fun vs => do
      let cs ← s.branches options label feature vs
      pure (make cs)) := by
  refine stepOf_confined fun vs hvs => ?_
  subst hvs
  refine Confined.bind ?_ fun _ => confined_pure _
  rw [branches]
  refine confined_mapM fun e he => ?_
  have hbranch := h e.1 (List.fst_mem_of_mem_zipIdx he) (feature ++ "[" ++ toString e.2 ++ "]")
  simp only [String.append_assoc] at hbranch ⊢
  exact hbranch.bind fun _ => confined_pure _

theorem openCallee_confined {v : Option Value} {place : String}
    (h : ∀ u ∈ v.toList, ∀ place,
      Confined errors admits (s.resolve u options (label ++ "." ++ place))) :
    Confined errors admits (s.openCallee v options (label ++ "." ++ place)) := by
  cases v with
  | none => exact confined_pure none
  | some v =>
    rw [openCallee]
    exact (h v (List.mem_singleton_self v) place).bind fun _ => confined_pure _

include hpattern hresolve in
theorem memberStep_confined : Confined errors admits (s.memberStep rule options label) := by
  obtain ⟨hitems, hpatternItems, hinKeys, hinValues, -, -⟩ := Rule.forall_mem_subRules.1 hresolve
  have hkeys : label ++ ".keys" = label ++ "." ++ "keys" := by
    rw [String.append_assoc]
    rfl
  have hvalues : label ++ ".values" = label ++ "." ++ "values" := by
    rw [String.append_assoc]
    rfl
  rw [memberStep]
  split
  · refine Confined.bind ?_ fun _ => confined_pure _
    rw [structureOf, hkeys, hvalues]
    refine (openCallee_confined hinKeys).bind fun _ => ?_
    refine (openCallee_confined hinValues).bind fun _ => ?_
    split
    · exact confined_pure _
    · refine (confined_mapM fun e he => ?_).bind fun _ => (confined_mapM fun e he => ?_).bind fun _ =>
        confined_pure _
      · exact (hitems e.2 (List.mem_map_of_mem he) _).bind fun _ => confined_pure _
      · refine (hpatternItems e.2 (List.mem_map_of_mem he) _).bind fun _ => ?_
        exact (pattern_confined hpattern e.1).bind fun _ => confined_pure _
  · exact confined_pure _

include hcoercion hpattern hresolve in
/-- The steps of a rule are refused as the rules inside and the table are. -/
theorem steps_confined
    (hremap : ∀ table, rule.remap = some table → Confined errors admits (remapOf table label)) :
    Confined errors admits (s.steps rule options label) := by
  have hmembers : Confined errors admits (s.memberStep rule options label) :=
    memberStep_confined hpattern hresolve
  have hcoercer (name : String) : Confined errors admits (s.coercer name label) :=
    coercer_confined hcoercion name
  obtain ⟨-, -, -, -, hanyOf, honeOf⟩ := Rule.forall_mem_subRules.1 hresolve
  rw [steps]
  refine (nullableStep_confined hcoercion).bind fun _ => ?_
  refine (stepOf_confined fun name _ => (hcoercer name).bind fun _ => confined_pure _).bind fun _ => ?_
  refine (stepOf_confined fun source _ => ?_).bind fun _ => ?_
  · exact (pattern_confined hpattern source).bind fun _ => confined_pure _
  refine hmembers.bind fun _ => ?_
  refine (stepOf_confined fun table h =>
    (hremap table h).bind fun _ => confined_pure _).bind fun _ => ?_
  refine (branchesOf_confined hanyOf).bind fun _ => ?_
  refine (branchesOf_confined honeOf).bind fun _ => ?_
  refine (stepOf_confined fun name _ => (hcoercer name).bind fun _ => confined_pure _).bind fun _ => ?_
  exact confined_pure _

end

theorem compile_confined {task : Task}
    (hread : Refuses errors (Rule.read task.features task.label))
    (hsteps : ∀ rule, Rule.read task.features task.label = .ok rule → ∀ options,
      Confined errors admits (s.steps rule options task.label)) :
    Confined errors admits (s.compile task) := by
  rw [compile]
  refine (confined_lift hread).bind fun h => ?_
  refine (hsteps _ (yields_lift.1 h).1 _).bind fun _ => ?_
  split
  · exact Confined.bind (confined_modify fun _ => rfl) fun _ => newProgram_confined _ _ _
  · exact newProgram_confined _ _ _

/-! ## Compiling a batch -/

/-- Compiling what waits is refused as one rule that waits, or for want of depth. -/
theorem drain_refused (hendless : ∀ label, errors (.endless label))
    (hcompile : ∀ task, s.Waits task → admits task → Confined errors admits (s.compile task))
    {fuel : Nat} {st : Staging} (hready : s.Ready st) (htodo : ∀ task ∈ st.todo, admits task) :
    Refuses errors ((s.drain fuel).run st) := by
  induction fuel generalizing st with
  | zero =>
    rw [drain]
    refine refuses_run_bind (refuses_ok _) fun st' _ _ => ?_
    split
    · exact refuses_ok _
    · exact refuses_error (hendless _)
  | succ fuel ih =>
    rw [drain]
    refine refuses_run_bind (refuses_ok _) fun st' st'' hget => ?_
    obtain ⟨rfl, rfl⟩ := yields_get.1 hget
    cases hcases : st.todo with
    | nil => exact refuses_ok _
    | cons task rest =>
      rw [hcases] at htodo
      obtain ⟨hadmits, hrest⟩ := List.forall_mem_cons.1 htodo
      have htask : s.Waits task := hready task (hcases ▸ List.mem_cons_self ..)
      have hready' : s.Ready { st with todo := rest } :=
        fun t ht => hready t (hcases ▸ List.mem_cons_of_mem _ ht)
      have hconfined := hcompile task htask hadmits
      refine refuses_run_bind (refuses_ok _) fun _ st₁ hset => ?_
      obtain rfl := yields_set.1 hset
      refine refuses_run_bind (hconfined.refuses _) fun p st₂ hp => ?_
      refine refuses_run_bind (refuses_ok _) fun _ st₃ hbind => ?_
      obtain rfl := yields_modify.1 hbind
      exact ih ((Moves.finish hp htask).2 hready') fun t ht =>
        (hconfined.adds hp t ht).elim (hrest t) id

/-- When a rule of the batch has been compiled nothing waits that did not wait before. -/
theorem compileNamed_todo {e : String × Value} {st st' : Staging} (hmem : e ∈ s.batch)
    (hready : s.Ready st) (h : (s.compileNamed e).Yields st () st') :
    ∀ task ∈ st'.todo, task ∈ st.todo := by
  obtain ⟨n, v⟩ := e
  have hlink {st st' : Staging} {name : String} {l : Link}
      (h : (s.linkOfName name).Yields st l st') : ∀ task ∈ st'.todo, task ∈ st.todo :=
    fun task ht => ((linkOfName_confined name : Confined (fun _ => False) (fun _ => False) _).adds
      h task ht).resolve_right id
  simp only [compileNamed, yields_bind] at h
  obtain ⟨l, st₁, hl, h⟩ := h
  have hready₁ := (linkOfName_yields hl).1.ready hready
  have hdrained {st₁ st₂ st' : Staging} {flat : Entries Value} {t : Link}
      (hflat : s.Flattens n v flat) (hready₁ : s.Ready st₁)
      (ht : (s.schedule flat s.options n).Yields st₁ t st₂)
      (hdrain : s.drainAll.Yields { st₂ with named := st₂.named ++ [(l, t)] } () st') :
      ∀ task ∈ st'.todo, task ∈ st.todo := by
    have hready₂ := (schedule_yields ht (.named hmem hflat)).1.ready hready₁
    rw [(Moves.drainAll hdrain hready₂).2]
    exact fun _ htask => absurd htask List.not_mem_nil
  cases v with
  | null =>
    simp only [yields_bind, yields_modify] at h
    obtain ⟨t, st₂, ht, _, st₃, rfl, hdrain⟩ := h
    exact hdrained .null hready₁ ht hdrain
  | text m =>
    simp only [newProgram, Source.bind, yields_bind, yields_get, yields_set, yields_modify,
      yields_pure] at h
    obtain ⟨t, st₂, ht, p, st₃, ⟨_, _, ⟨rfl, rfl⟩, _, _, rfl, rfl, rfl⟩, rfl⟩ := h
    exact fun task htask => hlink hl task (hlink ht task htask)
  | mapping fs =>
    simp only [yields_bind, yields_lift, yields_modify] at h
    obtain ⟨flat, _, ⟨hflat, rfl⟩, t, st₂, ht, _, st₃, rfl, hdrain⟩ := h
    exact hdrained (.mapping hflat) hready₁ ht hdrain
  | bool b => exact (yields_throw.1 h).elim
  | number n => exact (yields_throw.1 h).elim
  | list xs => exact (yields_throw.1 h).elim

theorem compileNames_todo {es : List (String × Value)} {st st' : Staging} (hsub : es ⊆ s.batch)
    (hready : s.Ready st) (h : (es.forM s.compileNamed).Yields st () st') :
    ∀ task ∈ st'.todo, task ∈ st.todo := by
  induction es generalizing st with
  | nil =>
    rw [List.forM, yields_pure] at h
    rw [h.2]
    exact fun _ htask => htask
  | cons e es ih =>
    simp only [List.forM, yields_bind] at h
    obtain ⟨_, st₁, he, hes⟩ := h
    obtain ⟨hmem, hrest⟩ := List.cons_subset.1 hsub
    have hready₁ := (Moves.compileNamed hmem he hready).2.1
    exact fun task ht => compileNamed_todo hmem hready he task (ih hrest hready₁ hes task ht)

section

variable
  (hschema : ∀ n v, (n, v) ∈ s.batch → v ≠ .null → (∀ m, v ≠ .text m) → (∀ fs, v ≠ .mapping fs) →
    errors (.malformed n .notSchema))
  (hflatten : ∀ n fs, (n, .mapping fs) ∈ s.batch → Refuses errors (s.flatten fs n))
  (hform : ∀ n v flat, (n, v) ∈ s.batch → s.Flattens n v flat → Refuses errors (s.form flat n))
  (hadmits : ∀ n v id link features form, (n, v) ∈ s.batch →
    admits ⟨id, link, features, form, s.options, n⟩)
  (hdrain : ∀ st, s.Ready st → (∀ task ∈ st.todo, admits task) →
    Refuses errors (s.drainAll.run st))

include hform hadmits hdrain in
/-- Compiling the rule that a name stands for, with all that it needs. -/
theorem refuses_nameRule {n : String} {v : Value} {flat : Entries Value} (hmem : (n, v) ∈ s.batch)
    (hflat : s.Flattens n v flat) (l : Link) {st : Staging} (hready : s.Ready st)
    (htodo : ∀ task ∈ st.todo, admits task) :
    Refuses errors ((do
      let target ← s.schedule flat s.options n
      modify fun st => { st with named := st.named ++ [(l, target)] }
      s.drainAll : Compile Unit).run st) := by
  have hschedule : Confined errors admits (s.schedule flat s.options n) :=
    schedule_confined (hform n v flat hmem hflat) fun id link form => hadmits n v id link _ form hmem
  refine refuses_run_bind (hschedule.refuses st) fun target st₁ h => ?_
  obtain ⟨hadvance, -⟩ := schedule_yields h (.named hmem hflat)
  refine refuses_run_bind (refuses_ok _) fun _ st₂ hmodify => ?_
  obtain rfl := yields_modify.1 hmodify
  exact hdrain _ (hadvance.ready hready) fun t ht => (hschedule.adds h t ht).elim (htodo t) id

include hschema hflatten hform hadmits hdrain

theorem refuses_compileNamed {e : String × Value} (hmem : e ∈ s.batch) {st : Staging}
    (hready : s.Ready st) (htodo : ∀ task ∈ st.todo, admits task) :
    Refuses errors ((s.compileNamed e).run st) := by
  obtain ⟨n, v⟩ := e
  have hlink (name : String) : Confined errors admits (s.linkOfName name) := linkOfName_confined name
  rw [compileNamed]
  refine refuses_run_bind ((hlink n).refuses st) fun l st₁ hl => ?_
  have hready₁ := (linkOfName_yields hl).1.ready hready
  have htodo₁ : ∀ task ∈ st₁.todo, admits task :=
    fun t ht => ((hlink n).adds hl t ht).elim (htodo t) id
  cases v with
  | null => exact refuses_nameRule hform hadmits hdrain hmem .null l hready₁ htodo₁
  | text m =>
    refine refuses_run_bind ((hlink m).refuses _) fun _ _ _ => ?_
    exact refuses_run_bind (refuses_ok _) fun _ _ _ => refuses_ok _
  | mapping fs =>
    have hlift : Confined errors admits (liftM (s.flatten fs n) : Compile _) :=
      confined_lift (hflatten n fs hmem)
    refine refuses_run_bind (hlift.refuses _) fun flat st₂ hflat => ?_
    obtain ⟨hflattens, rfl⟩ := yields_lift.1 hflat
    exact refuses_nameRule hform hadmits hdrain hmem (.mapping hflattens) l hready₁ htodo₁
  | bool _ | number _ | list _ =>
    refine refuses_error (hschema n _ hmem ?_ ?_ ?_)
    · exact fun heq => by cases heq
    · exact fun _ heq => by cases heq
    · exact fun _ heq => by cases heq

theorem refuses_compileNames {es : List (String × Value)} (hsub : es ⊆ s.batch) {st : Staging}
    (hready : s.Ready st) (htodo : ∀ task ∈ st.todo, admits task) :
    Refuses errors ((es.forM s.compileNamed).run st) := by
  induction es generalizing st with
  | nil => exact refuses_ok _
  | cons e es ih =>
    obtain ⟨hmem, hrest⟩ := List.cons_subset.1 hsub
    have hfirst := refuses_compileNamed hschema hflatten hform hadmits hdrain hmem hready htodo
    refine refuses_run_bind hfirst fun _ st₁ hyields => ?_
    exact ih hrest (Moves.compileNamed hmem hyields hready).2.1 fun t ht =>
      htodo t (compileNamed_todo hmem hready hyields t ht)

/-- The compilation of a batch is refused as its rules, their forms and the worklist are. -/
theorem refuses_compileBatch {st : Staging} (hready : s.Ready st)
    (htodo : ∀ task ∈ st.todo, admits task) : Refuses errors (s.compileBatch.run st) := by
  rw [compileBatch]
  have hnames := refuses_compileNames hschema hflatten hform hadmits hdrain (List.Subset.refl _)
    hready htodo
  refine refuses_run_bind hnames fun _ st₁ h₁ => ?_
  have hready₁ := (Moves.compileNames (List.Subset.refl _) h₁ hready).2.1
  have htodo₁ := compileNames_todo (List.Subset.refl _) hready h₁
  refine refuses_run_bind (hdrain st₁ hready₁ fun t ht => htodo t (htodo₁ t ht)) fun _ _ _ => ?_
  refine refuses_run_bind (refuses_ok _) fun _ _ _ => ?_
  have hbind (pairs : List (Link × Link)) :
      Confined errors admits (pairs.forM s.bindName : Compile Unit) :=
    confined_forM fun pair _ => bindName_confined pair
  exact (hbind _).refuses _

end

end Source
end Rulebook
