import Rulebook.Proofs.Compilation.Names
import Rulebook.Proofs.Evaluation.Callees

/-!
# What is compiled is called

A rule is put on the worklist because a rule of the batch is named, or because the program
that is being compiled calls it.  So each identity that has a link is that of a named rule,
or it is called, from one program to the next, by the program of such a rule.  The cache
holds nothing besides.
-/

namespace Rulebook

/-! ## Identities that are called -/

namespace Linkage

/-- Identities that are among the given ones, or that are called from those by the programs
of identities. -/
inductive Needed (roots : SchemaId → Prop) (L : Linkage) : SchemaId → Prop where
  | root {i : SchemaId} (h : roots i) : Needed roots L i
  | called {i j : SchemaId} {t l : Link} {p : Program} (hi : Needed roots L i)
      (ht : L.links.rule i = some t) (hp : L.bindings.lookup t.number = some p)
      (hl : p.Mentions l) (hj : L.links.rule j = some l) : Needed roots L j

/-- Each identity that has a link is needed. -/
def Frugal (roots : SchemaId → Prop) (L : Linkage) : Prop :=
  ∀ i l, L.links.rule i = some l → L.Needed roots i

variable {roots : SchemaId → Prop} {L M : Linkage}

/-- What is needed stays so while links and the programs of identities are kept. -/
theorem Needed.mono (hlinks : L.links.Within M.links)
    (hkept : ∀ {i t p}, L.links.rule i = some t → L.bindings.lookup t.number = some p →
      M.bindings.lookup t.number = some p) {i : SchemaId} (h : L.Needed roots i) :
    M.Needed roots i := by
  induction h with
  | root h => exact .root h
  | called _ ht hp hl hj ih => exact .called ih (hlinks.rule ht) (hkept ht hp) hl (hlinks.rule hj)

theorem Frugal.of_agrees (h : L.Agrees M) (hM : M.Frugal roots) : L.Frugal roots := by
  intro i l hl
  rw [h.links] at hl
  refine (hM i l hl).mono ?_ fun ht hp => ?_
  · rw [h.links]
    exact .refl _
  · rw [h.lookup]
    exact hp

end Linkage

namespace Source

open Compile

variable {s : Source} {st st' st'' : Staging} {options : Options} {label : String}

/-! ## New links of identities -/

variable (s) in
/-- The new links of identities are among the given callees. -/
def Adds (st st' : Staging) (callees : List Callee) : Prop :=
  ∀ i l, (s.links st').rule i = some l → (s.links st).rule i = some l ∨ Callee.link l ∈ callees

theorem adds_of_eq (h : st'.cache = st.cache) (callees : List Callee) :
    s.Adds st st' callees := by
  intro i l hl
  simp only [links, h] at hl
  exact Or.inl hl

theorem Adds.mono {cs ds : List Callee} (h : s.Adds st st' cs)
    (hsub : ∀ l, Callee.link l ∈ cs → Callee.link l ∈ ds) : s.Adds st st' ds :=
  fun i l hl => (h i l hl).imp_right (hsub l)

theorem Adds.trans {cs ds : List Callee} (h : s.Adds st st' cs) (k : s.Adds st' st'' ds) :
    s.Adds st st'' (cs ++ ds) := by
  intro i l hl
  rcases k i l hl with hold | hnew
  · exact (h i l hold).imp_right fun hmem => List.mem_append_left _ hmem
  · exact Or.inr (List.mem_append_right _ hnew)

/-- Where no callees account for new links there are none. -/
theorem Adds.known (h : s.Adds st st' []) {i : SchemaId} {l : Link}
    (hl : (s.links st').rule i = some l) : (s.links st).rule i = some l :=
  (h i l hl).resolve_right List.not_mem_nil

theorem mapM_adds {α β : Type} {f : α → Compile β} {callees : β → List Callee} {as : List α}
    (hstep : ∀ a ∈ as, ∀ {st b st'}, (f a).Yields st b st' → s.Adds st st' (callees b))
    {bs : List β} (h : (as.mapM f).Yields st bs st') : s.Adds st st' (bs.flatMap callees) := by
  induction as generalizing st bs with
  | nil =>
    rw [List.mapM_nil, yields_pure] at h
    obtain ⟨rfl, rfl⟩ := h
    exact adds_of_eq rfl _
  | cons a as ih =>
    simp only [List.mapM_cons, yields_bind, yields_pure] at h
    obtain ⟨b, st₁, hb, bs, st₂, hbs, rfl, rfl⟩ := h
    rw [List.flatMap_cons]
    exact (hstep a (List.mem_cons_self ..) hb).trans
      (ih (fun a ha => hstep a (List.mem_cons_of_mem _ ha)) hbs)

/-! ## Links -/

theorem linkOfName_adds {n : String} {l : Link} (h : (s.linkOfName n).Yields st l st')
    (callees : List Callee) : s.Adds st st' callees := by
  refine adds_of_eq ?_ callees
  rw [linkOfName] at h
  split at h
  · obtain ⟨-, rfl⟩ := yields_pure.1 h
    rfl
  · simp only [yields_bind, yields_get] at h
    obtain ⟨_, _, ⟨rfl, rfl⟩, h⟩ := h
    split at h
    · obtain ⟨-, rfl⟩ := yields_pure.1 h
      rfl
    · simp only [newLink, yields_bind, yields_get, yields_set, yields_modify, yields_pure] at h
      obtain ⟨_, _, ⟨_, _, ⟨rfl, rfl⟩, _, _, rfl, rfl, rfl⟩, _, _, rfl, rfl, rfl⟩ := h
      rfl

theorem schedule_adds {features : Entries Value} {l : Link}
    (h : (s.schedule features options label).Yields st l st') : s.Adds st st' [.link l] := by
  simp only [schedule, yields_bind, yields_lift, yields_get] at h
  obtain ⟨form, st₁, ⟨hform, rfl⟩, _, _, ⟨rfl, rfl⟩, h⟩ := h
  split at h
  · obtain ⟨-, rfl⟩ := yields_pure.1 h
    exact adds_of_eq rfl _
  · simp only [newLink, yields_bind, yields_get, yields_set, yields_modify, yields_pure] at h
    obtain ⟨_, _, ⟨_, _, ⟨rfl, rfl⟩, _, _, rfl, rfl, rfl⟩, _, _, rfl, rfl, rfl⟩ := h
    intro i l hl
    simp only [links, Linkage.lookup_cons] at hl ⊢
    split at hl
    · rcases Option.or_eq_some_iff.1 hl with hl | ⟨-, hl⟩
      · exact Or.inl (Option.or_eq_some_iff.2 (Or.inl hl))
      · exact Or.inr (List.mem_singleton.2 (congrArg Callee.link (Option.some.inj hl).symm))
    · exact Or.inl hl

theorem resolve_adds {v : Value} {r : Resolved}
    (h : (s.resolve v options label).Yields st r st') : s.Adds st st' [r.callee] := by
  cases v with
  | null =>
    obtain ⟨-, rfl⟩ := yields_pure.1 h
    exact adds_of_eq rfl _
  | text n =>
    simp only [resolve, yields_bind] at h
    obtain ⟨l, st₁, hl, h⟩ := h
    have hadds := linkOfName_adds hl [r.callee]
    split at h
    · simp only [yields_bind, yields_lift, yields_pure] at h
      obtain ⟨_, _, ⟨-, rfl⟩, _, _, ⟨-, rfl⟩, -, rfl⟩ := h
      exact hadds
    · obtain ⟨-, rfl⟩ := yields_pure.1 h
      exact hadds
  | mapping fs =>
    simp only [resolve, yields_bind, yields_lift] at h
    obtain ⟨flat, st₁, ⟨-, rfl⟩, h⟩ := h
    split at h
    · obtain ⟨-, rfl⟩ := yields_pure.1 h
      exact adds_of_eq rfl _
    · simp only [yields_bind, yields_lift, yields_pure] at h
      obtain ⟨_, _, ⟨-, rfl⟩, l, _, hl, rfl, rfl⟩ := h
      exact schedule_adds hl
  | bool b => exact (yields_throw.1 h).elim
  | number n => exact (yields_throw.1 h).elim
  | list xs => exact (yields_throw.1 h).elim

/-! ## Steps -/

theorem branches_adds {feature : String} {vs : List Value} {cs : List Callee}
    (h : (s.branches options label feature vs).Yields st cs st') : s.Adds st st' cs := by
  have hadds : s.Adds st st' (cs.flatMap fun c => [c]) := by
    refine mapM_adds (fun e _ => ?_) h
    intro st c st' hc
    simp only [yields_bind, yields_pure] at hc
    obtain ⟨r, _, hr, rfl, rfl⟩ := hc
    exact resolve_adds hr
  rw [List.flatMap_singleton'] at hadds
  exact hadds

theorem openCallee_adds {v : Option Value} {c : Option Callee}
    (h : (s.openCallee v options label).Yields st c st') : s.Adds st st' c.toList := by
  cases v with
  | none =>
    obtain ⟨-, rfl⟩ := yields_pure.1 h
    exact adds_of_eq rfl _
  | some v =>
    simp only [openCallee, yields_bind, yields_pure] at h
    obtain ⟨r, _, hr, rfl, rfl⟩ := h
    exact resolve_adds hr

theorem openCallee_isSome {v : Option Value} {c : Option Callee}
    (h : (s.openCallee v options label).Yields st c st') : c.isSome = v.isSome := by
  cases v with
  | none =>
    obtain ⟨rfl, -⟩ := yields_pure.1 h
    rfl
  | some v =>
    simp only [openCallee, yields_bind, yields_pure] at h
    obtain ⟨_, _, -, rfl, -⟩ := h
    rfl

theorem entries_adds {es : List (String × Value)} {fs : List (Entry Callee)}
    (h : (es.mapM (s.entry options label)).Yields st fs st') :
    s.Adds st st' (fs.map Entry.callee) := by
  rw [List.map_eq_flatMap]
  refine mapM_adds (fun e _ => ?_) h
  intro st f st' hf
  simp only [entry, yields_bind, yields_pure] at hf
  obtain ⟨r, _, hr, rfl, rfl⟩ := hf
  exact resolve_adds hr

theorem patternEntries_adds {es : List (String × Value)} {fs : List (PatternEntry Callee)}
    (h : (es.mapM (s.patternEntry options label)).Yields st fs st') :
    s.Adds st st' (fs.map PatternEntry.callee) := by
  rw [List.map_eq_flatMap]
  refine mapM_adds (fun e _ => ?_) h
  intro st f st' hf
  simp only [patternEntry, yields_bind, yields_pure] at hf
  obtain ⟨r, _, hr, p, _, hp, rfl, rfl⟩ := hf
  obtain ⟨rfl, -⟩ := pattern_yields hp
  exact resolve_adds hr

/-- The links among the callees for keys and for values are called by the open rule. -/
theorem mem_openRule_callees {rule : Rule} {keys values : Option Callee}
    (hkeys : keys.isSome = rule.keys.isSome) (hvalues : values.isSome = rule.values.isSome)
    {l : Link} (hl : Callee.link l ∈ keys.toList ++ values.toList) :
    ∃ o, rule.openRule (keys.filter (· != .pass)) values = some o ∧ Callee.link l ∈ o.callees := by
  rw [List.mem_append, Option.mem_toList, Option.mem_toList] at hl
  refine ⟨⟨keys.filter (· != .pass), values⟩, if_pos ?_, ?_⟩
  · rw [← hkeys, ← hvalues]
    rcases hl with rfl | rfl <;> simp
  · rw [OpenRule.callees]
    rcases hl with rfl | rfl <;> simp [Option.filter]

theorem structureOf_adds {rule : Rule} {t : Structure Callee}
    (h : (s.structureOf rule options label).Yields st t st') : s.Adds st st' t.callees := by
  simp only [structureOf, yields_bind] at h
  obtain ⟨keys, st₁, hkeys, values, st₂, hvalues, h⟩ := h
  have hopen {l : Link} (hl : Callee.link l ∈ keys.toList ++ values.toList) :=
    mem_openRule_callees (openCallee_isSome hkeys) (openCallee_isSome hvalues) hl
  have hadds := (openCallee_adds hkeys).trans (openCallee_adds hvalues)
  by_cases hlist : rule.kind = some .list
  · simp only [hlist, if_true, yields_pure] at h
    obtain ⟨rfl, rfl⟩ := h
    refine hadds.mono fun l hl => ?_
    obtain ⟨o, ho, hmem⟩ := hopen hl
    have hchecks : rule.checksLists = true := by rw [Rule.checksLists, hlist]
    rw [ho, Structure.callees, Rule.sequenceItems, if_pos hchecks]
    simpa using hmem
  · simp only [hlist, if_false, yields_bind, yields_pure] at h
    obtain ⟨entries, st₃, hentries, patterns, st₄, hpatterns, rfl, rfl⟩ := h
    refine ((hadds.trans (entries_adds hentries)).trans (patternEntries_adds hpatterns)).mono
      fun l hl => ?_
    refine List.mem_append_left _ (List.mem_flatMap.2 ⟨_, List.mem_singleton_self _, ?_⟩)
    rw [MappingItems.callees, MappingItems.make]
    rcases List.mem_append.1 hl with hl | hl
    · rcases List.mem_append.1 hl with hl | hl
      · obtain ⟨o, ho, hmem⟩ := hopen hl
        rw [ho]
        exact List.mem_append_right _ (List.mem_flatMap.2 ⟨o, List.mem_singleton_self _, hmem⟩)
      · have hperm : (Sorting.sort (fun a b => decide (a.key ≤ b.key)) entries).Perm entries :=
          Sorting.sort_perm entries
        exact List.mem_append_left _
          (List.mem_append_left _ ((hperm.map Entry.callee).mem_iff.2 hl))
    · have hperm : (Sorting.sort MappingItems.patternBefore patterns).Perm patterns :=
        Sorting.sort_perm patterns
      exact List.mem_append_left _
        (List.mem_append_right _ ((hperm.map PatternEntry.callee).mem_iff.2 hl))

theorem memberStep_adds {rule : Rule} {ss : List (Step Callee)}
    (h : (s.memberStep rule options label).Yields st ss st') :
    s.Adds st st' (ss.flatMap Step.callees) := by
  rw [memberStep] at h
  split at h
  · simp only [yields_bind, yields_pure] at h
    obtain ⟨t, _, ht, rfl, rfl⟩ := h
    rw [List.flatMap_singleton]
    exact structureOf_adds ht
  · obtain ⟨-, rfl⟩ := yields_pure.1 h
    exact adds_of_eq rfl _

/-- A step that lists inner rules. -/
theorem branchesOf_adds {feature : String} {argument : Option (List Value)}
    (make : List Callee → Step Callee) (hmake : ∀ cs, (make cs).callees = cs)
    {ss : List (Step Callee)}
    (h : (stepOf argument fun vs => do
      let cs ← s.branches options label feature vs
      pure (make cs)).Yields st ss st') : s.Adds st st' (ss.flatMap Step.callees) := by
  cases argument with
  | none =>
    obtain ⟨-, rfl⟩ := yields_pure.1 h
    exact adds_of_eq rfl _
  | some vs =>
    simp only [stepOf, yields_bind, yields_pure] at h
    obtain ⟨t, _, ⟨cs, _, hcs, rfl, rfl⟩, rfl, rfl⟩ := h
    rw [List.flatMap_singleton, hmake]
    exact branches_adds hcs

/-- The identities that are new when the steps of a rule are compiled are called by them. -/
theorem steps_adds {rule : Rule} {ss : List (Step Callee)}
    (h : (s.steps rule options label).Yields st ss st') :
    s.Adds st st' (ss.flatMap Step.callees) := by
  rw [steps] at h
  simp only [yields_bind, yields_pure] at h
  obtain ⟨nullable, st₁, hnullable, coerce, st₂, hcoerce, regex, st₃, hregex, members, st₄,
    hmembers, remap, st₅, hremap, anyOf, st₆, hanyOf, oneOf, st₇, honeOf, postCoerce, st₈,
    hpost, rfl, rfl⟩ := h
  obtain ⟨rfl, -⟩ := nullableStep_yields (fun _ _ => True) hnullable
  obtain ⟨rfl, -⟩ := checkOf_yields (fun _ _ => True) hcoerce coercer_yields
  obtain ⟨rfl, -⟩ := checkOf_yields (fun _ _ => True) hregex pattern_yields
  obtain ⟨rfl, -⟩ := checkOf_yields (fun _ _ => True) hremap remapOf_yields
  obtain ⟨rfl, -⟩ := checkOf_yields (fun _ _ => True) hpost coercer_yields
  have hanyOf := branchesOf_adds Step.anyOf (fun _ => rfl) hanyOf
  have honeOf := branchesOf_adds Step.oneOf (fun _ => rfl) honeOf
  refine (((memberStep_adds hmembers).trans hanyOf).trans honeOf).mono fun l hl => ?_
  simp only [List.flatMap_append, List.mem_append] at hl ⊢
  tauto

/-- The identities that are new when a rule is compiled are called by its program. -/
theorem compile_adds {task : Task} {p : Program} (h : (s.compile task).Yields st p st')
    {i : SchemaId} {l : Link} (hl : (s.links st').rule i = some l) :
    (s.links st).rule i = some l ∨ p.Mentions l := by
  obtain ⟨r, ss, st₁, -, hss, rfl, rfl⟩ := compile_yields_iff.1 h
  have hcache : (compiled st₁ task r).cache = st₁.cache := rfl
  exact (steps_adds hss i l ((adds_of_eq hcache []).known hl)).imp_right List.mem_flatMap.1

/-! ## Runs -/

variable {good : Source → Prop} {roots : SchemaId → Prop} {P Q : Position}

/-- Where no rule is being compiled, those that wait are on the worklist. -/
theorem Sound.ready (h : s.Sound good ⟨none, st⟩) : s.Ready st :=
  fun task htask => h.waits task htask

/-- What is needed stays so along a run. -/
theorem needed_of_moves (hgood : good s) (h : s.Sound good P) (hmoves : s.Moves P Q) {i : SchemaId}
    (hi : (s.linkage P.staging).Needed roots i) : (s.linkage Q.staging).Needed roots i := by
  refine hi.mono (Moves.links_within hmoves) ?_
  intro i t p ht hp
  have hbound : s.bound P.staging t = some p := hp
  exact h.bound_rule_moves hgood hmoves ht hbound

/-- If all new identities are needed at the end of a run, all identities are. -/
theorem frugal_of_moves (hgood : good s) (h : s.Sound good P) (hmoves : s.Moves P Q)
    (hfrugal : (s.linkage P.staging).Frugal roots)
    (hnew : ∀ i l, (s.links Q.staging).rule i = some l →
      (s.links P.staging).rule i = some l ∨ (s.linkage Q.staging).Needed roots i) :
    (s.linkage Q.staging).Frugal roots := by
  intro i l hl
  rcases hnew i l hl with hold | hneeded
  · exact needed_of_moves hgood h hmoves (hfrugal i l hold)
  · exact hneeded

section

variable (hgood : good s)
include hgood

/-- The rules that wait are compiled for what is needed. -/
theorem drain_frugal {fuel : Nat} (h : (s.drain fuel).Yields st () st')
    (hsound : s.Sound good ⟨none, st⟩) (hfrugal : (s.linkage st).Frugal roots) :
    (s.linkage st').Frugal roots := by
  refine drain_induction
    (motive := fun st => s.Sound good ⟨none, st⟩ → (s.linkage st).Frugal roots →
      (s.linkage st').Frugal roots) h (fun _ _ hfrugal => hfrugal) ?_ hsound hfrugal
  intro st task rest p st₂ htodo hcompile ih hsound hfrugal
  have hwaiting : task ∈ (Position.mk none st).waiting := by
    rw [Position.waiting, htodo]
    exact List.mem_cons_self ..
  obtain ⟨hfinish, -⟩ := Moves.finish hcompile (hsound.waits task hwaiting)
  have hmoves := (Relation.ReflTransGen.single (Move.take htodo)).trans hfinish
  refine ih (hsound.moves hgood hmoves) (frugal_of_moves hgood hsound hmoves hfrugal ?_)
  intro i l hl
  refine (compile_adds hcompile hl).imp_right fun hmentions => ?_
  have htask := (hsound.compiled.unbound task hwaiting).1
  exact .called (needed_of_moves hgood hsound hmoves (hfrugal task.id task.link htask))
    ((Moves.links_within hmoves).rule htask)
    ((Linkage.lookup_cons _ _ _ _).trans (if_pos rfl)) hmentions hl

theorem drainAll_frugal (h : s.drainAll.Yields st () st') (hsound : s.Sound good ⟨none, st⟩)
    (hfrugal : (s.linkage st).Frugal roots) : (s.linkage st').Frugal roots := by
  simp only [drainAll, yields_bind, yields_get] at h
  obtain ⟨_, _, ⟨rfl, rfl⟩, h⟩ := h
  exact drain_frugal hgood h hsound hfrugal

variable (s) in
/-- The identity of a named rule of the batch. -/
def Heads (i : SchemaId) : Prop :=
  ∃ n v flat form, (n, v) ∈ s.batch ∧ s.Flattens n v flat ∧ s.FormIs flat form ∧
    SchemaId.of s.digest form s.options = i

variable (hroots : ∀ i, s.Heads i → roots i)
include hroots

theorem nameRule_frugal {n : String} {v : Value} {flat : Entries Value} {l : Link}
    (hmem : (n, v) ∈ s.batch) (hflat : s.Flattens n v flat) (hl : (s.links st).name n = some l)
    (h : (do
      let target ← s.schedule flat s.options n
      modify fun st => { st with named := st.named ++ [(l, target)] }
      s.drainAll : Compile Unit).Yields st () st')
    (hsound : s.Sound good ⟨none, st⟩) (hfrugal : (s.linkage st).Frugal roots) :
    (s.linkage st').Frugal roots := by
  simp only [yields_bind, yields_modify] at h
  obtain ⟨t, st₁, ht, _, st₂, rfl, hdrain⟩ := h
  have hadds := schedule_adds ht
  obtain ⟨hadv, form, hform, ht⟩ := schedule_yields ht (.named hmem hflat)
  have hmoves := hadv.moves none
  have hsound₁ := hsound.moves hgood hmoves
  have hname := Move.name hmem hflat hform (hadv.links_within.name hl) ht
  refine drainAll_frugal hgood hdrain (hsound₁.move hgood hname)
    (frugal_of_moves hgood hsound hmoves hfrugal fun i l' hl' => ?_)
  refine (hadds i l' hl').imp_right fun hnew => .root (hroots i ?_)
  cases List.mem_singleton.1 hnew
  have hab : Target.rule i = .rule (SchemaId.of s.digest form s.options) :=
    hsound₁.numbered.injective hl' ht rfl
  exact ⟨n, v, flat, form, hmem, hflat, formIs_of_form hform, (Target.rule.inj hab).symm⟩

theorem compileNamed_frugal {e : String × Value} (hmem : e ∈ s.batch)
    (h : (s.compileNamed e).Yields st () st') (hsound : s.Sound good ⟨none, st⟩)
    (hfrugal : (s.linkage st).Frugal roots) : (s.linkage st').Frugal roots := by
  obtain ⟨n, v⟩ := e
  have hmoves := (Moves.compileNamed hmem h hsound.ready).1
  simp only [compileNamed, yields_bind] at h
  obtain ⟨l, st₁, hl, h⟩ := h
  have hadds := linkOfName_adds hl []
  obtain ⟨hadv, hl⟩ := linkOfName_yields hl
  have hsound₁ := hsound.moves hgood (hadv.moves none)
  have hfrugal₁ := frugal_of_moves hgood hsound (hadv.moves none) hfrugal fun _ _ hl =>
    Or.inl (hadds.known hl)
  cases v with
  | text m =>
    simp only [newProgram, Source.bind, yields_bind, yields_get, yields_set, yields_modify,
      yields_pure] at h
    obtain ⟨t, st₂, ht, p, st₃, ⟨_, _, ⟨rfl, rfl⟩, _, _, rfl, rfl, rfl⟩, rfl⟩ := h
    have hadds' := hadds.trans (linkOfName_adds ht [])
    exact frugal_of_moves hgood hsound hmoves hfrugal fun _ _ hl => Or.inl (hadds'.known hl)
  | null => exact nameRule_frugal hgood hroots hmem .null hl h hsound₁ hfrugal₁
  | mapping fs =>
    simp only [yields_bind, yields_lift] at h
    obtain ⟨flat, _, ⟨hflat, rfl⟩, h⟩ := h
    refine nameRule_frugal hgood hroots hmem (.mapping hflat) hl ?_ hsound₁ hfrugal₁
    simp only [yields_bind]
    exact h
  | bool b => exact (yields_throw.1 h).elim
  | number n => exact (yields_throw.1 h).elim
  | list xs => exact (yields_throw.1 h).elim

theorem compileNames_frugal {es : List (String × Value)} (hsub : es ⊆ s.batch)
    (h : (es.forM s.compileNamed).Yields st () st') (hsound : s.Sound good ⟨none, st⟩)
    (hfrugal : (s.linkage st).Frugal roots) : (s.linkage st').Frugal roots := by
  induction es generalizing st with
  | nil =>
    rw [List.forM, yields_pure] at h
    obtain ⟨-, rfl⟩ := h
    exact hfrugal
  | cons e es ih =>
    simp only [List.forM, yields_bind] at h
    obtain ⟨_, st₁, he, hes⟩ := h
    have hmem := hsub (List.mem_cons_self ..)
    have hmoves := (Moves.compileNamed hmem he hsound.ready).1
    exact ih (fun x hx => hsub (List.mem_cons_of_mem _ hx)) hes (hsound.moves hgood hmoves)
      (compileNamed_frugal hgood hroots hmem he hsound hfrugal)

omit hgood hroots in
/-- Binding names leaves the cache alone. -/
theorem bindNames_cache {pairs : List (Link × Link)}
    (h : (pairs.forM s.bindName).Yields st () st') : st'.cache = st.cache := by
  induction pairs generalizing st with
  | nil =>
    rw [List.forM, yields_pure] at h
    obtain ⟨-, rfl⟩ := h
    rfl
  | cons pair pairs ih =>
    simp only [List.forM, yields_bind] at h
    obtain ⟨_, st₁, hpair, hpairs⟩ := h
    rw [ih hpairs]
    simp only [bindName, yields_bind, yields_get] at hpair
    obtain ⟨_, _, ⟨rfl, rfl⟩, hpair⟩ := hpair
    split at hpair
    · rw [yields_modify.1 hpair]
    · obtain ⟨-, rfl⟩ := yields_pure.1 hpair
      rfl

/-- If each identity was that of a named rule or called from one, this is so when a batch
has been compiled. -/
theorem compileBatch_frugal (h : s.compileBatch.Yields st () st') (hsound : s.Sound good ⟨none, st⟩)
    (hfrugal : (s.linkage st).Frugal roots) : (s.linkage st').Frugal roots := by
  simp only [compileBatch, yields_bind, yields_get] at h
  obtain ⟨_, st₁, hnames, _, st₂, hdrain, _, _, ⟨rfl, rfl⟩, hbind⟩ := h
  obtain ⟨hmoves₁, hready₁, -⟩ := Moves.compileNames (List.Subset.refl _) hnames hsound.ready
  have hsound₁ := hsound.moves hgood hmoves₁
  have hsound₂ := hsound₁.moves hgood (Moves.drainAll hdrain hready₁).1
  have hfrugal₂ := drainAll_frugal hgood hdrain hsound₁
    (compileNames_frugal hgood hroots (List.Subset.refl _) hnames hsound hfrugal)
  refine frugal_of_moves hgood hsound₂ (Moves.bindNames (List.Subset.refl _) hbind).1 hfrugal₂ ?_
  exact fun _ _ hl => Or.inl ((adds_of_eq (bindNames_cache hbind) []).known hl)

end

end Source
end Rulebook
