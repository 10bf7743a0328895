import Rulebook.Proofs.Compilation.Resolution

/-!
# A compilation as a run of moves

The compilation of a batch is a run of a transition system.  A position is a
staging area together with the rule that is being compiled, if there is one.  A
move hands out a link, takes a rule from the worklist or finishes it, or settles
a name of the batch.  What every move preserves holds at the end of a run.
-/

namespace Rulebook

/-- Where a compilation has come to. -/
structure Position where
  /-- The rule that is being compiled. -/
  busy : Option Task
  staging : Staging

/-- The rules that have a link and no program yet. -/
def Position.waiting (P : Position) : List Task := P.busy.toList ++ P.staging.todo

namespace Source

open Compile

variable (s : Source)

/-- The program of a rule that is the name of another. -/
def aliasProgram (n m : String) (number : Nat) (target : Link) : Program where
  number
  id := SchemaId.of s.digest (.text m) s.options
  label := n
  breakLoops := s.options.breakLoops
  steps := [.refer (.link target)]

/-- The program bound to a link, if there is one. -/
def bound (st : Staging) (l : Link) : Option Program :=
  (st.bindings ++ s.bindings).lookup l.number

/-- One move of a compilation. -/
inductive Move : Position → Position → Prop where
  | grow {busy : Option Task} {st st' : Staging} (h : s.Grow st st') :
      Move ⟨busy, st⟩ ⟨busy, st'⟩
  | take {st : Staging} {task : Task} {rest : List Task} (htodo : st.todo = task :: rest) :
      Move ⟨none, st⟩ ⟨some task, { st with todo := rest }⟩
  | finish {st : Staging} {task : Task} {r : Rule} {p : Program}
      (hread : Rule.read? task.features = some r) (hnumber : p.number = st.nextProgram)
      (hid : p.id = task.id)
      (hemits : s.Emits (s.links st) task.features task.options p) :
      Move ⟨some task, st⟩ ⟨none, { compiled st task r with
        bindings := (task.link.number, p) :: st.bindings
        bound := st.bound ++ [task.link] }⟩
  | refer {st : Staging} {n m : String} {l t : Link} (hmem : (n, .text m) ∈ s.batch)
      (hl : (s.links st).name n = some l) (ht : (s.links st).name m = some t) :
      Move ⟨none, st⟩ ⟨none, { st with
        nextProgram := st.nextProgram + 1
        bindings := (l.number, s.aliasProgram n m st.nextProgram t) :: st.bindings
        bound := st.bound ++ [l] }⟩
  | name {st : Staging} {n : String} {v form : Value} {flat : Entries Value} {l t : Link}
      (hmem : (n, v) ∈ s.batch) (hflat : s.Flattens n v flat) (hform : s.form flat n = .ok form)
      (hl : (s.links st).name n = some l)
      (ht : (s.links st).rule (SchemaId.of s.digest form s.options) = some t) :
      Move ⟨none, st⟩ ⟨none, { st with named := st.named ++ [(l, t)] }⟩
  | bind {st : Staging} {l t : Link} {p : Program} (hmem : (l, t) ∈ st.named)
      (hp : s.bound st t = some p) :
      Move ⟨none, st⟩ ⟨none, { st with
        bindings := (l.number, p) :: st.bindings
        bound := st.bound ++ [l] }⟩

/-- A run of moves. -/
abbrev Moves : Position → Position → Prop := Relation.ReflTransGen s.Move

variable {s} {st st' : Staging}

theorem Move.links_within {P Q : Position} (h : s.Move P Q) :
    (s.links P.staging).Within (s.links Q.staging) := by
  cases h with
  | grow h => exact h.links_within
  | _ => exact Links.Within.refl _

theorem Moves.links_within {P Q : Position} (h : s.Moves P Q) :
    (s.links P.staging).Within (s.links Q.staging) := by
  induction h with
  | refl => exact Links.Within.refl _
  | tail _ hstep ih => exact ih.trans hstep.links_within

theorem Advance.moves (busy : Option Task) (h : s.Advance st st') :
    s.Moves ⟨busy, st⟩ ⟨busy, st'⟩ := by
  induction h with
  | refl => exact .refl
  | tail _ hstep ih => exact ih.tail (.grow hstep)

/-! ## Bindings are only added -/

theorem lookup_isSome_of_suffix {α β : Type} [BEq α] {es fs : List (α × β)} (h : es <:+ fs)
    {a : α} (ha : (es.lookup a).isSome) : (fs.lookup a).isSome := by
  obtain ⟨added, rfl⟩ := h
  rw [List.lookup_append, Option.isSome_or, ha, Bool.or_true]

theorem Move.bindings_suffix {P Q : Position} (h : s.Move P Q) :
    P.staging.bindings <:+ Q.staging.bindings := by
  cases h with
  | grow h =>
    cases h with
    | name _ => exact List.suffix_refl _
    | rule _ _ _ => exact List.suffix_refl _
  | take _ => exact List.suffix_refl _
  | finish _ _ _ _ => exact List.suffix_cons _ _
  | refer _ _ _ => exact List.suffix_cons _ _
  | name _ _ _ _ _ => exact List.suffix_refl _
  | bind _ _ => exact List.suffix_cons _ _

theorem Moves.bindings_suffix {P Q : Position} (h : s.Moves P Q) :
    P.staging.bindings <:+ Q.staging.bindings := by
  induction h with
  | refl => exact List.suffix_refl _
  | tail _ hstep ih => exact ih.trans hstep.bindings_suffix

theorem Moves.bound_isSome {P Q : Position} (h : s.Moves P Q) {l : Link}
    (hl : (s.bound P.staging l).isSome) : (s.bound Q.staging l).isSome := by
  obtain ⟨added, hadded⟩ := h.bindings_suffix
  refine lookup_isSome_of_suffix ⟨added, ?_⟩ hl
  rw [← hadded, List.append_assoc]

/-! ## Links to be bound -/

/-- The links to be bound are those of the staged programs, in turn. -/
def Tracked (st : Staging) : Prop :=
  st.bindings.map Prod.fst = (st.bound.map Link.number).reverse

theorem Tracked.bind {st st' : Staging} (h : Tracked st) {l : Link} {p : Program}
    (hbindings : st'.bindings = (l.number, p) :: st.bindings) (hbound : st'.bound = st.bound ++ [l]) :
    Tracked st' := by
  rw [Tracked, hbindings, hbound, List.map_cons, List.map_append, List.reverse_append, h]
  rfl

theorem Move.tracked {P Q : Position} (h : s.Move P Q) (hP : Tracked P.staging) :
    Tracked Q.staging := by
  cases h with
  | grow h =>
    cases h with
    | name _ => exact hP
    | rule _ _ _ => exact hP
  | take _ => exact hP
  | finish _ _ _ _ => exact hP.bind rfl rfl
  | refer _ _ _ => exact hP.bind rfl rfl
  | name _ _ _ _ _ => exact hP
  | bind _ _ => exact hP.bind rfl rfl

theorem Moves.tracked {P Q : Position} (h : s.Moves P Q) (hP : Tracked P.staging) :
    Tracked Q.staging := by
  induction h with
  | refl => exact hP
  | tail _ hstep ih => exact hstep.tracked ih

/-! ## Rules that stand for names -/

theorem Move.named_subset {P Q : Position} (h : s.Move P Q) :
    P.staging.named ⊆ Q.staging.named := by
  cases h with
  | grow h =>
    cases h with
    | name _ => exact List.Subset.refl _
    | rule _ _ _ => exact List.Subset.refl _
  | name _ _ _ _ _ => exact List.subset_append_left _ _
  | _ => exact List.Subset.refl _

theorem Moves.named_subset {P Q : Position} (h : s.Moves P Q) :
    P.staging.named ⊆ Q.staging.named := by
  induction h with
  | refl => exact List.Subset.refl _
  | tail _ hstep ih => exact List.Subset.trans ih hstep.named_subset

/-! ## Rules that wait -/

variable (s) in
/-- Every rule of the worklist occurs in the batch. -/
def Ready (st : Staging) : Prop := ∀ task ∈ st.todo, s.Waits task

theorem Grow.ready (h : s.Grow st st') (hready : s.Ready st) : s.Ready st' := by
  cases h with
  | name _ => exact hready
  | rule htask _ _ =>
    intro task hmem
    rcases List.mem_append.1 hmem with hmem | hmem
    · exact hready task hmem
    · rw [List.mem_singleton.1 hmem]
      exact htask

theorem Advance.ready (h : s.Advance st st') (hready : s.Ready st) : s.Ready st' := by
  induction h with
  | refl => exact hready
  | tail _ hstep ih => exact hstep.ready ih

/-! ## Compilations are runs -/

theorem Moves.finish {task : Task} {p : Program} (h : (s.compile task).Yields st p st')
    (htask : s.Waits task) :
    s.Moves ⟨some task, st⟩
        ⟨none, { st' with
          bindings := (task.link.number, p) :: st'.bindings
          bound := st'.bound ++ [task.link] }⟩ ∧
      (s.Ready st → s.Ready st') := by
  obtain ⟨st₁, r, hadv, hread, rfl, hnumber, hid, _, hemits⟩ := compile_yields h htask
  refine ⟨(hadv.moves _).tail (.finish hread hnumber hid hemits), ?_⟩
  intro hready
  exact hadv.ready hready

/-- What holds of the state in which the worklist is empty holds before, if every task that
is taken, compiled and bound keeps it backwards. -/
theorem drain_induction {motive : Staging → Prop} {fuel : Nat}
    (h : (s.drain fuel).Yields st () st') (hdone : st'.todo = [] → motive st')
    (hround : ∀ {st task rest p st₂}, st.todo = task :: rest →
      (s.compile task).Yields { st with todo := rest } p st₂ →
      motive { st₂ with
        bindings := (task.link.number, p) :: st₂.bindings
        bound := st₂.bound ++ [task.link] } → motive st) : motive st := by
  induction fuel generalizing st with
  | zero =>
    simp only [Source.drain, yields_bind, yields_get] at h
    obtain ⟨_, _, ⟨rfl, rfl⟩, h⟩ := h
    cases htodo : st.todo with
    | nil =>
      simp only [htodo, yields_pure] at h
      obtain ⟨_, rfl⟩ := h
      exact hdone htodo
    | cons task rest =>
      simp only [htodo] at h
      exact (yields_throw.1 h).elim
  | succ fuel ih =>
    simp only [Source.drain, yields_bind, yields_get] at h
    obtain ⟨_, _, ⟨rfl, rfl⟩, h⟩ := h
    cases htodo : st.todo with
    | nil =>
      simp only [htodo, yields_pure] at h
      obtain ⟨_, rfl⟩ := h
      exact hdone htodo
    | cons task rest =>
      simp only [htodo, yields_bind, yields_set, Source.bind, yields_modify] at h
      obtain ⟨_, st₁, rfl, p, st₂, hcompile, _, st₃, rfl, hdrain⟩ := h
      exact hround htodo hcompile (ih hdrain)

theorem Moves.drain {fuel : Nat} (h : (s.drain fuel).Yields st () st') (hready : s.Ready st) :
    s.Moves ⟨none, st⟩ ⟨none, st'⟩ ∧ st'.todo = [] := by
  refine drain_induction
    (motive := fun st => s.Ready st → s.Moves ⟨none, st⟩ ⟨none, st'⟩ ∧ st'.todo = []) h
    (fun hdone _ => ⟨.refl, hdone⟩) ?_ hready
  intro st task rest p st₂ htodo hcompile ih hready
  have htask : s.Waits task := by
    refine hready task ?_
    rw [htodo]
    exact List.mem_cons_self ..
  have hrest : s.Ready { st with todo := rest } := by
    intro task' hmem
    refine hready task' ?_
    rw [htodo]
    exact List.mem_cons_of_mem _ hmem
  obtain ⟨hfinish, hready'⟩ := Moves.finish hcompile htask
  obtain ⟨hdrain, hdone⟩ := ih (hready' hrest)
  exact ⟨((Relation.ReflTransGen.single (Move.take htodo)).trans hfinish).trans hdrain, hdone⟩

theorem Moves.drainAll (h : s.drainAll.Yields st () st') (hready : s.Ready st) :
    s.Moves ⟨none, st⟩ ⟨none, st'⟩ ∧ st'.todo = [] := by
  simp only [Source.drainAll, yields_bind, yields_get] at h
  obtain ⟨_, _, ⟨rfl, rfl⟩, h⟩ := h
  exact Moves.drain h hready

variable (s) in
/-- The links of a name of the batch and of the rule that it stands for. -/
inductive Stands (T : Links) (n : String) (v : Value) : Link × Link → Prop where
  | intro {form : Value} {flat : Entries Value} {l t : Link} (hmem : (n, v) ∈ s.batch)
      (hflat : s.Flattens n v flat) (hform : s.form flat n = .ok form)
      (hl : T.name n = some l) (ht : T.rule (SchemaId.of s.digest form s.options) = some t) :
      Stands T n v (l, t)

theorem Stands.mono {T U : Links} (h : T.Within U) {n : String} {v : Value}
    {pair : Link × Link} (hpair : s.Stands T n v pair) : s.Stands U n v pair := by
  cases hpair with
  | intro hmem hflat hform hl ht => exact ⟨hmem, hflat, hform, h.name hl, h.rule ht⟩

variable (s) in
/-- A rule of the batch has been seen to. -/
inductive Settled (st : Staging) : String × Value → Prop where
  | refer {n m : String} {l : Link} (hl : (s.links st).name n = some l)
      (hbound : (st.bindings.lookup l.number).isSome) : Settled st (n, .text m)
  | rule {n : String} {v : Value} {pair : Link × Link} (hpair : s.Stands (s.links st) n v pair)
      (hmem : pair ∈ st.named) : Settled st (n, v)

theorem Settled.moves {P Q : Position} {e : String × Value} (h : s.Settled P.staging e)
    (hmoves : s.Moves P Q) : s.Settled Q.staging e := by
  have hlinks := hmoves.links_within
  cases h with
  | refer hl hbound =>
    exact .refer (hlinks.name hl) (lookup_isSome_of_suffix hmoves.bindings_suffix hbound)
  | rule hpair hmem => exact .rule (hpair.mono hlinks) (hmoves.named_subset hmem)

theorem Moves.nameRule {n : String} {v : Value} {flat : Entries Value} {l : Link}
    (hmem : (n, v) ∈ s.batch) (hflat : s.Flattens n v flat)
    (hl : (s.links st).name n = some l)
    (h : (do
      let target ← s.schedule flat s.options n
      modify fun st => { st with named := st.named ++ [(l, target)] }
      s.drainAll : Compile Unit).Yields st () st') (hready : s.Ready st) :
    s.Moves ⟨none, st⟩ ⟨none, st'⟩ ∧ s.Ready st' ∧ s.Settled st' (n, v) := by
  simp only [yields_bind, yields_modify] at h
  obtain ⟨t, st₁, ht, _, st₂, rfl, hdrain⟩ := h
  obtain ⟨hadv, form, hform, ht⟩ := schedule_yields ht (.named hmem hflat)
  have hl' := hadv.links_within.name hl
  obtain ⟨hdrain, hdone⟩ := Moves.drainAll hdrain (hadv.ready hready)
  refine ⟨((hadv.moves none).tail (.name hmem hflat hform hl' ht)).trans hdrain, ?_, ?_⟩
  · intro task htask
    rw [hdone] at htask
    cases htask
  · have hsettled : s.Settled { st₁ with named := st₁.named ++ [(l, t)] } (n, v) :=
      .rule ⟨hmem, hflat, hform, hl', ht⟩
        (List.mem_append_right _ (List.mem_singleton_self _))
    exact Settled.moves (P := ⟨none, _⟩) (Q := ⟨none, st'⟩) hsettled hdrain

theorem Moves.compileNamed {e : String × Value} (hmem : e ∈ s.batch)
    (h : (s.compileNamed e).Yields st () st') (hready : s.Ready st) :
    s.Moves ⟨none, st⟩ ⟨none, st'⟩ ∧ s.Ready st' ∧ s.Settled st' e := by
  obtain ⟨n, v⟩ := e
  simp only [Source.compileNamed, yields_bind] at h
  obtain ⟨l, st₁, hl, h⟩ := h
  obtain ⟨hadv, hl⟩ := linkOfName_yields hl
  have hready₁ := hadv.ready hready
  cases v with
  | text m =>
    simp only [newProgram, Source.bind, yields_bind, yields_get, yields_set, yields_modify,
      yields_pure] at h
    obtain ⟨t, st₂, ht, p, st₃, ⟨_, _, ⟨rfl, rfl⟩, _, _, rfl, rfl, rfl⟩, rfl⟩ := h
    obtain ⟨hadv', ht⟩ := linkOfName_yields ht
    have hl' := hadv'.links_within.name hl
    refine ⟨(Advance.moves none (hadv.trans hadv')).tail (.refer hmem hl' ht), hadv'.ready hready₁,
      .refer hl' ?_⟩
    simp only [List.lookup_cons, beq_self_eq_true, Option.isSome_some]
  | null =>
    obtain ⟨hmoves, hready', hsettled⟩ := Moves.nameRule hmem .null hl h hready₁
    exact ⟨(hadv.moves none).trans hmoves, hready', hsettled⟩
  | mapping fs =>
    simp only [yields_bind, yields_lift] at h
    obtain ⟨flat, _, ⟨hflat, rfl⟩, h⟩ := h
    have h' := Moves.nameRule hmem (.mapping hflat) hl (by
      simp only [yields_bind]
      exact h) hready₁
    obtain ⟨hmoves, hready', hsettled⟩ := h'
    exact ⟨(hadv.moves none).trans hmoves, hready', hsettled⟩
  | bool b => exact (yields_throw.1 h).elim
  | number n => exact (yields_throw.1 h).elim
  | list xs => exact (yields_throw.1 h).elim

theorem Moves.compileNames {es : List (String × Value)} (hsub : es ⊆ s.batch)
    (h : (es.forM s.compileNamed).Yields st () st') (hready : s.Ready st) :
    s.Moves ⟨none, st⟩ ⟨none, st'⟩ ∧ s.Ready st' ∧ ∀ e ∈ es, s.Settled st' e := by
  induction es generalizing st with
  | nil =>
    rw [List.forM, yields_pure] at h
    obtain ⟨_, rfl⟩ := h
    exact ⟨.refl, hready, by simp⟩
  | cons e es ih =>
    simp only [List.forM, yields_bind] at h
    obtain ⟨_, st₁, he, hes⟩ := h
    obtain ⟨hmoves, hready₁, hsettled⟩ :=
      Moves.compileNamed (hsub (List.mem_cons_self ..)) he hready
    obtain ⟨hmoves', hready', hrest⟩ :=
      ih (fun x hx => hsub (List.mem_cons_of_mem _ hx)) hes hready₁
    refine ⟨hmoves.trans hmoves', hready', ?_⟩
    intro e' he'
    rcases List.mem_cons.1 he' with rfl | he'
    · exact Settled.moves (P := ⟨none, st₁⟩) (Q := ⟨none, st'⟩) hsettled hmoves'
    · exact hrest e' he'

/-- Binding a name leaves the worklist alone, and the name is bound if its rule is. -/
theorem Moves.bindName {pair : Link × Link} (hmem : pair ∈ st.named)
    (h : (s.bindName pair).Yields st () st') :
    s.Moves ⟨none, st⟩ ⟨none, st'⟩ ∧ st'.named = st.named ∧ st'.todo = st.todo ∧
      ((s.bound st pair.2).isSome → (st'.bindings.lookup pair.1.number).isSome) := by
  simp only [Source.bindName, yields_bind, yields_get] at h
  obtain ⟨_, _, ⟨rfl, rfl⟩, h⟩ := h
  have hbound : s.bound st pair.2 =
      (st.bindings.lookup pair.2.number).or (s.bindings.lookup pair.2.number) :=
    List.lookup_append
  rw [← hbound] at h
  cases hp : s.bound st pair.2 with
  | none =>
    simp only [hp, yields_pure] at h
    obtain ⟨_, rfl⟩ := h
    exact ⟨.refl, rfl, rfl, by simp⟩
  | some p =>
    simp only [hp, Source.bind, yields_modify] at h
    subst h
    refine ⟨.single (.bind hmem hp), rfl, rfl, ?_⟩
    intro _
    simp only [List.lookup_cons, beq_self_eq_true, Option.isSome_some]

theorem Moves.bindNames {pairs : List (Link × Link)} (hsub : pairs ⊆ st.named)
    (h : (pairs.forM s.bindName).Yields st () st') :
    s.Moves ⟨none, st⟩ ⟨none, st'⟩ ∧ st'.named = st.named ∧ st'.todo = st.todo ∧
      ∀ pair ∈ pairs, (s.bound st pair.2).isSome →
        (st'.bindings.lookup pair.1.number).isSome := by
  induction pairs generalizing st with
  | nil =>
    rw [List.forM, yields_pure] at h
    obtain ⟨_, rfl⟩ := h
    exact ⟨.refl, rfl, rfl, by simp⟩
  | cons pair pairs ih =>
    simp only [List.forM, yields_bind] at h
    obtain ⟨_, st₁, hpair, hpairs⟩ := h
    obtain ⟨hmoves, hnamed, htodo, hbound⟩ := Moves.bindName (hsub (List.mem_cons_self ..)) hpair
    have hsub' : pairs ⊆ st₁.named := by
      intro x hx
      rw [hnamed]
      exact hsub (List.mem_cons_of_mem _ hx)
    obtain ⟨hmoves', hnamed', htodo', hrest⟩ := ih hsub' hpairs
    refine ⟨hmoves.trans hmoves', hnamed'.trans hnamed, htodo'.trans htodo, ?_⟩
    intro pair' hmem hsome
    rcases List.mem_cons.1 hmem with rfl | hmem
    · exact lookup_isSome_of_suffix hmoves'.bindings_suffix (hbound hsome)
    · refine hrest pair' hmem ?_
      exact Moves.bound_isSome (P := ⟨none, st⟩) (Q := ⟨none, st₁⟩) hmoves hsome

/-- The compilation of a batch is a run that ends with an empty worklist, with
every rule of the batch seen to and every name of a compiled rule bound. -/
theorem Moves.compileBatch (h : s.compileBatch.Yields st () st') (hready : s.Ready st) :
    s.Moves ⟨none, st⟩ ⟨none, st'⟩ ∧ st'.todo = [] ∧ (∀ e ∈ s.batch, s.Settled st' e) ∧
      ∃ st₁, s.Moves ⟨none, st⟩ ⟨none, st₁⟩ ∧ s.Moves ⟨none, st₁⟩ ⟨none, st'⟩ ∧
        st₁.todo = [] ∧ st'.named = st₁.named ∧
        ∀ pair ∈ st₁.named, (s.bound st₁ pair.2).isSome →
          (st'.bindings.lookup pair.1.number).isSome := by
  simp only [Source.compileBatch, yields_bind, yields_get] at h
  obtain ⟨_, st₁, hnames, _, st₂, hdrain, _, _, ⟨rfl, rfl⟩, hbind⟩ := h
  obtain ⟨hmoves₁, hready₁, hsettled⟩ := Moves.compileNames (List.Subset.refl _) hnames hready
  obtain ⟨hmoves₂, hdone⟩ := Moves.drainAll hdrain hready₁
  obtain ⟨hmoves₃, hnamed, htodo, hbound⟩ := Moves.bindNames (List.Subset.refl _) hbind
  refine ⟨(hmoves₁.trans hmoves₂).trans hmoves₃, htodo.trans hdone, ?_, st₂,
    hmoves₁.trans hmoves₂, hmoves₃, hdone, hnamed, hbound⟩
  intro e he
  exact Settled.moves (P := ⟨none, st₁⟩) (Q := ⟨none, st'⟩) (hsettled e he)
    (hmoves₂.trans hmoves₃)

end Source
end Rulebook
