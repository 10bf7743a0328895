import Rulebook.Proofs.Compilation.Refusals
import Rulebook.Proofs.Value.Ordered
import Rulebook.Proofs.Value.Parts

/-!
# Rules that unfold into themselves

Flattening a rule ends, since no chain of bases meets a name twice.  The form of a
rule goes on to the rules inside it, which are flattened in turn; there the chain
starts anew, so that a rule may come to contain itself.  Where it does not, its
form ends: every rule that is unfolded is written in the given rule or in a named
one, and a path through more rules than are written there meets one of them again.
-/

namespace Rulebook

variable {α β : Type}

/-- The computation gives a result, or refuses the batch for what its rules say. -/
def Ends (x : Except SchemaError α) : Prop := ∀ label, x ≠ .error (.endless label)

theorem ends_ok (a : α) : Ends (.ok a) := by
  intro label h
  cases h

theorem ends_error {e : SchemaError} (h : ∀ label, e ≠ .endless label) :
    Ends (.error e : Except SchemaError α) := by
  intro label heq
  exact h label (Except.error.inj heq)

theorem Ends.bind {x : Except SchemaError α} {f : α → Except SchemaError β} (hx : Ends x)
    (hf : ∀ a, x = .ok a → Ends (f a)) : Ends (x >>= f) := by
  cases x with
  | ok a => exact hf a rfl
  | error e => exact ends_error fun label h => hx label (congrArg Except.error h)

/-- An error about what rules say, not about how far they are followed. -/
def NotEndless (e : SchemaError) : Prop := ∀ label, e ≠ .endless label

theorem ends_iff {x : Except SchemaError α} : Ends x ↔ Refuses NotEndless x := by
  constructor
  · rintro h e rfl label rfl
    exact h label rfl
  · rintro h label rfl
    exact h _ rfl label rfl

/-- Reading a rule ends. -/
theorem Rule.ends_read {features : Entries Value} {label : String} :
    Ends (Rule.read features label) :=
  ends_iff.2 (Rule.malformed_read fun _ _ h => by cases h)

namespace Source

open Rule Value

variable {s : Source} {label : String}

/-! ## Flattening -/

variable (s) in
/-- The names of rules. -/
def names : List String := Entries.keys s.batch ++ Entries.keys s.registered

theorem length_names : s.names.length = s.ruleCount := by
  rw [names, List.length_append, Entries.keys, Entries.keys, List.length_map, List.length_map,
    ruleCount]

theorem mem_of_lookup {name : String} {v : Value} (h : s.lookup name = some v) :
    (name, v) ∈ s.batch ++ s.registered := by
  rw [Source.lookup, Option.or_eq_some_iff] at h
  rcases h with h | ⟨-, h⟩
  · exact List.mem_append_left _ (Entries.mem_of_lookup h)
  · exact List.mem_append_right _ (Entries.mem_of_lookup h)

theorem name_mem_names {name : String} {v : Value} (h : s.lookup name = some v) :
    name ∈ s.names := by
  rw [names, Entries.keys, Entries.keys, ← List.map_append]
  exact List.mem_map.2 ⟨_, mem_of_lookup h, rfl⟩

/-- A chain of different names of rules does not outrun the bases that are left. -/
theorem ends_flattenFrom {fuel : Nat} {chain : List String} {features : Entries Value}
    (hdistinct : chain.Nodup) (hnames : chain ⊆ label :: s.names)
    (hfuel : s.ruleCount + 2 ≤ fuel + chain.length) :
    Ends (s.flattenFrom label fuel chain features) := by
  induction fuel generalizing chain features with
  | zero =>
    have hle := (List.subperm_of_subset hdistinct hnames).length_le
    rw [List.length_cons, length_names] at hle
    omega
  | succ fuel ih =>
    rw [flattenFrom]
    split
    · exact ends_ok _
    · exact ends_ok _
    · rename_i name _
      split
      · exact ends_error fun _ h => by cases h
      · rename_i hfresh
        split
        · rename_i base hbase
          refine ih ?_ ?_ ?_
          · exact List.nodup_append.2 ⟨hdistinct, List.nodup_singleton _, by
              rintro a ha b hb rfl
              exact hfresh (List.mem_singleton.1 hb ▸ ha)⟩
          · refine List.append_subset.2 ⟨hnames, List.cons_subset.2 ⟨?_, List.nil_subset _⟩⟩
            exact List.mem_cons_of_mem _ (name_mem_names hbase)
          · rw [List.length_append, List.length_singleton]
            omega
        · exact ends_error fun _ h => by cases h
        · exact ends_error fun _ h => by cases h
    · exact ends_error fun _ h => by cases h

/-- Flattening a rule ends. -/
theorem ends_flatten (features : Entries Value) (label : String) :
    Ends (s.flatten features label) := by
  refine ends_flattenFrom (List.nodup_singleton _) (List.cons_subset_cons _ (List.nil_subset _)) ?_
  rw [List.length_singleton]
  omega

/-! ## Forms -/

theorem ends_taken (name : String) : Ends (s.taken name) := by
  rw [taken]
  split
  · exact (ends_flatten _ _).bind fun _ _ => ends_ok _
  · exact ends_ok _

/-- The form of features ends if those of the rules inside do. -/
theorem ends_formWith {sub : Value → Except SchemaError Value} {features : Entries Value}
    (h : ∀ v, Inside features v → Ends (sub v)) : Ends (s.formWith sub features) := by
  refine ends_iff.2 (refuses_formWith (fun name _ => ?_) fun v hv => ends_iff.1 (h v hv))
  exact ends_iff.1 (ends_taken name)

variable (s) in
/-- A rule inside another, flattened. -/
def Contains (features inner : Entries Value) : Prop :=
  ∃ es, Inside features (.mapping es) ∧ s.flattenInline es = .ok inner

/-- Unfolding to a depth ends if no path of rules inside rules is that long. -/
theorem ends_formOf {depth : Nat} {features : Entries Value}
    (h : ∀ path, List.IsChain s.Contains (features :: path) → path.length < depth) :
    Ends (s.formOf (fun es => s.flatten es label) label depth features) := by
  induction depth generalizing features with
  | zero => exact absurd (h [] (List.isChain_singleton _)) (Nat.not_lt_zero _)
  | succ depth ih =>
    rw [formOf]
    refine (ends_formWith fun v hv => ?_).bind fun _ _ => ends_ok _
    cases v with
    | mapping es =>
      refine (ends_flatten es label).bind fun inner hinner => ih fun path hpath => ?_
      have hcontains : s.Contains features inner := ⟨es, hv, flattenInline_of_flatten hinner⟩
      exact Nat.lt_of_succ_lt_succ (h (inner :: path) (.cons_cons hcontains hpath))
    | _ => exact ends_ok _

/-! ## Paths through rules -/

variable (s) in
/-- The values that are written in the given features or in named rules. -/
def written (features : Entries Value) : List Value :=
  partsEntries features ++ partsEntries s.batch ++ partsEntries s.registered

theorem length_written (features : Entries Value) :
    (s.written features).length = s.nodes + nodesEntries features := by
  rw [written, List.length_append, List.length_append, length_partsEntries, length_partsEntries,
    length_partsEntries, nodes]
  omega

theorem parts_subset_written {features : Entries Value} {v w : Value}
    (hv : v ∈ s.written features) (hw : w ∈ v.parts) : w ∈ s.written features := by
  have hentries {es : Entries Value} (h : v ∈ partsEntries es) : w ∈ partsEntries es := by
    obtain ⟨e, he, hv⟩ := mem_partsEntries.1 h
    exact mem_partsEntries.2 ⟨e, he, parts_trans hw hv⟩
  simp only [written, List.mem_append] at hv ⊢
  exact hv.imp (Or.imp hentries hentries) hentries

theorem named_mem_written {features : Entries Value} {name : String} {v : Value}
    (h : s.lookup name = some v) : v ∈ s.written features := by
  simp only [written, List.mem_append]
  rcases List.mem_append.1 (mem_of_lookup h) with h | h
  · exact Or.inl (Or.inr (mem_partsEntries.2 ⟨_, h, mem_parts_self v⟩))
  · exact Or.inr (mem_partsEntries.2 ⟨_, h, mem_parts_self v⟩)

/-- Flattening adds only what is written in named rules. -/
theorem flattenFrom_written {all features flat : Entries Value} {fuel : Nat} {chain : List String}
    (hfeatures : ∀ e ∈ features, e.2 ∈ s.written all)
    (hflat : s.flattenFrom label fuel chain features = .ok flat) :
    ∀ e ∈ flat, e.2 ∈ s.written all := by
  induction fuel generalizing chain features with
  | zero => cases hflat
  | succ fuel ih =>
    have hown : ∀ e ∈ Entries.erase baseFeature features, e.2 ∈ s.written all :=
      fun e he => hfeatures e (Entries.mem_of_mem_erase he)
    rw [flattenFrom] at hflat
    split at hflat
    · exact Except.ok.inj hflat ▸ hown
    · exact Except.ok.inj hflat ▸ hown
    · split at hflat
      · cases hflat
      · split at hflat
        · rename_i base hbase
          refine ih (fun e he => ?_) hflat
          rcases Entries.mem_of_mem_overlay he with he | he
          · exact hown e he
          · exact parts_subset_written (named_mem_written hbase) (mem_parts_of_mem_mapping he)
        · cases hflat
        · cases hflat
    · cases hflat

theorem inside_written {all features : Entries Value}
    (hfeatures : ∀ e ∈ features, e.2 ∈ s.written all) {v : Value} (hv : Inside features v) :
    v ∈ s.written all := by
  cases hv with
  | entry _ hlookup hmem =>
    exact parts_subset_written (hfeatures _ (Entries.mem_of_lookup hlookup))
      (mem_parts_of_mem_mapping hmem)
  | argument _ hlookup => exact hfeatures _ (Entries.mem_of_lookup hlookup)
  | branch _ hlookup hmem =>
    exact parts_subset_written (hfeatures _ (Entries.mem_of_lookup hlookup))
      (mem_parts_of_mem_list hmem)

variable (s) in
/-- What the mappings among the written values are flattened to. -/
def unfolded (features : Entries Value) : List (Entries Value) :=
  (s.written features).filterMap fun v =>
    match v with
    | .mapping es => (s.flattenInline es).toOption
    | _ => none

theorem contains_written {all features inner : Entries Value}
    (hfeatures : ∀ e ∈ features, e.2 ∈ s.written all) (h : s.Contains features inner) :
    inner ∈ s.unfolded all ∧ ∀ e ∈ inner, e.2 ∈ s.written all := by
  obtain ⟨es, hes, hflat⟩ := h
  have hmapping := inside_written hfeatures hes
  refine ⟨List.mem_filterMap.2 ⟨_, hmapping, ?_⟩, ?_⟩
  · exact congrArg Except.toOption hflat
  · exact flattenFrom_written
      (fun e he => parts_subset_written hmapping (mem_parts_of_mem_mapping he)) hflat

/-- Every rule on a path is what a written mapping is flattened to. -/
theorem path_subset_unfolded {all features : Entries Value} {path : List (Entries Value)}
    (hfeatures : ∀ e ∈ features, e.2 ∈ s.written all)
    (hpath : List.IsChain s.Contains (features :: path)) : path ⊆ s.unfolded all := by
  induction path generalizing features with
  | nil => exact List.nil_subset _
  | cons inner path ih =>
    obtain ⟨hcontains, hrest⟩ := List.isChain_cons_cons.1 hpath
    obtain ⟨hmem, hinner⟩ := contains_written hfeatures hcontains
    exact List.cons_subset.2 ⟨hmem, ih hinner hrest⟩

variable (s) in
/-- The rule comes, through rules inside rules, to one that contains itself. -/
def Recurs (features : Entries Value) : Prop :=
  ∃ inner, Relation.ReflTransGen s.Contains features inner ∧
    Relation.TransGen s.Contains inner inner

theorem nodup_path {features : Entries Value} (h : ¬ s.Recurs features)
    {path : List (Entries Value)} (hpath : List.IsChain s.Contains (features :: path)) :
    (features :: path).Nodup := by
  have hpairwise : (features :: path).Pairwise (Relation.TransGen s.Contains) :=
    (hpath.imp fun _ _ => .single).pairwise
  have hreached : ∀ f ∈ features :: path, Relation.ReflTransGen s.Contains features f := by
    intro f hf
    rcases List.mem_cons.1 hf with rfl | hf
    · exact .refl
    · exact (List.rel_of_pairwise_cons hpairwise hf).to_reflTransGen
  refine hpairwise.imp_of_mem fun hf _ hfg heq => ?_
  exact h ⟨_, hreached _ hf, heq ▸ hfg⟩

/-- The form of a rule that does not come to contain itself ends. -/
theorem ends_form {features : Entries Value} (h : ¬ s.Recurs features) (label : String) :
    Ends (s.form features label) := by
  refine ends_formOf fun path hpath => ?_
  have hdistinct := (nodup_path h hpath).of_cons
  have hsubset : path ⊆ s.unfolded features := by
    refine path_subset_unfolded (fun e he => ?_) hpath
    simp only [written, List.mem_append]
    exact Or.inl (Or.inl (mem_partsEntries.2 ⟨e, he, mem_parts_self _⟩))
  have hle := (List.subperm_of_subset hdistinct hsubset).length_le
  have hfilter : (s.unfolded features).length ≤ (s.written features).length :=
    List.length_filterMap_le _ _
  rw [length_written] at hfilter
  rw [formDepth]
  omega

end Source
end Rulebook
