import Rulebook.Proofs.Compilation.Inherited
import Rulebook.Proofs.Compilation.Refusals
import Rulebook.Proofs.Compilation.Unfolding

/-!
# Why a rule is malformed

The grammar of rules and the reading of rules are two accounts of what a rule is.
Where all rules are well formed, a compilation that refuses one of them as malformed
does so for something that the grammar leaves open: a table of substitutions with a
container as a source, or a rule that inherits from a bare name.

The rules that matter are those of the batch and those they inherit from, with all
rules inside them, and for bare names also the rules that an entry refers to, since an
entry takes up features of such a rule.
-/

namespace Rulebook

namespace Rule

theorem lookup_of_argument? {features : Entries Value} {feature : String} {v : Value}
    (h : argument? features feature = some v) : Entries.lookup feature features = some v := by
  rw [argument?] at h
  split at h
  · cases h
  · exact h

/-- A rule that is well formed and in its one spelling. -/
structure Proper (v : Value) : Prop where
  wellFormed : WellFormed v
  spelled : Spelled v

theorem Spelled.ne_null {v : Value} (h : Spelled v) : v ≠ .null := by
  rintro rfl
  obtain ⟨w, hw⟩ := h
  cases w with
  | null | mapping _ =>
    rw [spell] at hw
    cases hw
  | _ => cases hw

/-- In its one spelling a rule is a name or a mapping. -/
theorem Proper.cases {v : Value} (h : Proper v) :
    (∃ name, v = .text name) ∨ ∃ fs, v = .mapping fs ∧ FeaturesFit fs := by
  rcases wellFormed_iff.1 h.wellFormed with rfl | hname | hmapping
  · exact absurd rfl h.spelled.ne_null
  · exact Or.inl hname
  · exact Or.inr hmapping

/-- The rules inside a well-formed rule are well formed. -/
theorem FeaturesFit.inside {fs : Entries Value} (h : FeaturesFit fs) {v : Value}
    (hv : Inside fs v) : WellFormed v := by
  cases hv with
  | @entry key k es hkey hlookup hmem =>
    have hshape : shapes.lookup key = some .rules := by
      rcases hkey with rfl | rfl <;> rfl
    obtain ⟨fs, heq, hfs⟩ := fits_iff.1 (h.arguments key _ _ hlookup hshape)
    cases heq
    exact hfs _ hmem
  | @argument key hkey hlookup =>
    have hshape : shapes.lookup key = some .rule := by
      rcases hkey with rfl | rfl <;> rfl
    exact fits_iff.1 (h.arguments key _ _ hlookup hshape)
  | @branch key vs hkey hlookup hmem =>
    have hshape : shapes.lookup key = some .branches := by
      rcases hkey with rfl | rfl <;> rfl
    obtain ⟨ws, heq, hws⟩ := fits_iff.1 (h.arguments key _ _ hlookup hshape)
    cases heq
    exact hws _ hmem

theorem Proper.featuresFit {fs : Entries Value} (h : Proper (.mapping fs)) : FeaturesFit fs :=
  wellFormed_mapping_iff.1 h.wellFormed

theorem Proper.inside {fs : Entries Value} (h : Proper (.mapping fs)) {v : Value}
    (hv : Inside fs v) : Proper v :=
  ⟨h.featuresFit.inside hv, h.spelled.inside hv⟩

end Rule

namespace Source

open Rule Compile

variable (s : Source)

/-! ## What is looked at -/

/-- The rules of the batch and those they inherit from, with all rules inside them. -/
inductive Involved : Value → Prop where
  | named {n : String} {v : Value} (hmem : (n, v) ∈ s.batch) : Involved v
  | inner {fs : Entries Value} {v : Value} (houter : Involved (.mapping fs)) (hv : Inside fs v) :
      Involved v
  | base {fs : Entries Value} {name : String} {v : Value} (hheir : Involved (.mapping fs))
      (hname : Entries.lookup baseFeature fs = some (.text name)) (hv : s.lookup name = some v) :
      Involved v

/-- The rules that are involved, the rules they name, and those that such rules inherit
from. -/
inductive Consulted : Value → Prop where
  | involved {v : Value} (h : s.Involved v) : Consulted v
  | named {name : String} {v : Value} (hname : s.Involved (.text name))
      (hv : s.lookup name = some v) : Consulted v
  | base {fs : Entries Value} {name : String} {v : Value} (hheir : Consulted (.mapping fs))
      (hname : Entries.lookup baseFeature fs = some (.text name)) (hv : s.lookup name = some v) :
      Consulted v

/-- The flaws of well-formed rules: in the substitutions of a rule that is involved a
source is a container, or a rule that is looked at inherits from a bare name. -/
inductive Explains : Flaw → Prop where
  | source {fs : Entries Value} {pairs : List Value} {source target : Value}
      (hrule : s.Involved (.mapping fs)) (htable : Entries.lookup "map" fs = some (.list pairs))
      (hmem : .list [source, target] ∈ pairs)
      (hcontainer : (∃ vs, source = .list vs) ∨ ∃ es, source = .mapping es) : Explains .remapSource
  | base {fs : Entries Value} {name target : String} (hrule : s.Consulted (.mapping fs))
      (hname : Entries.lookup baseFeature fs = some (.text name))
      (hbare : s.lookup name = some (.text target)) : Explains (.baseNotMapping name)

/-- If the error is that a rule is malformed, then its flaw is one of well-formed rules. -/
def Excused (e : SchemaError) : Prop := ∀ label flaw, e = .malformed label flaw → s.Explains flaw

/-- All rules, of the batch and registered, are well formed and in their one spelling. -/
def Checked : Prop := ∀ e ∈ s.batch ++ s.registered, Proper e.2

variable {s}

theorem excused_of_ne {e : SchemaError} (h : ∀ label flaw, e ≠ .malformed label flaw) :
    s.Excused e := fun label flaw heq => absurd heq (h label flaw)

theorem excused_of_explains {label : String} {flaw : Flaw} (h : s.Explains flaw) :
    s.Excused (.malformed label flaw) := by
  rintro _ _ ⟨⟩
  exact h

section

variable (hchecked : s.Checked)
include hchecked

theorem Checked.lookup {name : String} {v : Value} (h : s.lookup name = some v) : Proper v :=
  hchecked _ (mem_of_lookup h)

theorem Involved.proper {v : Value} (h : s.Involved v) : Proper v := by
  induction h with
  | named hmem => exact hchecked _ (List.mem_append_left _ hmem)
  | inner _ hv ih => exact ih.inside hv
  | base _ _ hv => exact hchecked.lookup hv

theorem Consulted.proper {v : Value} (h : s.Consulted v) : Proper v := by
  cases h with
  | involved h => exact h.proper hchecked
  | named _ hv => exact hchecked.lookup hv
  | base _ _ hv => exact hchecked.lookup hv

theorem Checked.spelled : ∀ e ∈ s.batch ++ s.registered, Spelled e.2 :=
  fun e he => (hchecked e he).spelled

end

/-- A rule that is involved is in its one spelling if all rules are. -/
theorem Involved.spelled (hspelled : ∀ e ∈ s.batch ++ s.registered, Spelled e.2) {v : Value}
    (h : s.Involved v) : Spelled v := by
  induction h with
  | named hmem => exact hspelled _ (List.mem_append_left _ hmem)
  | inner _ hv ih => exact ih.inside hv
  | base _ _ hv => exact hspelled _ (mem_of_lookup hv)

/-- To be involved is passed on to inner rules and to bases. -/
theorem closed_involved (hspelled : ∀ e ∈ s.batch ++ s.registered, Spelled e.2) :
    s.Closed s.Involved where
  named _ _ hmem := .named hmem
  inner _ _ houter hv := .inner houter hv
  base _ _ _ hheir hname hv := .base hheir hname hv
  sorted _ h := (h.spelled hspelled).sorted

/-! ## Features -/

variable {P : Value → Prop} {features flat : Entries Value} {label : String}

/-- Features gathered from well-formed rules have arguments of their shapes. -/
theorem Gathers.argumentsFit (hproper : ∀ fs, P (.mapping fs) → Proper (.mapping fs))
    (h : Gathers P features) : ArgumentsFit features := by
  intro key v shape hlookup hshape
  obtain ⟨fs, hfs, hstands⟩ := h.stands _ _ hlookup
  exact (hproper fs hfs).featuresFit.arguments key v shape hstands hshape

section

variable (hchecked : s.Checked)
include hchecked

/-- Flattening a rule that is looked at is refused as malformed only for a bare name. -/
theorem refuses_flattenFrom {fuel : Nat} {chain : List String} (h : Gathers s.Consulted features) :
    Refuses s.Excused (s.flattenFrom label fuel chain features) := by
  induction fuel generalizing chain features with
  | zero => exact refuses_error (excused_of_ne fun _ _ heq => by cases heq)
  | succ fuel ih =>
    rw [flattenFrom]
    split
    · exact refuses_ok _
    · exact refuses_ok _
    · rename_i name hname
      obtain ⟨fs, hfs, hheir⟩ := h.stands _ _ hname
      split
      · exact refuses_error (excused_of_ne fun _ _ heq => by cases heq)
      · split
        · rename_i base hlookup
          have hbase : s.Consulted (.mapping base) := .base hfs hheir hlookup
          exact ih ((h.erase _).overlay (gathers_of (hbase.proper hchecked).spelled.sorted hbase))
        · rename_i v hne hlookup
          rcases (hchecked.lookup hlookup).cases with ⟨target, rfl⟩ | ⟨base, rfl, -⟩
          · exact refuses_error (excused_of_explains (.base hfs hheir hlookup))
          · exact (hne base rfl).elim
        · exact refuses_error (excused_of_ne fun _ _ heq => by cases heq)
    · rename_i v hnull htext hlookup
      have hfits := h.argumentsFit (fun fs hfs => hfs.proper hchecked)
      obtain ⟨name, rfl⟩ := fits_iff.1 (hfits baseFeature v .text hlookup rfl)
      exact (htext name rfl).elim

theorem refuses_flatten (h : s.Consulted (.mapping features)) :
    Refuses s.Excused (s.flatten features label) :=
  refuses_flattenFrom hchecked (gathers_of (h.proper hchecked).spelled.sorted h)

/-- A rule that is looked at comes, once it is flattened, to features of their shapes. -/
theorem Consulted.argumentsFit (h : s.Consulted (.mapping features))
    (hflat : s.flatten features label = .ok flat) : ArgumentsFit flat := by
  have hproper : ∀ fs, s.Consulted (.mapping fs) → Proper (.mapping fs) :=
    fun fs hfs => hfs.proper hchecked
  have hgathers : Gathers s.Consulted flat :=
    (gathers_of (hproper features h).spelled.sorted h).flattenFrom
      (fun fs hfs => (hproper fs hfs).spelled.sorted) (fun _ _ _ => .base) hflat
  exact hgathers.argumentsFit hproper

omit hchecked in
theorem Involved.gathers (hspelled : ∀ e ∈ s.batch ++ s.registered, Spelled e.2)
    (h : s.Involved (.mapping features)) (hflat : s.flatten features label = .ok flat) :
    Gathers s.Involved flat :=
  (gathers_of (h.spelled hspelled).sorted h).flattenFrom (closed_involved hspelled).sorted
    (closed_involved hspelled).base hflat

omit hchecked in
theorem Gathers.involved (h : Gathers s.Involved features) {v : Value} (hv : Inside features v) :
    s.Involved v := by
  obtain ⟨fs, hfs, hinside⟩ := h.inside hv
  exact .inner hfs hinside

/-! ## Forms -/

theorem refuses_taken {name : String} (hname : s.Involved (.text name)) :
    Refuses s.Excused (s.taken name) := by
  rw [taken]
  split
  · rename_i fs hlookup
    exact (refuses_flatten hchecked (.named hname hlookup)).bind fun _ _ => refuses_ok _
  · exact refuses_ok _

omit hchecked in
/-- The form of features that stand in involved rules is refused as flattening a rule inside
them is, or as what an entry takes up from the rule that it names. -/
theorem refuses_formOf {errors : SchemaError → Prop}
    (hspelled : ∀ e ∈ s.batch ++ s.registered, Spelled e.2) (hendless : errors (.endless label))
    (htaken : ∀ name, s.Involved (.text name) → Refuses errors (s.taken name))
    (hflatten : ∀ outer es, s.Involved (.mapping outer) → Inside outer (.mapping es) →
      Refuses errors (s.flatten es label)) {depth : Nat} (h : Gathers s.Involved features) :
    Refuses errors (s.formOf (fun es => s.flatten es label) label depth features) := by
  induction depth generalizing features with
  | zero => exact refuses_error hendless
  | succ depth ih =>
    rw [formOf]
    refine (refuses_formWith (fun name hv => htaken name (h.involved hv)) fun v hv => ?_).bind
      fun _ _ => refuses_ok _
    cases v with
    | mapping es =>
      obtain ⟨outer, houter, hinside⟩ := h.inside hv
      refine (hflatten outer es houter hinside).bind fun flat hflat => ?_
      exact ih ((houter.inner hinside).gathers hspelled hflat)
    | _ => exact refuses_ok _

theorem refuses_form (h : Gathers s.Involved features) :
    Refuses s.Excused (s.form features label) :=
  refuses_formOf hchecked.spelled (excused_of_ne fun _ _ heq => by cases heq)
    (fun _ hname => refuses_taken hchecked hname)
    (fun _ _ houter hinside => refuses_flatten hchecked (.involved (houter.inner hinside))) h

/-! ## Compiling -/

theorem resolve_excused {v : Value} (hv : s.Involved v) (options : Options) (label : String) :
    Confined s.Excused (fun _ => True) (s.resolve v options label) := by
  rcases (hv.proper hchecked).cases with ⟨name, rfl⟩ | ⟨features, rfl, -⟩
  · rw [resolve]
    refine (linkOfName_confined name).bind fun _ => ?_
    split
    · rename_i fs hlookup
      have hnamed : s.Consulted (.mapping fs) := .named hv hlookup
      refine (confined_lift (refuses_flatten hchecked hnamed)).bind fun hflat => ?_
      have hfits := hnamed.argumentsFit hchecked (yields_lift.1 hflat).1
      exact (confined_lift (refuses_read hfits)).bind fun _ => confined_pure _
    · exact confined_pure _
  · rw [resolve]
    have hfeatures : s.Consulted (.mapping features) := .involved hv
    refine (confined_lift (refuses_flatten hchecked hfeatures)).bind fun hflat => ?_
    have hflat := (yields_lift.1 hflat).1
    split
    · exact confined_pure _
    · refine (confined_lift (refuses_read (hfeatures.argumentsFit hchecked hflat))).bind fun _ => ?_
      refine (schedule_confined ?_ fun _ _ _ => trivial).bind fun _ => confined_pure _
      exact refuses_form hchecked (hv.gathers hchecked.spelled hflat)

/-- A table of a rule that is involved is refused only for a source that is a container. -/
theorem remapOf_excused {table : Value} (h : Gathers s.Involved features)
    (htable : Entries.lookup "map" features = some table) (label : String) :
    Confined s.Excused (fun _ => True) (remapOf table label) := by
  rw [remapOf]
  split
  · exact confined_pure _
  · rename_i flaw hflaw
    obtain ⟨fs, hfs, hstands⟩ := h.stands _ _ htable
    have hfits := (hfs.proper hchecked).featuresFit.arguments "map" table .table hstands rfl
    obtain ⟨rfl, pairs, source, target, rfl, hmem, hkey⟩ := ofValue_error hfits hflaw
    refine confined_throw (excused_of_explains (.source hfs hstands hmem ?_))
    cases source with
    | list vs => exact Or.inl ⟨vs, rfl⟩
    | mapping es => exact Or.inr ⟨es, rfl⟩
    | _ => cases hkey

theorem compile_excused {task : Task} (htask : s.Waits task) :
    Confined s.Excused (fun _ => True) (s.compile task) := by
  have hgathers := htask.occurs.gathers (closed_involved hchecked.spelled)
  have hfits := hgathers.argumentsFit fun fs hfs => hfs.proper hchecked
  refine compile_confined (refuses_read hfits) fun rule hread options => ?_
  refine steps_confined ?_ ?_ (fun v hv place => ?_) fun table htable => ?_
  · exact fun _ _ => excused_of_ne fun _ _ heq => by cases heq
  · exact fun _ _ => excused_of_ne fun _ _ heq => by cases heq
  · have hv := hgathers.involved (inside_of_subRule (read?_of_read hread) hv)
    exact resolve_excused hchecked hv options _
  · have hargument : argument? task.features "map" = some table :=
      (read_eq_ok_iff.1 hread).remap.trans htable
    exact remapOf_excused hchecked hgathers (lookup_of_argument? hargument) _

/-- Where all rules are well formed, a compilation that refuses a rule as malformed does so
for a flaw of well-formed rules. -/
theorem compileBatch_excused {st : Staging} (hready : s.Ready st) :
    Refuses s.Excused (s.compileBatch.run st) := by
  have hproper : ∀ n v, (n, v) ∈ s.batch → Proper v :=
    fun n v hmem => hchecked _ (List.mem_append_left _ hmem)
  refine refuses_compileBatch (fun n v hmem _ htext hmapping => ?_) (fun n fs hmem => ?_)
    (fun n v flat hmem hflat => ?_) (fun _ _ _ _ _ _ _ => trivial) (fun st hready _ => ?_) hready
    fun _ _ => trivial
  · rcases (hproper n v hmem).cases with ⟨m, rfl⟩ | ⟨fs, rfl, -⟩
    · exact absurd rfl (htext m)
    · exact absurd rfl (hmapping fs)
  · exact refuses_flatten hchecked (.involved (.named hmem))
  · have hoccurs : s.Occurs flat s.options := .named hmem hflat
    exact refuses_form hchecked (hoccurs.gathers (closed_involved hchecked.spelled))
  · rw [drainAll]
    refine refuses_run_bind (refuses_ok _) fun st' st'' hget => ?_
    obtain ⟨rfl, rfl⟩ := yields_get.1 hget
    refine drain_refused ?_ (fun task htask _ => compile_excused hchecked htask) hready
      fun _ _ => trivial
    exact fun _ => excused_of_ne fun _ _ heq => by cases heq

end

end Source
end Rulebook
