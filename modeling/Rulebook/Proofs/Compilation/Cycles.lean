import Rulebook.Proofs.Compilation.Malformed

/-!
# Cycles of inheritance

A rule inherits along a chain of names, and the chain is refused as a cycle where it
meets a name twice.  The label of the rule is counted as the first name of its chain.
The label of a named rule is its name, and a chain that comes back to it is a cycle.

A rule written in place has a label as well: the place where it stands, or, where a form
is made, the label of the rule whose form it is.  No chain starts at that label.  So such
a rule may be refused for a chain that meets no name twice, because it comes to a rule
whose name reads like the label.  There is no other way in which a reported cycle is not
one.
-/

namespace Rulebook
namespace Source

open Rule Compile

variable (s : Source)

/-- The rule inherits along the names: from the rule of the first one, which inherits from
the rule of the second one, and so on. -/
inductive Ascends : Entries Value → List String → Prop where
  | last {fs : Entries Value} {name : String}
      (hname : Entries.lookup baseFeature fs = some (.text name)) : Ascends fs [name]
  | cons {fs base : Entries Value} {name : String} {names : List String}
      (hname : Entries.lookup baseFeature fs = some (.text name))
      (hbase : s.lookup name = some (.mapping base)) (hrest : Ascends base names) :
      Ascends fs (name :: names)

/-- The rule is written in place inside a rule that is involved. -/
def Inline (fs : Entries Value) : Prop :=
  ∃ outer, s.Involved (.mapping outer) ∧ Inside outer (.mapping fs)

/-- A named rule of the batch, or one that a rule refers to. -/
def Schema (n : String) (fs : Entries Value) : Prop :=
  (n, .mapping fs) ∈ s.batch ∨ s.Involved (.text n) ∧ s.lookup n = some (.mapping fs)

/-- The places where rules stand: the name of a rule of the batch, with what follows it. -/
inductive Place : String → Prop where
  | name {n : String} {v : Value} (hmem : (n, v) ∈ s.batch) : Place n
  | inner {label : String} (houter : Place label) (place : String) : Place (label ++ "." ++ place)

/-- The reported chain starts at a rule that inherits along its further names, and the names
that rules have of these are not all different. -/
inductive Loops : List String → Prop where
  /-- The own name of a named rule counts. -/
  | schema {n : String} {fs : Entries Value} {names : List String} (hschema : s.Schema n fs)
      (hascends : s.Ascends fs names) (htwice : ¬ (n :: names).Nodup) : Loops (n :: names)
  /-- The label of a rule written in place does not. -/
  | inline {label : String} {fs : Entries Value} {names : List String} (hplace : s.Place label)
      (hinline : s.Inline fs) (hascends : s.Ascends fs names) (htwice : ¬ names.Nodup) :
      Loops (label :: names)

/-- The reported chain is that of a rule written in place, which meets no name twice and ends
where it comes to a rule whose name is the label. -/
def Mistaken (reported : List String) : Prop :=
  ∃ label names fs, reported = label :: names ++ [label] ∧ s.Place label ∧ s.Inline fs ∧
    s.Ascends fs (names ++ [label]) ∧ (names ++ [label]).Nodup

/-- If the error is a cycle, then there is one, or a name reads like a label. -/
def CycleExplained (e : SchemaError) : Prop :=
  ∀ reported, e = .inheritanceCycle reported → s.Loops reported ∨ s.Mistaken reported

variable {s}

theorem explained_of_ne {e : SchemaError} (h : ∀ reported, e ≠ .inheritanceCycle reported) :
    s.CycleExplained e := fun reported heq => absurd heq (h reported)

/-! ## Chains -/

variable {features flat : Entries Value} {label : String}

/-- What a rule inherits along depends on the name it inherits from only. -/
theorem Ascends.congr {fs gs : Entries Value} {names : List String} (h : s.Ascends fs names)
    (heq : Entries.lookup baseFeature fs = Entries.lookup baseFeature gs) : s.Ascends gs names := by
  cases h with
  | last hname => exact .last (heq ▸ hname)
  | cons hname hbase hrest => exact .cons (heq ▸ hname) hbase hrest

/-- A reported chain goes on from the given one along names that the rule inherits along, up
to the first that was met before. -/
theorem cycle_of_flattenFrom {fuel : Nat} {chain reported : List String}
    (h : s.flattenFrom label fuel chain features = .error (.inheritanceCycle reported)) :
    ∃ names last, reported = chain ++ names ++ [last] ∧ s.Ascends features (names ++ [last]) ∧
      last ∈ chain ++ names := by
  induction fuel generalizing chain features with
  | zero => cases h
  | succ fuel ih =>
    rw [flattenFrom] at h
    split at h
    · cases h
    · cases h
    · rename_i name hname
      split at h
      · rename_i hmet
        cases h
        exact ⟨[], name, by rw [List.append_nil], .last hname, List.mem_append_left _ hmet⟩
      · split at h
        · rename_i base hbase
          obtain ⟨names, last, rfl, hascends, hmet⟩ := ih h
          refine ⟨name :: names, last, by simp, .cons hname hbase (hascends.congr ?_),
            by simpa using hmet⟩
          exact Entries.lookup_overlay_of_not_mem (Entries.not_mem_keys_erase _ _)
        · cases h
        · cases h
    · cases h

theorem cycle_of_flatten {reported : List String}
    (h : s.flatten features label = .error (.inheritanceCycle reported)) :
    ∃ names last, reported = label :: names ++ [last] ∧ s.Ascends features (names ++ [last]) ∧
      (last = label ∨ last ∈ names) := by
  obtain ⟨names, last, rfl, hascends, hmet⟩ := cycle_of_flattenFrom h
  exact ⟨names, last, rfl, hascends, List.mem_cons.1 hmet⟩

theorem not_nodup_concat {names : List String} {last : String} (h : last ∈ names) :
    ¬ (names ++ [last]).Nodup := by
  intro hnodup
  exact (List.nodup_append.1 hnodup).2.2 last h last (List.mem_singleton_self last) rfl

/-- A cycle that a named rule is refused for is one. -/
theorem refuses_flatten_schema {n : String} (h : s.Schema n features) :
    Refuses s.CycleExplained (s.flatten features n) := by
  rintro _ he reported rfl
  obtain ⟨names, last, rfl, hascends, hmet⟩ := cycle_of_flatten he
  exact Or.inl (.schema h hascends (not_nodup_concat (List.mem_cons.2 hmet)))

/-- A cycle that a rule written in place is refused for is one, or the label is met. -/
theorem refuses_flatten_inline (h : s.Inline features) (hplace : s.Place label) :
    Refuses s.CycleExplained (s.flatten features label) := by
  rintro _ he reported rfl
  obtain ⟨names, last, rfl, hascends, hmet⟩ := cycle_of_flatten he
  by_cases hnodup : (names ++ [last]).Nodup
  · rcases hmet with rfl | hmet
    · exact Or.inr ⟨last, names, features, rfl, hplace, h, hascends, hnodup⟩
    · exact absurd hnodup (not_nodup_concat hmet)
  · exact Or.inl (.inline hplace h hascends hnodup)

/-! ## Forms -/

theorem refuses_taken_of_named {name : String} (hname : s.Involved (.text name)) :
    Refuses s.CycleExplained (s.taken name) := by
  rw [taken]
  split
  · rename_i fs hlookup
    exact (refuses_flatten_schema (Or.inr ⟨hname, hlookup⟩)).bind fun _ _ => refuses_ok _
  · exact refuses_ok _

section

variable (hspelled : ∀ e ∈ s.batch ++ s.registered, Spelled e.2)
include hspelled

theorem refuses_form_of_place (hplace : s.Place label) (h : Gathers s.Involved features) :
    Refuses s.CycleExplained (s.form features label) :=
  refuses_formOf hspelled (explained_of_ne fun _ heq => by cases heq)
    (fun _ hname => refuses_taken_of_named hname)
    (fun outer _ houter hinside => refuses_flatten_inline ⟨outer, houter, hinside⟩ hplace) h

/-! ## Compiling -/

theorem resolve_explained {outer : Entries Value} {v : Value} (houter : s.Involved (.mapping outer))
    (hinside : Inside outer v) (hplace : s.Place label) (options : Options) :
    Confined s.CycleExplained (fun task => s.Place task.label) (s.resolve v options label) := by
  have hread (fs : Entries Value) (label : String) :
      Refuses s.CycleExplained (Rule.read fs label) :=
    Rule.malformed_read fun _ => explained_of_ne fun _ heq => by cases heq
  cases v with
  | null => exact confined_pure _
  | text name =>
    rw [resolve]
    refine (linkOfName_confined name).bind fun _ => ?_
    split
    · rename_i fs hlookup
      have hschema : s.Schema name fs := Or.inr ⟨houter.inner hinside, hlookup⟩
      refine (confined_lift (refuses_flatten_schema hschema)).bind fun _ => ?_
      exact (confined_lift (hread _ _)).bind fun _ => confined_pure _
    · exact confined_pure _
  | mapping fs =>
    rw [resolve]
    have hinline : s.Inline fs := ⟨outer, houter, hinside⟩
    refine (confined_lift (refuses_flatten_inline hinline hplace)).bind fun hflat => ?_
    split
    · exact confined_pure _
    · refine (confined_lift (hread _ _)).bind fun _ => ?_
      have hgathers := (houter.inner hinside).gathers hspelled (yields_lift.1 hflat).1
      exact (schedule_confined (refuses_form_of_place hspelled hplace hgathers)
        fun _ _ _ => hplace).bind fun _ => confined_pure _
  | _ => exact confined_throw (explained_of_ne fun _ heq => by cases heq)

theorem compile_explained {task : Task} (htask : s.Waits task) (hplace : s.Place task.label) :
    Confined s.CycleExplained (fun task => s.Place task.label) (s.compile task) := by
  have hgathers := htask.occurs.gathers (closed_involved hspelled)
  refine compile_confined (Rule.malformed_read fun _ => explained_of_ne fun _ heq => by cases heq)
    fun rule hread options => ?_
  refine steps_confined ?_ ?_ (fun v hv place => ?_) fun table _ => ?_
  · exact fun _ _ => explained_of_ne fun _ heq => by cases heq
  · exact fun _ _ => explained_of_ne fun _ heq => by cases heq
  · obtain ⟨outer, houter, hinside⟩ := hgathers.inside (inside_of_subRule (read?_of_read hread) hv)
    exact resolve_explained hspelled houter hinside (.inner hplace place) options
  · rw [remapOf]
    split
    · exact confined_pure _
    · exact confined_throw (explained_of_ne fun _ heq => by cases heq)

/-- A batch that is refused for a cycle has one, or a name that reads like a label. -/
theorem compileBatch_explained {st : Staging} (hready : s.Ready st)
    (htodo : ∀ task ∈ st.todo, s.Place task.label) :
    Refuses s.CycleExplained (s.compileBatch.run st) := by
  refine refuses_compileBatch ?_ ?_ ?_ ?_ ?_ hready htodo
  · exact fun _ _ _ _ _ _ => explained_of_ne fun _ heq => by cases heq
  · exact fun n fs hmem => refuses_flatten_schema (Or.inl hmem)
  · intro n v flat hmem hflat
    have hoccurs : s.Occurs flat s.options := .named hmem hflat
    exact refuses_form_of_place hspelled (.name hmem) (hoccurs.gathers (closed_involved hspelled))
  · exact fun _ _ _ _ _ _ hmem => .name hmem
  · intro st hready htodo
    rw [drainAll]
    refine refuses_run_bind (refuses_ok _) fun st' st'' hget => ?_
    obtain ⟨rfl, rfl⟩ := yields_get.1 hget
    exact drain_refused (fun _ => explained_of_ne fun _ heq => by cases heq)
      (fun _ htask hplace => compile_explained hspelled htask hplace) hready htodo

end

/-- Where no named rule inherits there is no cycle. -/
theorem not_loops (h : ∀ n fs, (n, .mapping fs) ∈ s.batch ++ s.registered →
    Entries.lookup baseFeature fs = none) (reported : List String) : ¬ s.Loops reported := by
  have hnamed {n : String} {fs : Entries Value} {names : List String}
      (hmem : (n, .mapping fs) ∈ s.batch ++ s.registered) : ¬ s.Ascends fs names := by
    intro hascends
    cases hascends with
    | last hname => cases (h n fs hmem).symm.trans hname
    | cons hname _ _ => cases (h n fs hmem).symm.trans hname
  rintro (⟨hmem | ⟨-, hlookup⟩, hascends, -⟩ | ⟨-, -, hascends, htwice⟩)
  · exact hnamed (List.mem_append_left _ hmem) hascends
  · exact hnamed (mem_of_lookup hlookup) hascends
  · cases hascends with
    | last _ => exact htwice (List.nodup_singleton _)
    | cons _ hbase hrest => exact hnamed (mem_of_lookup hbase) hrest

end Source
end Rulebook
