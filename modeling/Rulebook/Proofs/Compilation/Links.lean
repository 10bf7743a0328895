import Mathlib.Logic.Relation
import Rulebook.Proofs.Compilation.Flattening
import Rulebook.Proofs.Rule.Stages

/-!
# What the links of a compilation stand for

Links are handed out for names and for identities of rules.  A callee refers to
an inner rule if it is the link that the rule's name, or its identity, has been
given; what a program calls is described by this relation and not by numbers.

A compilation only ever hands out new links, so that a callee that refers to a
rule goes on doing so.  `Grow` is one such step.  Rules are put on the worklist
only if they occur in the batch: as a named rule, or inside a rule that occurs.
-/

namespace Rulebook

/-- The links that names and identities have been given. -/
structure Links where
  name : String → Option Link
  rule : SchemaId → Option Link

namespace Links

/-- Every link is kept. -/
structure Within (T U : Links) : Prop where
  name : ∀ {n l}, T.name n = some l → U.name n = some l
  rule : ∀ {i l}, T.rule i = some l → U.rule i = some l

theorem Within.refl (T : Links) : T.Within T := ⟨id, id⟩

theorem Within.trans {T U V : Links} (h : T.Within U) (k : U.Within V) : T.Within V :=
  ⟨fun hn => k.name (h.name hn), fun hi => k.rule (h.rule hi)⟩

end Links

/-- The staging area with a new link for a name. -/
def Staging.withName (st : Staging) (n : String) : Staging :=
  { st with
    nextLink := st.nextLink + 1
    nameLinks := Entries.insert n ⟨st.nextLink, n⟩ st.nameLinks }

/-- The staging area with a new link for a rule, which waits to be compiled. -/
def Staging.withTask (st : Staging) (task : Task) : Staging :=
  { st with
    nextLink := st.nextLink + 1
    cache := (task.id, task.link) :: st.cache
    todo := st.todo ++ [task] }

namespace Source

variable (s : Source)

/-- The links known in a compilation that has come to a staging area. -/
def links (st : Staging) : Links where
  name n := (Entries.lookup n s.nameLinks).or (Entries.lookup n st.nameLinks)
  rule i := (s.cache.lookup i).or (st.cache.lookup i)

/-! ## Rules inside rules -/

/-- An inner rule that is written in place and not empty, and its features. -/
structure Unfolds (v : Value) (features : Entries Value) : Prop where
  flatten : ∃ fs, v = .mapping fs ∧ s.flattenInline fs = .ok features
  nonempty : features ≠ []

/-- What the rules of the batch say about entries and which of them are empty. -/
def outlook : Outlook where
  terms
    | .text name =>
        match s.lookup name with
        | some (.mapping fs) =>
            match s.flatten fs name with
            | .ok flat => Rule.termsOf flat
            | .error _ => {}
        | _ => {}
    | .mapping fs =>
        match s.flattenInline fs with
        | .ok flat => Rule.termsOf flat
        | .error _ => {}
    | _ => {}
  passes
    | .null => true
    | .mapping fs =>
        match s.flattenInline fs with
        | .ok flat => flat.isEmpty
        | .error _ => false
    | _ => false

/-- A named rule that is not a name itself, and what it is flattened to. -/
inductive Flattens (n : String) : Value → Entries Value → Prop where
  | null : Flattens n .null []
  | mapping {fs flat : Entries Value} (h : s.flatten fs n = .ok flat) :
      Flattens n (.mapping fs) flat

/-- Flattened rules of the batch, with the options in force for them. -/
inductive Occurs : Entries Value → Options → Prop where
  | named {n : String} {v : Value} {flat : Entries Value} (hmem : (n, v) ∈ s.batch)
      (hflat : s.Flattens n v flat) : Occurs flat s.options
  | inner {features flat : Entries Value} {options : Options} {r : Rule} {v : Value}
      (houter : Occurs features options) (hread : Rule.read? features = some r)
      (hmem : v ∈ r.subRules) (hflat : s.Unfolds v flat) :
      Occurs flat (options.overriddenBy r.overrides)

/-- A callee that is reached for an inner rule under options. -/
inductive Refers (T : Links) (options : Options) : Value → Callee → Prop where
  | null : Refers T options .null .pass
  | name {name : String} {l : Link} (h : T.name name = some l) :
      Refers T options (.text name) (.link l)
  | empty {fs : Entries Value} (h : s.flattenInline fs = .ok []) :
      Refers T options (.mapping fs) .pass
  | rule {v : Value} {flat : Entries Value} {form : Value} {l : Link} (hflat : s.Unfolds v flat)
      (hform : s.FormIs flat form) (h : T.rule (SchemaId.of s.digest form options) = some l) :
      Refers T options v (.link l)

variable {s}

theorem Refers.mono {T U : Links} (h : T.Within U) {options : Options} {v : Value} {c : Callee}
    (hv : s.Refers T options v c) : s.Refers U options v c := by
  cases hv with
  | null => exact .null
  | name hn => exact .name (h.name hn)
  | empty hflat => exact .empty hflat
  | rule hflat hform hl => exact .rule hflat hform (h.rule hl)

/-- What a name says about an entry is what the rule it stands for says. -/
theorem outlook_terms_of_lookup {n : String} {fs flat : Entries Value}
    (hfs : s.lookup n = some (.mapping fs)) (hflat : s.flatten fs n = .ok flat) :
    s.outlook.terms (.text n) = Rule.termsOf flat := by
  simp only [outlook, hfs, hflat]

theorem outlook_terms_of_not_mapping {n : String}
    (hnone : ∀ fs, s.lookup n ≠ some (.mapping fs)) : s.outlook.terms (.text n) = {} := by
  simp only [outlook]

/-- What passes everything refers to the empty rules. -/
theorem Refers.passes_eq {T : Links} {options : Options} {v : Value} {c : Callee}
    (h : s.Refers T options v c) : s.outlook.passes v = (c == .pass) := by
  cases h with
  | null => rfl
  | name _ => rfl
  | empty hflat =>
    simp only [outlook, hflat]
    rfl
  | rule hflat _ _ =>
    obtain ⟨⟨fs, rfl, hfs⟩, hne⟩ := hflat
    simp only [outlook, hfs]
    cases hflat' : List.isEmpty _ with
    | true => exact absurd (List.isEmpty_iff.1 hflat') hne
    | false => rfl

variable (s)

/-- A program is what a rule comes to under options, with the given links. -/
structure Emits (T : Links) (features : Entries Value) (options : Options) (p : Program) :
    Prop where
  breakLoops : p.breakLoops = options.breakLoops
  steps : ∃ r plan, Rule.read? features = some r ∧
    r.stages s.coercions s.outlook (options.overriddenBy r.overrides) = some plan ∧
    List.Forall₂ (Step.Rel (s.Refers T (options.overriddenBy r.overrides))) plan p.steps

/-- A waiting rule occurs in the batch and is identified by its form. -/
structure Waits (task : Task) : Prop where
  occurs : s.Occurs task.features task.options
  form : s.FormIs task.features task.form
  id : task.id = SchemaId.of s.digest task.form task.options

/-! ## New links -/

/-- One link is handed out. -/
inductive Grow : Staging → Staging → Prop where
  | name {st : Staging} {n : String} (hnew : (s.links st).name n = none) :
      Grow st (st.withName n)
  | rule {st : Staging} {task : Task} (htask : s.Waits task)
      (hlink : task.link.number = st.nextLink) (hnew : (s.links st).rule task.id = none) :
      Grow st (st.withTask task)

/-- Some links are handed out. -/
abbrev Advance : Staging → Staging → Prop := Relation.ReflTransGen s.Grow

variable {s}

theorem Grow.links_within {st st' : Staging} (h : s.Grow st st') :
    (s.links st).Within (s.links st') := by
  cases h with
  | @name n hnew =>
    refine ⟨?_, id⟩
    intro m l hm
    have hne : n ≠ m := by
      rintro rfl
      rw [hnew] at hm
      cases hm
    simp only [links, Staging.withName, Entries.lookup_insert, if_neg hne]
    exact hm
  | @rule task _ _ hnew =>
    refine ⟨id, ?_⟩
    intro i l hi
    have hne : ¬ i = task.id := by
      rintro rfl
      rw [hnew] at hi
      cases hi
    simp only [links, Staging.withTask, List.lookup_cons, beq_eq_false_iff_ne.2 hne]
    exact hi

theorem Advance.links_within {st st' : Staging} (h : s.Advance st st') :
    (s.links st).Within (s.links st') := by
  induction h with
  | refl => exact Links.Within.refl _
  | tail _ hstep ih => exact ih.trans hstep.links_within

end Source
end Rulebook
