import Rulebook.Proofs.Evaluation.Deciding
import Rulebook.Proofs.Registry.Isolation
import Rulebook.Proofs.Registry.Registration
import Rulebook.Proofs.Rule.Grammar

/-!
# The schema of schemas decides the grammar

A batch passes the schema of schemas if and only if all its values are well-formed rules.
The programs that the schemas are compiled to are looked at once, by evaluation: what is
called for the argument of each feature, and that it is laid out for the shape of the
argument.  From this it follows by induction on the value, along the calls from rules to
the rules inside them, that the programs decide the grammar.

Each rule inside another takes two levels of calls, one for the choice among null, names
and mappings and one for the mapping, so that twice the height of a batch is deep enough.
-/

namespace Rulebook
namespace SchemaOfSchemas

open Run Rule

/-! ## What is called for arguments -/

/-- The keys of the texts that a program allows, if it does nothing else. -/
def tagKeys? (p : Program) : Option (List ScalarKey) :=
  match p.steps with
  | [.check (.kind .str), .check (.allowed e)] => some e.keys
  | _ => none

/-- The least integer that a program lets through, if it does nothing else. -/
def least? (p : Program) : Option Value :=
  match p.steps with
  | [.check (.kind .int), .check (.min bound)] => some bound
  | _ => none

/-- The bounds of the length of a list, if a program checks nothing else. -/
def listBounds? (p : Program) : Option (Nat × Nat) :=
  match p.steps with
  | [.check (.kind .list), .check (.minLen least), .check (.maxLen most)] => some (least, most)
  | _ => none

/-- Programs other than that of a link are bound to all of some links. -/
def areOthers (r : Registry) (l : Link) (ts : List Link) : Bool :=
  ts.all fun t => (r.bindings.lookup t.number).map Program.number !=
    (r.bindings.lookup l.number).map Program.number

/-- Whether what is called for an argument is laid out for the shape of the argument. -/
def isLaidFor (r : Registry) : Shape → Callee → Bool
  | .anything, c => c == .pass
  | .tag, .link l => (r.bindings.lookup l.number).bind tagKeys? ==
      some (Kind.all.map fun k => .text k.tag)
  | .text, .link l => (r.bindings.lookup l.number).bind kind? == some .str
  | .switch, .link l => (r.bindings.lookup l.number).bind kind? == some .bool
  | .texts, .link l =>
      match (r.bindings.lookup l.number).bind listValues? with
      | some (.link t) => (r.bindings.lookup t.number).bind kind? == some .str
      | _ => false
  | .list, .link l => (r.bindings.lookup l.number).bind kind? == some .list
  | .table, .link l =>
      match (r.bindings.lookup l.number).bind choice? with
      | some [.link t, .link u] => areOthers r l [t, u] &&
          (r.bindings.lookup t.number).bind kind? == some .dict &&
          match (r.bindings.lookup u.number).bind listValues? with
          | some (.link w) => (r.bindings.lookup w.number).bind listBounds? == some (2, 2)
          | _ => false
      | _ => false
  | .count, .link l => (r.bindings.lookup l.number).bind least? == some (Value.ofNat 0)
  | .rules, .link l =>
      (r.bindings.lookup l.number).bind mappingValues? == some (.link (linkOf r "rule_ref"))
  | .rule, c => c == .link (linkOf r "rule_ref")
  | .branches, .link l =>
      (r.bindings.lookup l.number).bind listValues? == some (.link (linkOf r "rule_ref"))
  | _, .pass => false

/-- Whether an entry of the schema for rules stands for a feature and is laid out for the
shape of its argument. -/
def isArgument (r : Registry) (e : Entry Callee) : Bool :=
  e.synonyms.isEmpty && e.default.isNone && !e.required &&
    match shapes.lookup e.key with
    | some shape => isLaidFor r shape e.callee
    | none => false

/-- Whether the schema for rules has an entry for each feature, and no others. -/
def isRuleSchema (r : Registry) : Bool :=
  match (programOf? r "rule").bind closedEntries? with
  | some entries => entries.all (isArgument r) &&
      shapes.all fun f => entries.any fun e => e.key == f.1
  | none => false

set_option maxRecDepth 100000 in
theorem registry_isRuleSchema : registry.toOption.map isRuleSchema = some true := by
  decide +kernel

variable {r : Registry} {frames : List Frame} {depth : Nat} {l : Link} {v : Value}

/-! ## Calls that are not under way -/

/-- A call has come by no smaller value, and not by its own program with this value. -/
structure Clear (r : Registry) (frames : List Frame) (l : Link) (v : Value) : Prop where
  within : ∀ f ∈ frames, v.nodes ≤ f.value.nodes
  free : ∀ p, r.bindings.lookup l.number = some p →
    inFlight frames (Frame.enter p.number v) = false

theorem Fresh.clear (h : Fresh frames v) (l : Link) : Clear r frames l v :=
  ⟨fun f hf => Nat.le_of_lt (h f hf), fun p _ => h.inFlight_eq p.number⟩

/-- Members are checked below larger values only. -/
theorem Clear.member (h : Clear r frames l v) (k : Nat) {w : Value} (hw : w.nodes < v.nodes) :
    Fresh (Frame.enter k v :: frames) w := by
  intro f hf
  rcases List.mem_cons.1 hf with rfl | hf
  · exact hw
  · exact Nat.lt_of_lt_of_le hw (h.within f hf)

/-- Branches of a choice are checked by other programs. -/
theorem Fresh.branch (h : Fresh frames v) {p : Program} {t : Link}
    (hp : r.bindings.lookup l.number = some p)
    (hother : (r.bindings.lookup t.number).map Program.number ≠
      (r.bindings.lookup l.number).map Program.number) :
    Clear r (Frame.enter p.number v :: frames) t v := by
  refine ⟨fun f hf => ?_, fun q hq => h.inFlight_cons fun heq => ?_⟩
  · rcases List.mem_cons.1 hf with rfl | hf
    · exact Nat.le_refl _
    · exact Nat.le_of_lt (h f hf)
  · rw [hq, hp] at hother
    exact hother (congrArg some heq)

/-! ## What programs of known shape decide -/

theorem accepts_dict_iff : Kind.dict.accepts v = true ↔ ∃ es, v = .mapping es := by
  cases v <;> simp [Kind.accepts]

theorem accepts_list_iff : Kind.list.accepts v = true ↔ ∃ xs, v = .list xs := by
  cases v <;> simp [Kind.accepts]

theorem accepts_str_iff : Kind.str.accepts v = true ↔ ∃ t, v = .text t := by
  cases v <;> simp [Kind.accepts]

theorem accepts_bool_iff : Kind.bool.accepts v = true ↔ ∃ b, v = .bool b := by
  cases v <;> simp [Kind.accepts]

theorem accepts_null_iff : Kind.null.accepts v = true ↔ v = .null := by
  cases v <;> simp [Kind.accepts]

theorem accepts_int_iff : Kind.int.accepts v = true ↔ ∃ i, v = .number (.integer i) := by
  cases v with
  | number n => cases n <;> simp [Kind.accepts, Number.isFloat]
  | _ => simp [Kind.accepts]

theorem decides_of_kind {k : Kind} (hl : (r.bindings.lookup l.number).bind kind? = some k)
    (hclear : Clear r frames l v) :
    (follow r.bindings none (depth + 1) frames l v).Decides (k.accepts v = true) := by
  obtain ⟨p, hp, hkind⟩ := Option.bind_eq_some_iff.1 hl
  refine decides_follow hp (hclear.free p hp) ?_
  rw [steps_of_kind? hkind]
  exact (decides_check rfl fun _ => decides_steps_nil).congr (and_iff_left trivial)

theorem steps_of_tagKeys? {p : Program} {keys : List ScalarKey} (h : tagKeys? p = some keys) :
    ∃ e : Enumeration, e.keys = keys ∧ p.steps = [.check (.kind .str), .check (.allowed e)] := by
  rw [tagKeys?] at h
  split at h
  · rename_i e hsteps
    exact ⟨e, Option.some.inj h, hsteps⟩
  · cases h

theorem decides_of_tagKeys
    (hl : (r.bindings.lookup l.number).bind tagKeys? = some (Kind.all.map fun k => .text k.tag))
    (hclear : Clear r frames l v) :
    (follow r.bindings none (depth + 1) frames l v).Decides (Fits .tag v) := by
  obtain ⟨p, hp, hkeys⟩ := Option.bind_eq_some_iff.1 hl
  obtain ⟨e, hkeys, hsteps⟩ := steps_of_tagKeys? hkeys
  refine decides_follow hp (hclear.free p hp) ?_
  rw [hsteps]
  refine (decides_check rfl fun _ => decides_check rfl fun _ => decides_steps_nil).congr ?_
  rw [and_iff_left trivial, accepts_str_iff, fits_iff]
  have hcontains : ∀ t, e.contains (.text t) = true ↔ ∃ k : Kind, t = k.tag := by
    intro t
    rw [Enumeration.contains, ScalarKey.of?]
    dsimp only
    rw [hkeys, List.contains_iff_mem]
    simp only [List.mem_map, ScalarKey.text.injEq]
    exact ⟨fun ⟨k, _, hk⟩ => ⟨k, hk.symm⟩, fun ⟨k, hk⟩ => ⟨k, by cases k <;> decide, hk.symm⟩⟩
  constructor
  · rintro ⟨⟨t, rfl⟩, ht⟩
    obtain ⟨k, rfl⟩ := (hcontains t).1 ht
    exact ⟨k, rfl⟩
  · rintro ⟨k, rfl⟩
    exact ⟨⟨_, rfl⟩, (hcontains _).2 ⟨k, rfl⟩⟩

theorem steps_of_least? {p : Program} {bound : Value} (h : least? p = some bound) :
    p.steps = [.check (.kind .int), .check (.min bound)] := by
  rw [least?] at h
  split at h
  · rename_i b hsteps
    rw [← Option.some.inj h]
    exact hsteps
  · cases h

/-- Integers are compared with zero exactly. -/
theorem order_zero (i : WordInt) :
    (Value.number (.integer i)).order (Value.ofNat 0) = some (compare i.val 0) := by
  have hzero : (WordInt.clamp 0).val = 0 := by decide
  have hword : (i.isSigned && (WordInt.clamp 0).isSigned ||
      i.isUnsigned && (WordInt.clamp 0).isUnsigned) = true := by
    rw [WordInt.isSigned, WordInt.isUnsigned, WordInt.isSigned, WordInt.isUnsigned, hzero]
    simp only [Bool.or_eq_true, Bool.and_eq_true, decide_eq_true_eq]
    omega
  change Number.order (.integer i) (.integer (WordInt.clamp 0)) = _
  rw [Number.order, if_pos hword, hzero]

/-- An integer is let through above zero if it is not negative. -/
theorem demands_zero_iff (i : WordInt) :
    ((Value.number (.integer i)).order (Value.ofNat 0) == some .gt ||
      (Value.number (.integer i)).order (Value.ofNat 0) == some .eq) = true ↔ 0 ≤ i.val := by
  rw [order_zero, Bool.or_eq_true, beq_iff_eq, beq_iff_eq, Option.some.injEq, Option.some.injEq,
    compare_gt_iff_gt, compare_eq_iff_eq]
  omega

theorem decides_of_least
    (hl : (r.bindings.lookup l.number).bind least? = some (Value.ofNat 0))
    (hclear : Clear r frames l v) :
    (follow r.bindings none (depth + 1) frames l v).Decides (Fits .count v) := by
  obtain ⟨p, hp, hleast⟩ := Option.bind_eq_some_iff.1 hl
  refine decides_follow hp (hclear.free p hp) ?_
  rw [steps_of_least? hleast]
  refine (decides_check rfl fun _ => decides_check rfl fun _ => decides_steps_nil).congr ?_
  rw [and_iff_left trivial, accepts_int_iff, fits_iff]
  constructor
  · rintro ⟨⟨i, rfl⟩, hi⟩
    exact ⟨i, rfl, (demands_zero_iff i).1 hi⟩
  · rintro ⟨i, rfl, hi⟩
    exact ⟨⟨i, rfl⟩, (demands_zero_iff i).2 hi⟩

theorem steps_of_listBounds? {p : Program} {least most : Nat}
    (h : listBounds? p = some (least, most)) :
    p.steps = [.check (.kind .list), .check (.minLen least), .check (.maxLen most)] := by
  rw [listBounds?] at h
  split at h
  · rename_i m n hsteps
    cases h
    exact hsteps
  · cases h

theorem decides_of_listBounds
    (hl : (r.bindings.lookup l.number).bind listBounds? = some (2, 2))
    (hclear : Clear r frames l v) :
    (follow r.bindings none (depth + 1) frames l v).Decides
      (∃ source target, v = .list [source, target]) := by
  obtain ⟨p, hp, hbounds⟩ := Option.bind_eq_some_iff.1 hl
  refine decides_follow hp (hclear.free p hp) ?_
  rw [steps_of_listBounds? hbounds]
  refine (decides_check rfl fun _ => decides_check rfl fun _ => decides_check rfl fun _ =>
    decides_steps_nil).congr ?_
  rw [and_iff_left trivial, accepts_list_iff]
  constructor
  · rintro ⟨⟨xs, rfl⟩, hleast, hmost⟩
    have hlength : xs.length = 2 :=
      Nat.le_antisymm (of_decide_eq_true hmost) (of_decide_eq_true hleast)
    obtain ⟨source, target, rfl⟩ := List.length_eq_two.1 hlength
    exact ⟨source, target, rfl⟩
  · rintro ⟨source, target, rfl⟩
    exact ⟨⟨_, rfl⟩, rfl, rfl⟩

/-- A program for lists decides what is called for the elements. -/
theorem decides_of_listValues {t : Link} {holds : Value → Prop}
    (hl : (r.bindings.lookup l.number).bind listValues? = some (.link t))
    (hclear : Clear r frames l v)
    (h : ∀ xs, v = .list xs → ∀ x ∈ xs, ∀ frames', Fresh frames' x →
      (follow r.bindings none depth frames' t x).Decides (holds x)) :
    (follow r.bindings none (depth + 1) frames l v).Decides
      (∃ xs, v = .list xs ∧ ∀ x ∈ xs, holds x) := by
  obtain ⟨p, hp, hvalues⟩ := Option.bind_eq_some_iff.1 hl
  refine decides_follow hp (hclear.free p hp) ?_
  rw [steps_of_listValues? hvalues]
  cases v with
  | list xs =>
    refine (decides_check (p := ∀ x ∈ xs, holds x) rfl fun _ => ?_).congr ?_
    · rw [runSteps_members]
      exact SequenceItems.decides rfl fun x hx =>
        h xs rfl x hx _ (hclear.member _ (Value.nodes_lt_list hx))
    · simp [Kind.accepts]
  | _ =>
    refine (decides_check (p := False) rfl fun hkind => ?_).congr ?_
    · cases hkind
    · simp

/-- A program for mappings decides what is called for the values. -/
theorem decides_of_mappingValues {t : Link} {holds : Value → Prop}
    (hl : (r.bindings.lookup l.number).bind mappingValues? = some (.link t))
    (hclear : Clear r frames l v)
    (h : ∀ es, v = .mapping es → ∀ e ∈ es, ∀ frames', Fresh frames' e.2 →
      (follow r.bindings none depth frames' t e.2).Decides (holds e.2)) :
    (follow r.bindings none (depth + 1) frames l v).Decides
      (∃ es, v = .mapping es ∧ ∀ e ∈ es, holds e.2) := by
  obtain ⟨p, hp, hvalues⟩ := Option.bind_eq_some_iff.1 hl
  obtain ⟨policy, hsteps⟩ := steps_of_mappingValues? hvalues
  refine decides_follow hp (hclear.free p hp) ?_
  rw [hsteps]
  cases v with
  | mapping es =>
    refine (decides_check (p := ∀ e ∈ es, holds e.2) rfl fun _ => ?_).congr ?_
    · rw [runSteps_members]
      exact MappingItems.decides_open (c := Callee.link t) rfl rfl rfl fun e he =>
        h es rfl e he _ (hclear.member _ (Value.nodes_lt_mapping he))
    · simp [Kind.accepts]
  | _ =>
    refine (decides_check (p := False) rfl fun hkind => ?_).congr ?_
    · cases hkind
    · simp

/-- A program that is nothing but a choice decides what the choice does. -/
theorem decides_of_choice {branches : List Callee} {q : Prop}
    (hl : (r.bindings.lookup l.number).bind choice? = some branches) (hfresh : Fresh frames v)
    (h : ∀ p, r.bindings.lookup l.number = some p →
      (firstOf (Callee.call (follow r.bindings none depth (Frame.enter p.number v :: frames))) v
        branches []).Decides q) :
    (follow r.bindings none (depth + 1) frames l v).Decides q := by
  obtain ⟨p, hp, hbranches⟩ := Option.bind_eq_some_iff.1 hl
  refine decides_follow hp (hfresh.inFlight_eq _) ?_
  rw [steps_of_choice? hbranches, runSteps_anyOf]
  exact h p hp

/-! ## Arguments -/

/-- The schema for rules inside others decides whether a value is a rule, below larger
values and where it is followed deep enough. -/
def DecidesRule (r : Registry) (v : Value) : Prop :=
  ∀ frames depth, Fresh frames v → 2 * v.height ≤ depth →
    (follow r.bindings none depth frames (linkOf r "rule_ref") v).Decides (WellFormed v)

theorem decides_table (hlaid : isLaidFor r .table (.link l) = true) (hfresh : Fresh frames v)
    (hdepth : 2 * v.height ≤ depth) :
    (follow r.bindings none depth frames l v).Decides (Fits .table v) := by
  have hpos := v.height_pos
  obtain ⟨n, rfl⟩ : ∃ n, depth = n + 1 + 1 := ⟨depth - 2, by omega⟩
  rw [isLaidFor] at hlaid
  split at hlaid
  · rename_i t u hchoice
    rw [Bool.and_eq_true, Bool.and_eq_true, beq_iff_eq] at hlaid
    obtain ⟨⟨hothers, hdict⟩, hlist⟩ := hlaid
    simp only [areOthers, List.all_eq_true, bne_iff_ne] at hothers
    split at hlist
    · rename_i w hw
      have hentries : ∀ p, r.bindings.lookup l.number = some p →
          (follow r.bindings none (n + 1) (Frame.enter p.number v :: frames) t v).Decides
            (∃ es, v = .mapping es) := fun p hp =>
        (decides_of_kind hdict (hfresh.branch hp (hothers _ (by simp)))).congr accepts_dict_iff
      have hpairs : ∀ p, r.bindings.lookup l.number = some p →
          (follow r.bindings none (n + 1) (Frame.enter p.number v :: frames) u v).Decides
            (∃ xs, v = .list xs ∧ ∀ x ∈ xs, ∃ source target, x = .list [source, target]) := by
        intro p hp
        refine decides_of_listValues hw (hfresh.branch hp (hothers _ (by simp))) ?_
        rintro xs rfl x hx frames' hfresh'
        have hlt := Value.height_lt_list hx
        have hpos' := x.height_pos
        obtain ⟨m, rfl⟩ : ∃ m, n = m + 1 := ⟨n - 1, by omega⟩
        exact decides_of_listBounds (eq_of_beq hlist) (hfresh'.clear w)
      refine Run.Decides.congr (decides_of_choice hchoice hfresh fun p hp =>
        decides_firstOf_cons (hentries p hp) fun _ =>
          decides_firstOf_cons (hpairs p hp) fun _ => decides_firstOf_nil) ?_
      rw [fits_iff, or_false]
    · cases hlist
  · cases hlaid

/-- What is laid out for a shape decides it. -/
theorem decides_argument {shape : Shape} {c : Callee} (hlaid : isLaidFor r shape c = true)
    (hself : DecidesRule r v) (hmember : ∀ es, v = .mapping es → ∀ e ∈ es, DecidesRule r e.2)
    (helement : ∀ xs, v = .list xs → ∀ x ∈ xs, DecidesRule r x) (hfresh : Fresh frames v)
    (hdepth : 2 * v.height ≤ depth) :
    (c.call (follow r.bindings none depth frames) v).Decides (Fits shape v) := by
  have hpos := v.height_pos
  obtain ⟨n, rfl⟩ : ∃ n, depth = n + 1 := ⟨depth - 1, by omega⟩
  have hmembers : ∀ es, v = .mapping es → ∀ e ∈ es, ∀ frames', Fresh frames' e.2 →
      (follow r.bindings none n frames' (linkOf r "rule_ref") e.2).Decides (WellFormed e.2) := by
    rintro es rfl e he frames' hfresh'
    have hlt := Value.height_lt_mapping he
    exact hmember es rfl e he frames' n hfresh' (by omega)
  have helements : ∀ xs, v = .list xs → ∀ x ∈ xs, ∀ frames', Fresh frames' x →
      (follow r.bindings none n frames' (linkOf r "rule_ref") x).Decides (WellFormed x) := by
    rintro xs rfl x hx frames' hfresh'
    have hlt := Value.height_lt_list hx
    exact helement xs rfl x hx frames' n hfresh' (by omega)
  cases c with
  | pass =>
    cases shape with
    | anything => exact (Run.Decides.pure v).congr (iff_of_true trivial (.anything v))
    | rule => cases eq_of_beq hlaid
    | _ => cases hlaid
  | link l =>
    have hclear : Clear r frames l v := hfresh.clear l
    refine Run.Decides.congr ?_ fits_iff.symm
    cases shape with
    | anything => cases eq_of_beq hlaid
    | tag => exact (decides_of_tagKeys (eq_of_beq hlaid) hclear).congr fits_iff
    | text => exact (decides_of_kind (eq_of_beq hlaid) hclear).congr accepts_str_iff
    | switch => exact (decides_of_kind (eq_of_beq hlaid) hclear).congr accepts_bool_iff
    | texts =>
      rw [isLaidFor] at hlaid
      split at hlaid
      · rename_i t ht
        refine decides_of_listValues ht hclear fun xs heq x hx frames' hfresh' => ?_
        subst heq
        have hlt := Value.height_lt_list hx
        have hpos' := x.height_pos
        obtain ⟨m, rfl⟩ : ∃ m, n = m + 1 := ⟨n - 1, by omega⟩
        exact (decides_of_kind (eq_of_beq hlaid) (hfresh'.clear t)).congr accepts_str_iff
      · cases hlaid
    | list => exact (decides_of_kind (eq_of_beq hlaid) hclear).congr accepts_list_iff
    | table => exact (decides_table hlaid hfresh hdepth).congr fits_iff
    | count => exact (decides_of_least (eq_of_beq hlaid) hclear).congr fits_iff
    | rules => exact decides_of_mappingValues (eq_of_beq hlaid) hclear hmembers
    | rule =>
      cases eq_of_beq hlaid
      exact hself frames (n + 1) hfresh hdepth
    | branches => exact decides_of_listValues (eq_of_beq hlaid) hclear helements

/-! ## Rules -/

/-- What an entry of the schema for rules that is laid out for its feature is like. -/
theorem isArgument_iff {e : Entry Callee} : isArgument r e = true ↔ e.Optional ∧
    ∃ shape, shapes.lookup e.key = some shape ∧ isLaidFor r shape e.callee = true := by
  have hshape : (match shapes.lookup e.key with
      | some shape => isLaidFor r shape e.callee
      | none => false) = true ↔
      ∃ shape, shapes.lookup e.key = some shape ∧ isLaidFor r shape e.callee = true := by
    cases shapes.lookup e.key <;> simp
  rw [isArgument, Bool.and_eq_true, Bool.and_eq_true, Bool.and_eq_true, hshape, List.isEmpty_iff,
    Option.isNone_iff_eq_none, Bool.not_eq_true']
  constructor
  · rintro ⟨⟨⟨hsynonyms, hdefault⟩, hrequired⟩, hshape⟩
    exact ⟨⟨hsynonyms, hdefault, hrequired⟩, hshape⟩
  · rintro ⟨⟨hsynonyms, hdefault, hrequired⟩, hshape⟩
    exact ⟨⟨⟨hsynonyms, hdefault⟩, hrequired⟩, hshape⟩

/-- The entries of the schema for rules. -/
theorem entries_of_isRuleSchema (h : isRuleSchema r = true) : ∃ entries,
    (programOf? r "rule").bind closedEntries? = some entries ∧
      (∀ e ∈ entries, isArgument r e = true) ∧ ∀ f ∈ shapes, ∃ e ∈ entries, e.key = f.1 := by
  rw [isRuleSchema] at h
  split at h
  · rename_i entries hentries
    simp only [Bool.and_eq_true, List.all_eq_true, List.any_eq_true, beq_iff_eq] at h
    exact ⟨entries, hentries, h.1, h.2⟩
  · cases h

/-- Entries for all features declare the features. -/
theorem declares_iff {m : MappingItems Callee} (harguments : ∀ e ∈ m.entries, isArgument r e = true)
    (hall : ∀ f ∈ shapes, ∃ e ∈ m.entries, e.key = f.1) {key : String} :
    m.declares key = true ↔ (shapes.lookup key).isSome := by
  rw [MappingItems.declares, List.any_eq_true]
  constructor
  · rintro ⟨e, he, hkey⟩
    obtain ⟨hoptional, shape, hshape, -⟩ := isArgument_iff.1 (harguments e he)
    rw [hoptional.synonyms, List.contains_nil, Bool.or_false, beq_iff_eq] at hkey
    rw [← hkey, hshape]
    rfl
  · intro hkey
    obtain ⟨shape, hshape⟩ := Option.isSome_iff_exists.1 hkey
    obtain ⟨e, he, heq⟩ := hall _ (Linkage.mem_of_lookup hshape)
    exact ⟨e, he, by rw [heq, beq_self_eq_true, Bool.true_or]⟩

/-- To check the entries and to ask for no other keys is to check all arguments. -/
theorem featuresFit_iff {m : MappingItems Callee} {fs : Entries Value}
    (harguments : ∀ e ∈ m.entries, isArgument r e = true)
    (hall : ∀ f ∈ shapes, ∃ e ∈ m.entries, e.key = f.1) :
    FeaturesFit fs ↔
      (∀ e ∈ m.entries, ∀ w, Entries.lookup e.key fs = some w → ∀ shape,
        shapes.lookup e.key = some shape → Fits shape w) ∧
      ∀ e ∈ fs, m.declares e.1 = true := by
  simp only [declares_iff harguments hall]
  constructor
  · intro hfit
    exact ⟨fun e _ w hw shape hshape => hfit.arguments e.key w shape hw hshape, hfit.keys⟩
  · rintro ⟨hfits, hkeys⟩
    refine ⟨hkeys, fun key w shape hw hshape => ?_⟩
    obtain ⟨e, he, heq⟩ := hall _ (Linkage.mem_of_lookup hshape)
    have hkey : e.key = key := heq
    rw [← hkey] at hw hshape
    exact hfits e he w hw shape hshape

/-- The schema for rules decides whether a mapping is a rule. -/
theorem decides_mapping (hschema : isRuleSchema r = true)
    (hclear : Clear r frames (linkOf r "rule") v)
    (hrules : ∀ w : Value, w.nodes < v.nodes → DecidesRule r w)
    (hdepth : 2 * v.height ≤ depth + 2) :
    (follow r.bindings none (depth + 1) frames (linkOf r "rule") v).Decides
      (∃ fs, v = .mapping fs ∧ FeaturesFit fs) := by
  obtain ⟨entries, hentries, harguments, hall⟩ := entries_of_isRuleSchema hschema
  obtain ⟨p, hp, hclosed⟩ := Option.bind_eq_some_iff.1 hentries
  refine decides_follow hp (hclear.free p hp) ?_
  rw [steps_of_closedEntries? hclosed]
  cases v with
  | mapping fs =>
    refine (decides_check (p := FeaturesFit fs) rfl fun _ => ?_).congr (by simp [Kind.accepts])
    rw [runSteps_members]
    refine Run.Decides.congr (MappingItems.decides_closed
      (fun key w => ∀ shape, shapes.lookup key = some shape → Fits shape w)
      (fun e he => (isArgument_iff.1 (harguments e he)).1) rfl rfl rfl fun e he w hw => ?_)
      (featuresFit_iff harguments hall).symm
    obtain ⟨-, shape, hshape, hlaid⟩ := isArgument_iff.1 (harguments e he)
    have hmem := Entries.mem_of_lookup hw
    have hheight : w.height < (Value.mapping fs).height := Value.height_lt_mapping hmem
    have hnodes : w.nodes < (Value.mapping fs).nodes := Value.nodes_lt_mapping hmem
    refine (decides_argument hlaid (hrules w hnodes) ?_ ?_ (hclear.member _ hnodes)
      (by omega)).congr ?_
    · rintro es rfl e he
      exact hrules e.2 ((Value.nodes_lt_mapping he).trans hnodes)
    · rintro xs rfl x hx
      exact hrules x ((Value.nodes_lt_list hx).trans hnodes)
    · simp [hshape]
  | _ =>
    refine (decides_check (p := False) rfl fun hkind => ?_).congr ?_
    · cases hkind
    · simp

theorem decides_rule (v : Value) (hlaid : Laid r) (hschema : isRuleSchema r = true) :
    DecidesRule r v := by
  induction h : v.nodes using Nat.strong_induction_on generalizing v with
  | _ n ih =>
    subst h
    intro frames depth hfresh hdepth
    have hpos := v.height_pos
    obtain ⟨m, rfl⟩ : ∃ m, depth = m + 1 + 1 := ⟨depth - 2, by omega⟩
    obtain ⟨l, hchoice, hnull, hothers⟩ := hlaid.ruleRef
    have hnone : ∀ p, programOf? r "rule_ref" = some p →
        (follow r.bindings none (m + 1) (Frame.enter p.number v :: frames) l v).Decides
          (v = .null) := fun p hp =>
      (decides_of_kind hnull (hfresh.branch hp (hothers _ (by simp)))).congr accepts_null_iff
    have hname : ∀ p, programOf? r "rule_ref" = some p →
        (follow r.bindings none (m + 1) (Frame.enter p.number v :: frames) (linkOf r "str") v).Decides
          (∃ n, v = .text n) := fun p hp =>
      (decides_of_kind hlaid.str (hfresh.branch hp (hothers _ (by simp)))).congr accepts_str_iff
    have hmapping : ∀ p, programOf? r "rule_ref" = some p →
        (follow r.bindings none (m + 1) (Frame.enter p.number v :: frames) (linkOf r "rule") v).Decides
          (∃ fs, v = .mapping fs ∧ FeaturesFit fs) := fun p hp =>
      decides_mapping hschema (hfresh.branch hp (hothers _ (by simp)))
        (fun w hw => ih w.nodes hw w rfl) hdepth
    refine Run.Decides.congr (decides_of_choice hchoice hfresh fun p hp =>
      decides_firstOf_cons (hnone p hp) fun _ => decides_firstOf_cons (hname p hp) fun _ =>
        decides_firstOf_cons (hmapping p hp) fun _ => decides_firstOf_nil) ?_
    rw [wellFormed_iff, or_false]

/-! ## Batches -/

/-- How deep programs are followed at most to check a batch. -/
def checkDepth (batch : Entries Value) : Nat := 2 * (Value.mapping batch).height

/-- The schema of batches decides whether all values are rules. -/
theorem decides_batch (hlaid : Laid r) (hschema : isRuleSchema r = true) (batch : Entries Value)
    (hdepth : checkDepth batch ≤ depth) :
    (follow r.bindings none depth [] (linkOf r batchRoot) (.mapping batch)).Decides
      (∀ e ∈ batch, WellFormed e.2) := by
  have hfresh : Fresh [] (Value.mapping batch) := by simp [Fresh]
  have hpos := (Value.mapping batch).height_pos
  obtain ⟨n, rfl⟩ : ∃ n, depth = n + 1 := ⟨depth - 1, by rw [checkDepth] at hdepth; omega⟩
  have hvalues : (follow r.bindings none (n + 1) [] (linkOf r batchRoot) (.mapping batch)).Decides
      (∃ es, Value.mapping batch = .mapping es ∧ ∀ e ∈ es, WellFormed e.2) := by
    refine decides_of_mappingValues hlaid.root (hfresh.clear _) fun es heq e he frames' hfresh' => ?_
    cases heq
    have hlt := Value.height_lt_mapping he
    rw [checkDepth] at hdepth
    exact decides_rule e.2 hlaid hschema frames' n hfresh' (by omega)
  exact hvalues.congr (by simp)

/-- The check is made by the schema of batches. -/
theorem exists_check_eq : ∃ r, Laid r ∧ isRuleSchema r = true ∧ ∀ depth batch,
    check depth batch = judge (evaluate depth r.bindings none (linkOf r batchRoot)
      (.mapping batch)) := by
  have hschema := registry_isRuleSchema
  have hroot := registry_passive
  cases hr : registry with
  | error e =>
    rw [hr] at hschema
    cases hschema
  | ok r =>
    rw [hr] at hschema hroot
    obtain ⟨hsome, -⟩ := Bool.and_eq_true_iff.1 (Option.some.inj hroot)
    obtain ⟨handle, hhandle⟩ := Option.isSome_iff_exists.1 hsome
    refine ⟨r, registry_laid hr, Option.some.inj hschema, fun depth batch => ?_⟩
    have hlink : linkOf r batchRoot = handle.link := by
      obtain ⟨-, hl, -⟩ := Registry.get?_eq_some_iff.1 hhandle
      rw [linkOf, hl, Option.getD_some]
    rw [check_eq hr hhandle, hlink]

/-- The schema of schemas accepts exactly the batches of well-formed rules.  The check of a
batch has one outcome, from a depth on that depends on the height of the batch; at any depth
it comes to this outcome or is cut off.  It is a success if and only if all values of the
batch are well formed, and otherwise says that the batch does not follow the schema. -/
theorem check_decides (batch : Entries Value) : ∃ outcome : Except SchemaError Unit,
    (outcome = .ok () ↔ ∀ e ∈ batch, WellFormed e.2) ∧
    (outcome = .ok () ∨ ∃ e, outcome = .error (.invalidSchema e)) ∧
    (∀ depth, checkDepth batch ≤ depth → check depth batch = outcome) ∧
    (∀ depth, check depth batch = outcome ∨
      check depth batch = .error (.endless batchRoot)) := by
  obtain ⟨r, hlaid, hschema, hcheck⟩ := exists_check_eq
  have hdecides := decides_batch hlaid hschema batch (Nat.le_refl (checkDepth batch))
  obtain ⟨o, ho⟩ := Option.isSome_iff_exists.1 hdecides.ends
  have hends : ∀ depth, checkDepth batch ≤ depth → check depth batch = judge (some o) := by
    intro depth hle
    rw [hcheck, evaluate_of_le hle ho]
  refine ⟨judge (some o), ?_, ?_, hends, fun depth => ?_⟩
  · rw [← hdecides.passes_iff]
    cases o with
    | ok w => exact iff_of_true rfl ⟨w, ho⟩
    | error e =>
      refine iff_of_false (fun h => by cases h) ?_
      rintro ⟨w, hw⟩
      cases ho.symm.trans hw
  · cases o with
    | ok w => exact Or.inl rfl
    | error e => exact Or.inr ⟨e, rfl⟩
  · rcases Nat.le_total (checkDepth batch) depth with hle | hle
    · exact Or.inl (hends depth hle)
    · rw [hcheck]
      cases hrun : evaluate depth r.bindings none (linkOf r batchRoot) (.mapping batch) with
      | none => exact Or.inr rfl
      | some o' =>
        have heq := evaluate_of_le hle hrun
        rw [evaluate, ho] at heq
        exact Or.inl (by rw [heq])

end SchemaOfSchemas
end Rulebook
