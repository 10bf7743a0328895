import Rulebook.Proofs.Compilation.Resolution
import Rulebook.Proofs.Evaluation.Locating
import Rulebook.Proofs.Value.Equivalence
import Rulebook.Registry

/-!
# Tables of substitutes

A table of substitutes is written as a list of pairs or as a mapping, and compiled to one that is
looked up by key.  What the compiled table puts in the place of a value can be read off the pairs
as they are written: the target of the last pair with an equivalent source, else of the last pair
whose source is null.  Containers stay as they are.
-/

namespace Rulebook

/-! ## The last element with a property -/

/-- The element has the property, and none that comes after it has. -/
def IsLast {α : Type} (p : α → Prop) (xs : List α) (x : α) : Prop :=
  p x ∧ ∃ before after, xs = before ++ x :: after ∧ ∀ y ∈ after, ¬ p y

theorem find?_reverse_eq_some_iff {α : Type} {p : α → Prop} [DecidablePred p] {xs : List α}
    {x : α} : xs.reverse.find? (fun y => p y) = some x ↔ IsLast p xs x := by
  rw [List.find?_eq_some_iff_append, decide_eq_true_iff]
  refine and_congr_right fun _ => ?_
  constructor
  · rintro ⟨after, before, hxs, hafter⟩
    refine ⟨before.reverse, after.reverse, ?_, fun y hy => ?_⟩
    · rw [← List.reverse_reverse xs, hxs, List.reverse_append, List.reverse_cons, List.append_assoc]
      rfl
    · simpa using hafter y (List.mem_reverse.1 hy)
  · rintro ⟨before, after, rfl, hafter⟩
    refine ⟨after.reverse, before.reverse, by simp, fun y hy => ?_⟩
    simpa using hafter y (List.mem_reverse.1 hy)

theorem find?_reverse_eq_none_iff {α : Type} {p : α → Prop} [DecidablePred p] {xs : List α} :
    xs.reverse.find? (fun y => p y) = none ↔ ∀ x ∈ xs, ¬ p x := by
  simp

namespace Value

variable {v w : Value}

theorem isScalar_iff : v.isScalar = true ↔ ∃ key, ScalarKey.of? v = some key := by
  cases v <;> simp [isScalar, ScalarKey.of?]

theorem isNull_iff : v.isNull = true ↔ v = null := by
  cases v <;> simp [isNull]

end Value

namespace Remap

variable {pairs : List (Value × Value)} {v w : Value}

/-! ## Tables as they are written -/

/-- The pairs of a source and a target that a table is written with.  In a list of pairs, sources
are scalars; the sources of a mapping are its keys, as text. -/
inductive Written : Value → List (Value × Value) → Prop where
  | list {pairs : List (Value × Value)} (hscalar : ∀ pair ∈ pairs, pair.1.isScalar = true) :
      Written (.list (pairs.map fun pair => .list [pair.1, pair.2])) pairs
  | mapping (es : Entries Value) : Written (.mapping es) (es.map fun e => (.text e.1, e.2))

/-- The pair is one for the value: its source is a scalar other than null, and equivalent. -/
def Lists (v : Value) (pair : Value × Value) : Prop :=
  pair.1 ≠ .null ∧ pair.1.isScalar = true ∧ pair.1.equivalent v = true

instance (v : Value) (pair : Value × Value) : Decidable (Lists v pair) :=
  inferInstanceAs (Decidable (_ ∧ _ ∧ _))

/-- What written pairs put in the place of a value. -/
inductive Replaces (pairs : List (Value × Value)) (v : Value) : Value → Prop where
  /-- The last pair for the value counts. -/
  | listed {source target : Value} (hlast : IsLast (Lists v) pairs (source, target)) :
      Replaces pairs v target
  /-- A scalar without a pair of its own is replaced as the last pair for null says. -/
  | fallback {source target : Value} (hnone : ∀ pair ∈ pairs, ¬ Lists v pair)
      (hscalar : v.isScalar = true)
      (hlast : IsLast (fun pair => pair.1 = .null) pairs (source, target)) :
      Replaces pairs v target
  /-- Without such a pair, and where it is a container, the value stays. -/
  | unchanged (hnone : ∀ pair ∈ pairs, ¬ Lists v pair)
      (hnull : v.isScalar = true → ∀ pair ∈ pairs, pair.1 ≠ .null) : Replaces pairs v v

/-! ## Tables as they are read -/

/-- What a pair adds to the table that is looked up by key. -/
def keyed (pair : Value × Value) : Option (ScalarKey × Value) :=
  if pair.1 = .null then none else (ScalarKey.of? pair.1).map fun key => (key, pair.2)

/-- The table that is read from these pairs. -/
def ofPairs (pairs : List (Value × Value)) : Remap where
  table := pairs.filterMap keyed
  fallback := (pairs.reverse.find? fun pair => pair.1 = .null).map Prod.snd

theorem readPairs_map (hscalar : ∀ pair ∈ pairs, pair.1.isScalar = true) :
    readPairs (pairs.map fun pair => .list [pair.1, pair.2]) = .ok (ofPairs pairs) := by
  induction pairs with
  | nil => rfl
  | cons pair pairs ih =>
    obtain ⟨hpair, hrest⟩ := List.forall_mem_cons.1 hscalar
    obtain ⟨key, hkey⟩ := Value.isScalar_iff.1 hpair
    rw [List.map_cons, readPairs, ih hrest]
    by_cases hnull : pair.1 = .null
    · have hlast : (ofPairs pairs).fallback.or (some pair.2) =
          (ofPairs (pair :: pairs)).fallback := by
        rw [ofPairs, ofPairs, List.reverse_cons, List.find?_append]
        cases pairs.reverse.find? fun pair => pair.1 = .null <;> simp [hnull]
      rw [if_pos (Value.isNull_iff.2 hnull)]
      dsimp only
      rw [hlast]
      simp [ofPairs, keyed, hnull]
    · have hlast : (ofPairs pairs).fallback = (ofPairs (pair :: pairs)).fallback := by
        simp [ofPairs, hnull]
      rw [if_neg (mt Value.isNull_iff.1 hnull), hkey]
      dsimp only
      rw [hlast]
      simp [ofPairs, keyed, hnull, hkey]

/-- A list that is read has pairs as its members. -/
theorem pairs_of_readPairs {members : List Value} {m : Remap} (h : readPairs members = .ok m) :
    ∀ v ∈ members, ∃ source target, v = .list [source, target] ∧ source.isScalar = true := by
  induction members generalizing m with
  | nil => simp
  | cons member members ih =>
    rw [readPairs.eq_def] at h
    split at h
    · rename_i hmembers
      cases hmembers
    · rename_i source target rest hmembers
      cases hmembers
      split at h
      · rename_i hnull
        split at h
        · rename_i m' hm'
          rw [Value.isNull_iff.1 hnull]
          exact List.forall_mem_cons.2 ⟨⟨.null, target, rfl, rfl⟩, ih hm'⟩
        · cases h
      · split at h
        · cases h
        · rename_i key hkey
          split at h
          · rename_i m' hm'
            have hsource := Value.isScalar_iff.2 ⟨key, hkey⟩
            exact List.forall_mem_cons.2 ⟨⟨source, target, rfl, hsource⟩, ih hm'⟩
          · cases h
    · cases h

theorem written_list_iff {members : List Value} : (∃ pairs, Written (.list members) pairs) ↔
    ∀ v ∈ members, ∃ source target, v = .list [source, target] ∧ source.isScalar = true := by
  constructor
  · rintro ⟨pairs, hwritten⟩ v hv
    cases hwritten with
    | list hscalar =>
      obtain ⟨pair, hpair, rfl⟩ := List.mem_map.1 hv
      exact ⟨pair.1, pair.2, rfl, hscalar pair hpair⟩
  · intro h
    induction members with
    | nil =>
      have hnone : ∀ pair ∈ ([] : List (Value × Value)), pair.1.isScalar = true := by simp
      exact ⟨[], .list hnone⟩
    | cons member members ih =>
      obtain ⟨⟨source, target, rfl, hsource⟩, hrest⟩ := List.forall_mem_cons.1 h
      obtain ⟨pairs, hwritten⟩ := ih hrest
      cases hwritten with
      | list hscalar =>
        have hall : ∀ pair ∈ (source, target) :: pairs, pair.1.isScalar = true :=
          List.forall_mem_cons.2 ⟨hsource, hscalar⟩
        exact ⟨(source, target) :: pairs, .list hall⟩

/-- A table is written with one list of pairs. -/
theorem Written.eq_map {members : List Value} (h : Written (.list members) pairs) :
    members = pairs.map fun pair => .list [pair.1, pair.2] := by
  cases h with
  | list _ => rfl

theorem ofPairs_entries (es : Entries Value) : ofPairs (es.map fun e => (.text e.1, e.2)) =
    ⟨es.map fun e => (.text e.1, e.2), none⟩ := by
  have hnone : (es.map fun e => (Value.text e.1, e.2)).reverse.find?
      (fun pair => pair.1 = .null) = none := by
    rw [find?_reverse_eq_none_iff]
    intro pair hpair
    obtain ⟨e, -, rfl⟩ := List.mem_map.1 hpair
    simp
  rw [ofPairs, hnone, List.filterMap_map]
  simp [keyed, Function.comp_def, ScalarKey.of?]

/-- A table is read if it is written with pairs, and then it is read from these. -/
theorem ofValue_eq_ok_iff {table : Value} {m : Remap} :
    ofValue table = .ok m ↔ ∃ pairs, Written table pairs ∧ m = ofPairs pairs := by
  have hread {pairs : List (Value × Value)} (h : Written table pairs) :
      ofValue table = .ok (ofPairs pairs) := by
    cases h with
    | list hscalar => exact readPairs_map hscalar
    | mapping es => rw [ofPairs_entries, ofValue]
  constructor
  · intro h
    have hwritten : ∃ pairs, Written table pairs := by
      cases table with
      | mapping es => exact ⟨_, .mapping es⟩
      | list members => exact written_list_iff.2 (pairs_of_readPairs h)
      | _ => cases h
    obtain ⟨pairs, hpairs⟩ := hwritten
    exact ⟨pairs, hpairs, Except.ok.inj (h.symm.trans (hread hpairs))⟩
  · rintro ⟨pairs, hwritten, rfl⟩
    exact hread hwritten

/-! ## Looking values up -/

theorem find?_eq (key : ScalarKey) (table : List (ScalarKey × Value)) :
    find? key table = (table.reverse.find? fun e => e.1 = key).map Prod.snd := by
  induction table with
  | nil => rfl
  | cons e table ih =>
    rw [find?, ih, List.reverse_cons, List.find?_append]
    cases table.reverse.find? fun e => e.1 = key with
    | some found => rfl
    | none => by_cases he : e.1 = key <;> simp [he]

theorem lists_iff {key : ScalarKey} (hkey : ScalarKey.of? v = some key) (pair : Value × Value) :
    Lists v pair ↔ keyed pair = some (key, pair.2) := by
  rw [Lists, Value.equivalent_iff_key hkey, Value.isScalar_iff, keyed]
  by_cases hnull : pair.1 = .null
  · simp [hnull]
  · simp only [hnull, if_false, ne_eq, not_false_eq_true, true_and, Option.map_eq_some_iff]
    constructor
    · rintro ⟨-, h⟩
      exact ⟨key, h, rfl⟩
    · rintro ⟨key', h, heq⟩
      rw [(Prod.mk.inj heq).1] at h
      exact ⟨⟨key, h⟩, h⟩

theorem target_of_keyed {pair : Value × Value} {e : ScalarKey × Value} (h : keyed pair = some e) :
    e.2 = pair.2 := by
  rw [keyed] at h
  split at h
  · cases h
  · obtain ⟨key, -, rfl⟩ := Option.map_eq_some_iff.1 h
    rfl

/-- The table has what the last pair for the value says. -/
theorem find?_ofPairs {key : ScalarKey} (hkey : ScalarKey.of? v = some key) :
    find? key (ofPairs pairs).table =
      (pairs.reverse.find? fun pair => Lists v pair).map Prod.snd := by
  have hpred : (fun pair => (keyed pair).any fun e => decide (e.1 = key)) =
      fun pair => decide (Lists v pair) := by
    funext pair
    rw [Bool.eq_iff_iff, decide_eq_true_iff, lists_iff hkey, Option.any_eq_true]
    constructor
    · rintro ⟨e, hkeyed, hsame⟩
      rw [hkeyed, ← of_decide_eq_true hsame, ← target_of_keyed hkeyed]
    · intro h
      exact ⟨_, h, decide_eq_true rfl⟩
  rw [find?_eq, ofPairs, ← List.filterMap_reverse, List.find?_filterMap, hpred]
  cases hfound : pairs.reverse.find? fun pair => Lists v pair with
  | none => rfl
  | some pair =>
    have hpair : Lists v pair := (find?_reverse_eq_some_iff.1 hfound).1
    rw [Option.bind_some, (lists_iff hkey pair).1 hpair]
    rfl

theorem lookup_of_isScalar (hv : v.isScalar = true) : (ofPairs pairs).lookup v =
    ((pairs.reverse.find? fun pair => Lists v pair).or
      (pairs.reverse.find? fun pair => pair.1 = .null)).map Prod.snd := by
  obtain ⟨key, hkey⟩ := Value.isScalar_iff.1 hv
  rw [lookup, hkey, Option.map_or, ← find?_ofPairs hkey]
  rfl

theorem lookup_of_container (m : Remap) (hv : ¬ v.isScalar = true) : m.lookup v = none := by
  have hkey : ScalarKey.of? v = none := by
    rw [Option.eq_none_iff_forall_ne_some]
    intro key hkey
    exact hv (Value.isScalar_iff.2 ⟨key, hkey⟩)
  rw [lookup, hkey]

theorem Lists.isScalar {pair : Value × Value} (h : Lists v pair) : v.isScalar = true := by
  obtain ⟨-, hsource, hequivalent⟩ := h
  rcases Value.shape_of_equivalent hequivalent with
    heq | ⟨_, _, -, rfl⟩ | ⟨_, _, heq, -⟩ | ⟨_, _, heq, -⟩
  · rwa [← heq]
  · rfl
  · rw [heq] at hsource
    cases hsource
  · rw [heq] at hsource
    cases hsource

/-- What the pairs say is what the table that is read from them leads to. -/
theorem Replaces.eq_lookup (h : Replaces pairs v w) :
    w = ((ofPairs pairs).lookup v).getD v := by
  cases h with
  | listed hlast =>
    rw [lookup_of_isScalar hlast.1.isScalar, find?_reverse_eq_some_iff.2 hlast]
    rfl
  | fallback hnone hscalar hlast =>
    rw [lookup_of_isScalar hscalar, find?_reverse_eq_none_iff.2 hnone,
      find?_reverse_eq_some_iff.2 hlast]
    rfl
  | unchanged hnone hnull =>
    by_cases hscalar : v.isScalar = true
    · rw [lookup_of_isScalar hscalar, find?_reverse_eq_none_iff.2 hnone,
        find?_reverse_eq_none_iff.2 (hnull hscalar)]
      rfl
    · rw [lookup_of_container _ hscalar]
      rfl

/-- The pairs say what to put in the place of every value. -/
theorem replaces_lookup (pairs : List (Value × Value)) (v : Value) :
    Replaces pairs v (((ofPairs pairs).lookup v).getD v) := by
  by_cases hscalar : v.isScalar = true
  · rw [lookup_of_isScalar hscalar]
    cases hlisted : pairs.reverse.find? fun pair => Lists v pair with
    | some pair => exact .listed (find?_reverse_eq_some_iff.1 hlisted)
    | none =>
      have hnone := find?_reverse_eq_none_iff.1 hlisted
      cases hnull : pairs.reverse.find? fun pair => pair.1 = .null with
      | some pair => exact .fallback hnone hscalar (find?_reverse_eq_some_iff.1 hnull)
      | none => exact .unchanged hnone fun _ => find?_reverse_eq_none_iff.1 hnull
  · rw [lookup_of_container _ hscalar]
    exact .unchanged (fun pair _ hlists => hscalar hlists.isScalar)
      fun hscalar' => absurd hscalar' hscalar

theorem replaces_iff : Replaces pairs v w ↔ w = ((ofPairs pairs).lookup v).getD v := by
  constructor
  · exact Replaces.eq_lookup
  · rintro rfl
    exact replaces_lookup pairs v

/-- Containers stay as they are. -/
theorem Replaces.eq_of_container (h : Replaces pairs v w) (hv : ¬ v.isScalar = true) : w = v := by
  rw [h.eq_lookup, lookup_of_container _ hv]
  rfl

end Remap

/-! ## Compiled rules -/

namespace Source

open Compile Remap

variable {s : Source} {st st' : Staging} {label : String} {m : Remap}

/-- The table is compiled if it is written with pairs. -/
theorem remapOf_yields_iff {table : Value} : (remapOf table label).Yields st m st' ↔
    (∃ pairs, Written table pairs ∧ m = ofPairs pairs) ∧ st = st' := by
  rw [← ofValue_eq_ok_iff, remapOf]
  cases hread : ofValue table with
  | ok m' => rw [yields_pure, Except.ok.injEq]
  | error flaw => simp [yields_throw]

theorem exists_remapOf_yields {table : Value} :
    (∃ m st', (remapOf table label).Yields st m st') ↔ ∃ pairs, Written table pairs := by
  simp only [remapOf_yields_iff]
  constructor
  · rintro ⟨m, st', ⟨pairs, hwritten, -⟩, -⟩
    exact ⟨pairs, hwritten⟩
  · rintro ⟨pairs, hwritten⟩
    exact ⟨_, st, ⟨pairs, hwritten, rfl⟩, rfl⟩

/-- A feature adds the step that is made of what is read from its argument. -/
theorem mem_stepOf_iff {α β : Type} {argument : Option α} {reader : α → Compile β}
    {make : β → Step Callee} {ss : List (Step Callee)}
    (h : (stepOf argument fun a => do
      let b ← reader a
      pure (make b)).Yields st ss st') {step : Step Callee} :
    step ∈ ss ↔ ∃ a b, argument = some a ∧ (reader a).Yields st b st' ∧ step = make b := by
  cases argument with
  | none =>
    rw [stepOf, yields_pure] at h
    obtain ⟨rfl, -⟩ := h
    simp
  | some a =>
    simp only [stepOf, yields_bind, yields_pure] at h
    obtain ⟨_, _, ⟨b, st₁, hb, rfl, rfl⟩, rfl, rfl⟩ := h
    rw [List.mem_singleton]
    constructor
    · rintro rfl
      exact ⟨a, b, rfl, hb, rfl⟩
    · rintro ⟨a', b', ha', hb', rfl⟩
      rw [← Option.some.inj ha'] at hb'
      rw [(Prod.mk.inj (Except.ok.inj (hb'.symm.trans hb))).1]

theorem remap_not_mem_nullableStep {rule : Rule} {ss : List (Step Callee)}
    (h : (s.nullableStep rule label).Yields st ss st') : Step.check (.remap m) ∉ ss := by
  rw [nullableStep] at h
  split at h
  · split at h
    · simp only [yields_bind, yields_pure] at h
      obtain ⟨c, st₁, -, rfl, -⟩ := h
      simp
    · obtain ⟨rfl, -⟩ := yields_pure.1 h
      simp
  · obtain ⟨rfl, -⟩ := yields_pure.1 h
    simp

theorem remap_not_mem_memberStep {rule : Rule} {options : Options} {ss : List (Step Callee)}
    (h : (s.memberStep rule options label).Yields st ss st') : Step.check (.remap m) ∉ ss := by
  rw [memberStep] at h
  split at h
  · simp only [yields_bind, yields_pure] at h
    obtain ⟨t, st₁, -, rfl, -⟩ := h
    simp
  · obtain ⟨rfl, -⟩ := yields_pure.1 h
    simp

theorem remap_not_mem_bounds {rule : Rule} : Step.check (.remap m) ∉
    rule.bounds.map (@Step.check Callee) := by
  simp [Rule.bounds]

/-- The only step of a rule that replaces values by a table is the one for its table. -/
theorem remap_mem_steps_iff {rule : Rule} {options : Options} {ss : List (Step Callee)}
    (h : (s.steps rule options label).Yields st ss st') : ∃ remaps st₁ st₂,
      (stepOf rule.remap fun table => do
        let m ← remapOf table label
        pure (.check (.remap m))).Yields st₁ remaps st₂ ∧
      ∀ m, Step.check (.remap m) ∈ ss ↔ Step.check (.remap m) ∈ remaps := by
  simp only [steps, yields_bind, yields_pure] at h
  obtain ⟨nullable, st₁, hnullable, coerce, st₂, hcoerce, regex, st₃, hregex, members, st₄,
    hmembers, remaps, st₅, hremap, anyOf, st₆, hanyOf, oneOf, st₇, honeOf, postCoerce, st₈,
    hpost, rfl, rfl⟩ := h
  refine ⟨remaps, st₄, st₅, hremap, fun m => ?_⟩
  have helsewhere : Step.check (.remap m) ∉ coerce ∧ Step.check (.remap m) ∉ regex ∧
      Step.check (.remap m) ∉ anyOf ∧ Step.check (.remap m) ∉ oneOf ∧
        Step.check (.remap m) ∉ postCoerce := by
    rw [mem_stepOf_iff hcoerce, mem_stepOf_iff hregex, mem_stepOf_iff hanyOf,
      mem_stepOf_iff honeOf, mem_stepOf_iff hpost]
    simp
  simp [remap_not_mem_nullableStep hnullable, remap_not_mem_memberStep hmembers,
    remap_not_mem_bounds, helsewhere]

/-- A rule with a table that is compiled has one step for it, which looks values up in what is read
from the written pairs. -/
theorem remap_of_compile {task : Task} {p : Program} (h : (s.compile task).Yields st p st')
    {table : Value} (htable : Rule.argument? task.features "map" = some table) :
    ∃ pairs, Written table pairs ∧ ∀ m, Step.check (.remap m) ∈ p.steps ↔ m = ofPairs pairs := by
  obtain ⟨rule, ss, st₁, hread, hss, rfl, -⟩ := compile_yields_iff.1 h
  obtain ⟨remaps, st₂, st₃, hremaps, hmem⟩ := remap_mem_steps_iff hss
  rw [(Rule.read_eq_ok_iff.1 hread).remap.symm.trans htable] at hremaps
  simp only [stepOf, yields_bind, yields_pure, remapOf_yields_iff] at hremaps
  obtain ⟨_, _, ⟨_, _, ⟨⟨pairs, hwritten, rfl⟩, rfl⟩, rfl, rfl⟩, rfl, rfl⟩ := hremaps
  refine ⟨pairs, hwritten, fun m => ?_⟩
  rw [hmem, List.mem_singleton, Step.check.injEq, Check.remap.injEq]

/-- A table in the form of a list is compiled if its members are pairs of a scalar and a target,
and one in the form of a mapping always is.  Where a rule with a table is compiled, values are
replaced as the table that is looked up by key says, and this is what its pairs say as they are
written, in their order.  Containers are not replaced. -/
theorem remaps_as_written (label : String) (st : Staging) :
    (∀ members, (∃ m st', (remapOf (.list members) label).Yields st m st') ↔
      ∀ v ∈ members, ∃ source target, v = .list [source, target] ∧ source.isScalar = true) ∧
    (∀ es, ∃ m st', (remapOf (.mapping es) label).Yields st m st') ∧
    ∀ (s : Source) (task : Task) (p : Program) (st' : Staging) (table : Value),
      (s.compile task).Yields st p st' → Rule.argument? task.features "map" = some table →
        ∃ pairs m, Written table pairs ∧
          (∀ m', Step.check (.remap m') ∈ p.steps ↔ m' = m) ∧
          ∀ (call : Call Callee) (context : Option Context) (v : Value), ∃ w,
            (Step.check (.remap m)).apply call context v = pure (.next w) ∧
              (∀ w', Replaces pairs v w' ↔ w' = w) ∧ (v.isScalar = false → w = v) := by
  refine ⟨fun members => ?_, fun es => ?_, fun s task p st' table h htable => ?_⟩
  · rw [exists_remapOf_yields, written_list_iff]
  · exact exists_remapOf_yields.2 ⟨_, .mapping es⟩
  · obtain ⟨pairs, hwritten, hsteps⟩ := remap_of_compile h htable
    refine ⟨pairs, ofPairs pairs, hwritten, hsteps, fun call context v => ?_⟩
    refine ⟨((ofPairs pairs).lookup v).getD v, rfl, fun w' => replaces_iff, fun hv => ?_⟩
    exact (replaces_lookup pairs v).eq_of_container (Bool.eq_false_iff.1 hv)

/-- Names of numbers: one is there as an integer and as a double, and null twice. -/
def numberNames : List (Value × Value) :=
  [(Enumeration.wholeOne, .text "one"), (.bool true, .text "yes"), (.null, .text "many"),
    (Enumeration.doubleOne, .text "unit"), (.null, .text "other")]

/-- What rules are compiled from where none have been registered. -/
def namingSource : Source := (Registry.empty {} ⟨[]⟩ id).source [] {}

/-- A staging area in which nothing has been compiled. -/
def namingStage : Staging := { nextLink := 0, nextProgram := 0 }

/-- A rule with this table. -/
def namingTask : Task where
  id := ⟨[]⟩
  link := ⟨0, "naming"⟩
  features := [("map", .list (numberNames.map fun pair => .list [pair.1, pair.2]))]
  form := .null
  options := {}
  label := "naming"

set_option maxRecDepth 100000 in
theorem compile_namingTask :
    ∃ p st', (namingSource.compile namingTask).Yields namingStage p st' := by
  have hcompiles : ((namingSource.compile namingTask).run namingStage).toBool = true := by
    decide +kernel
  cases hrun : (namingSource.compile namingTask).run namingStage with
  | ok outcome => exact ⟨outcome.1, outcome.2, hrun⟩
  | error e =>
    rw [hrun] at hcompiles
    cases hcompiles

/-- The integer one gets the name that comes last.  A text that is not in the table gets that of
null, and a list none. -/
theorem remaps_as_written_names : ∃ p st' m,
    (namingSource.compile namingTask).Yields namingStage p st' ∧
      Step.check (.remap m) ∈ p.steps ∧ ∀ (call : Call Callee) (context : Option Context),
        (Step.check (.remap m)).apply call context Enumeration.wholeOne =
            pure (.next (.text "unit")) ∧
          (Step.check (.remap m)).apply call context (.text "1") = pure (.next (.text "other")) ∧
          (Step.check (.remap m)).apply call context (.list [Enumeration.wholeOne]) =
            pure (.next (.list [Enumeration.wholeOne])) := by
  obtain ⟨p, st', hyields⟩ := compile_namingTask
  obtain ⟨-, -, hremaps⟩ := remaps_as_written "naming" namingStage
  obtain ⟨pairs, m, hwritten, hsteps, hvalues⟩ := hremaps _ _ p st' _ hyields rfl
  have hpairs : numberNames = pairs :=
    List.map_injective_iff.2 (fun a b h => by simpa [Prod.ext_iff] using h) hwritten.eq_map
  subst hpairs
  refine ⟨p, st', m, hyields, (hsteps m).2 rfl, fun call context => ⟨?_, ?_, ?_⟩⟩
  · obtain ⟨w, happly, hreplaces, -⟩ := hvalues call context Enumeration.wholeOne
    have hlast : IsLast (Lists Enumeration.wholeOne) numberNames
        (Enumeration.doubleOne, .text "unit") :=
      find?_reverse_eq_some_iff.1 (by decide +kernel)
    rw [happly, (hreplaces _).1 (.listed hlast)]
  · obtain ⟨w, happly, hreplaces, -⟩ := hvalues call context (.text "1")
    have hnone : ∀ pair ∈ numberNames, ¬ Lists (.text "1") pair := by
      decide +kernel
    have hlast : IsLast (fun pair => pair.1 = .null) numberNames (.null, .text "other") :=
      find?_reverse_eq_some_iff.1 (by decide +kernel)
    rw [happly, (hreplaces _).1 (.fallback hnone rfl hlast)]
  · obtain ⟨w, happly, -, hcontainer⟩ := hvalues call context (.list [Enumeration.wholeOne])
    rw [happly, hcontainer rfl]

end Source
end Rulebook
