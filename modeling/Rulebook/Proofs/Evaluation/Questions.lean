import Rulebook.Proofs.Evaluation.Callees
import Rulebook.Proofs.Evaluation.Dialogue
import Rulebook.Proofs.Evaluation.Failing
import Rulebook.Proofs.Value.Parts

/-!
# What steps ask

For each function of the evaluation there is the dialogue that it holds with the
rules it calls, and answering the dialogue gives back the function.

Steps ask only their callees.  The step for the members of a container asks about
the members and their keys; the others ask about the value they are given.  No
step speaks of a schema that is not defined.
-/

namespace Rulebook

open Dialogue

variable {γ : Type} {answer : Call γ}

variable {α β : Type}

/-! ## Runs that call nothing -/

namespace Run

/-- The run has ended, and has not failed but in such ways. -/
def Settled (fails : Failure → Prop) (x : Run α) : Prop :=
  ∃ o, x.run = some o ∧ ∀ e, o = .error e → fails e.failure

variable {fails : Failure → Prop}

theorem settled_pure (a : α) : Settled fails (pure a) := ⟨.ok a, rfl, fun _ he => nomatch he⟩

theorem settled_fail {f : Failure} (hf : fails f) : Settled fails (fail f : Run α) := by
  refine ⟨_, rfl, fun e he => ?_⟩
  cases he
  exact hf

theorem Settled.bind {x : Run α} {f : α → Run β} (hx : Settled fails x)
    (hf : ∀ a, Settled fails (f a)) : Settled fails (x >>= f) := by
  obtain ⟨o, ho, hfails⟩ := hx
  match x, ho with
  | some (.ok a), rfl => exact hf a
  | some (.error e), rfl =>
    refine ⟨.error e, rfl, fun e' he' => ?_⟩
    cases he'
    exact hfails e rfl

theorem Settled.ends {x : Run α} (hx : Settled fails x) : x.run.isSome := by
  obtain ⟨o, ho, -⟩ := hx
  rw [ho]
  rfl

end Run

open Run

section

variable {fails : Failure → Prop} (hfails : ∀ f, (∀ n, f ≠ .undefinedSchema n) → fails f)
include hfails

theorem Substitute.resolve_settled (s : Substitute) (context : Option Context) :
    Settled fails (s.resolve context) := by
  cases s with
  | literal v => exact settled_pure v
  | parameter name =>
    rw [resolve]
    split
    · exact settled_pure _
    · exact settled_fail (hfails _ fun _ h => by cases h)

theorem Coercer.apply_settled (c : Coercer) (v : Value) (context : Option Context) :
    Settled fails (Run.ofExcept (c.apply v context)) := by
  refine ⟨_, rfl, fun e he => hfails _ fun n hn => ?_⟩
  cases c <;> (rw [apply] at he; split at he <;> cases he; cases hn)

theorem demand_settled {holds : Bool} {f : Failure} (hf : ∀ n, f ≠ .undefinedSchema n)
    (v : Value) : Settled fails (demand holds f v) := by
  cases holds with
  | true => exact settled_pure _
  | false => exact settled_fail (hfails f hf)

/-- A check calls no rule. -/
theorem Check.apply_settled (context : Option Context) (c : Check) (v : Value) :
    Settled fails (c.apply context v) := by
  cases c with
  | nullable fallback post =>
    rw [Check.apply]
    split
    · cases fallback with
      | some f =>
        refine (f.resolve_settled hfails context).bind fun substitute => ?_
        cases post with
        | some c => exact (c.apply_settled hfails substitute context).bind fun _ => settled_pure _
        | none => exact settled_pure _
      | none =>
        refine (settled_pure _).bind fun substitute => ?_
        cases post with
        | some c => exact (c.apply_settled hfails substitute context).bind fun _ => settled_pure _
        | none => exact settled_pure _
    · exact settled_pure _
  | coerce c => exact (c.apply_settled hfails v context).bind fun _ => settled_pure _
  | postCoerce c => exact (c.apply_settled hfails v context).bind fun _ => settled_pure _
  | remap r => exact settled_pure _
  | _ => exact demand_settled hfails (fun n h => by cases h) v

end

namespace Dialogue

/-- The dialogue without questions that is over as a run is. -/
def ofEnded (x : Run α) (h : x.run.isSome) : Dialogue γ α := done (x.run.get h)

@[simp]
theorem run_ofEnded (x : Run α) (h : x.run.isSome) :
    (ofEnded x h : Dialogue γ α).run answer = x := by
  match x, h with
  | some _, _ => rfl

theorem Keeps.ofEnded {asks : γ → Value → Prop} {fails : Failure → Prop} {x : Run α}
    (hx : Settled fails x) (h : x.run.isSome) :
    (ofEnded x h : Dialogue γ α).Keeps asks fails := by
  obtain ⟨o, ho, hfails⟩ := hx
  match x, ho with
  | some _, rfl => exact hfails

end Dialogue

/-! ## Dialogues of the evaluation -/

namespace OpenRule

/-- What is asked about a key. -/
def askKey (r : OpenRule γ) (k : Value) : Dialogue γ (Option Value) :=
  match r.keys with
  | none => pure (some k)
  | some callee => do
      match ← (Dialogue.call callee k).attempt with
      | .ok v => pure (some v)
      | .error _ => pure none

/-- What is asked about a value. -/
def askValue (r : OpenRule γ) (v : Value) : Dialogue γ Value :=
  match r.values with
  | none => pure v
  | some callee => Dialogue.call callee v

@[simp]
theorem run_askKey (r : OpenRule γ) (k : Value) : (r.askKey k).run answer = r.key answer k := by
  obtain ⟨keys, values⟩ := r
  cases keys with
  | none => rfl
  | some callee =>
    simp only [askKey, key, run_bind, run_attempt, run_call]
    exact bind_congr fun o => by cases o <;> rfl

@[simp]
theorem run_askValue (r : OpenRule γ) (v : Value) :
    (r.askValue v).run answer = r.value answer v := by
  obtain ⟨keys, values⟩ := r
  cases values with
  | none => rfl
  | some callee => exact run_call callee v

end OpenRule

/-- What is asked for an entry. -/
def Entry.ask (context : Option Context) (input out : Entries Value) (e : Entry γ) :
    Dialogue γ (Entries Value) :=
  match e.find? input with
  | some (k, v) => do
      let w ← (Dialogue.call e.callee v).under (.key k)
      pure (store k e.output w out)
  | none =>
      match e.default with
      | some d => do
          let w ← ofEnded (d.resolve context) (d.resolve_settled (fun _ _ => trivial) context).ends
          pure (Entries.insert e.output w out)
      | none => if e.required then (Dialogue.fail .missing).under (.key e.key) else pure out

@[simp]
theorem Entry.run_ask (context : Option Context) (input out : Entries Value) (e : Entry γ) :
    (e.ask context input out).run answer = e.apply answer context input out := by
  rw [ask, apply]
  cases e.find? input with
  | some found => simp only [run_bind, run_under, run_call, run_pure]
  | none =>
    cases e.default with
    | some d => simp only [run_bind, run_ofEnded, run_pure]
    | none =>
      by_cases hrequired : e.required = true
      · simp only [if_pos hrequired, run_under, run_fail]
      · simp only [if_neg hrequired, run_pure]

namespace MappingItems

/-- What is asked of the first matching pattern. -/
def askPattern (m : MappingItems γ) (key : String) (v : Value) (out : Entries Value) :
    Dialogue γ (Option (Entries Value)) :=
  match m.patterns.find? fun p => p.pattern.accepts key with
  | none => pure none
  | some p => do
      let w ← (Dialogue.call p.callee v).under (.key key)
      pure (some (store key (p.rename.getD key) w out))

/-- What is asked of the open rule. -/
def askOpen (m : MappingItems γ) (key : String) (v : Value) (out : Entries Value) :
    Dialogue γ (Option (Entries Value)) :=
  match m.openRule with
  | none => pure none
  | some r => do
      match ← r.askKey (.text key) with
      | none => pure none
      | some output => do
          let w ← (r.askValue v).under (.key key)
          pure (some (store key (keyText output) w out))

/-- What is asked about a key that may not be declared. -/
def askOther (m : MappingItems γ) (p : Progress) (e : String × Value) : Dialogue γ Progress :=
  if m.declares e.1 then pure p
  else do
    match ← m.askPattern e.1 e.2 p.out with
    | some out => pure { p with out }
    | none =>
        match ← m.askOpen e.1 e.2 p.out with
        | some out => pure { p with out }
        | none => pure { p with unclaimed := p.unclaimed ++ [e.1] }

/-- What is asked about the members of a mapping. -/
def ask (m : MappingItems γ) (context : Option Context) (input : Entries Value) :
    Dialogue γ Value := do
  let declared ← m.entries.foldlM (Entry.ask context input) (m.initial input)
  let p ← input.foldlM m.askOther ⟨declared, []⟩
  if m.policy = .forbid ∧ p.unclaimed ≠ [] then Dialogue.fail (.unknownKeys p.unclaimed)
  else pure (.mapping p.out)

@[simp]
theorem run_askPattern (m : MappingItems γ) (key : String) (v : Value) (out : Entries Value) :
    (m.askPattern key v out).run answer = m.applyPattern answer key v out := by
  rw [askPattern, applyPattern]
  cases m.patterns.find? fun p => p.pattern.accepts key with
  | none => rfl
  | some p => simp only [run_bind, run_under, run_call, run_pure]

@[simp]
theorem run_askOpen (m : MappingItems γ) (key : String) (v : Value) (out : Entries Value) :
    (m.askOpen key v out).run answer = m.applyOpen answer key v out := by
  rw [askOpen, applyOpen]
  cases m.openRule with
  | none => rfl
  | some r =>
    simp only [run_bind, OpenRule.run_askKey]
    refine bind_congr fun output => ?_
    cases output with
    | none => rfl
    | some output => simp only [run_bind, run_under, OpenRule.run_askValue, run_pure]

@[simp]
theorem run_askOther (m : MappingItems γ) (p : Progress) (e : String × Value) :
    (m.askOther p e).run answer = m.applyOther answer p e := by
  rw [askOther, applyOther]
  split
  · rfl
  · simp only [run_bind, run_askPattern]
    refine bind_congr fun claimed => ?_
    cases claimed with
    | some out => rfl
    | none =>
      simp only [run_bind, run_askOpen]
      exact bind_congr fun claimed => by cases claimed <;> rfl

@[simp]
theorem run_ask (m : MappingItems γ) (context : Option Context) (input : Entries Value) :
    (m.ask context input).run answer = m.apply answer context input := by
  rw [ask, apply, run_bind, run_foldlM fun out e => Entry.run_ask context input out e]
  refine bind_congr fun declared => ?_
  rw [run_bind, run_foldlM fun p e => run_askOther m p e]
  refine bind_congr fun p => ?_
  split <;> rfl

end MappingItems

namespace SequenceItems

/-- What is asked about an element of a list. -/
def askElement (s : SequenceItems γ) (v : Value) (index : Nat) : Dialogue γ Value := do
  match ← s.openRule.askKey (Value.ofNat index) with
  | none => pure v
  | some _ => (s.openRule.askValue v).under (.index index)

/-- What is asked about the elements of a list. -/
def ask (s : SequenceItems γ) (input : List Value) : Dialogue γ Value := do
  let out ← input.zipIdx.mapM fun e => s.askElement e.1 e.2
  pure (.list out)

@[simp]
theorem run_askElement (s : SequenceItems γ) (v : Value) (index : Nat) :
    (s.askElement v index).run answer = s.element answer v index := by
  simp only [askElement, element, run_bind, OpenRule.run_askKey]
  refine bind_congr fun output => ?_
  cases output with
  | none => rfl
  | some _ => simp only [run_under, OpenRule.run_askValue]

@[simp]
theorem run_ask (s : SequenceItems γ) (input : List Value) :
    (s.ask input).run answer = s.apply answer input := by
  have helement : ∀ e : Value × Nat, (s.askElement e.1 e.2).run answer = s.element answer e.1 e.2 :=
    fun e => run_askElement s e.1 e.2
  simp only [ask, apply, run_bind, run_mapM helement, run_pure]

end SequenceItems

/-- What is asked about the members of a container. -/
def Structure.ask (s : Structure γ) (context : Option Context) (v : Value) : Dialogue γ Value :=
  match v, s.mapping, s.sequence with
  | .mapping es, some m, _ => m.ask context es
  | .list xs, _, some q => q.ask xs
  | _, some _, some _ => Dialogue.fail .notContainer
  | _, some _, none => Dialogue.fail (.wrongKind .dict)
  | _, none, _ => Dialogue.fail (.wrongKind .list)

@[simp]
theorem Structure.run_ask (s : Structure γ) (context : Option Context) (v : Value) :
    (s.ask context v).run answer = s.apply answer context v := by
  obtain ⟨mapping, sequence⟩ := s
  cases mapping <;> cases sequence <;> cases v <;>
    simp only [ask, apply, run_fail, MappingItems.run_ask, SequenceItems.run_ask]

/-- What is asked of several branches, up to the first that passes. -/
def askFirst (v : Value) : List γ → List String → Dialogue γ Value
  | [], reports => Dialogue.fail (.noneOf reports)
  | b :: rest, reports => do
      match ← (Dialogue.call b v).attempt with
      | .ok w => pure w
      | .error e => askFirst v rest (reports ++ [e.report])

@[simp]
theorem run_askFirst (v : Value) (branches : List γ) (reports : List String) :
    (askFirst v branches reports).run answer = firstOf answer v branches reports := by
  induction branches generalizing reports with
  | nil => rfl
  | cons b rest ih =>
    simp only [askFirst, firstOf, run_bind, run_attempt, run_call]
    refine bind_congr fun o => ?_
    cases o with
    | ok w => rfl
    | error e => exact ih _

/-- What is asked of all branches. -/
def askOnly (v : Value) (branches : List γ) : Dialogue γ Value := do
  let outcomes ← branches.mapM fun b => (Dialogue.call b v).attempt
  match outcomes.filterMap Except.toOption with
  | [w] => pure w
  | _ => Dialogue.fail (.notOneOf (outcomes.map outcomeReport))

@[simp]
theorem run_askOnly (v : Value) (branches : List γ) :
    (askOnly v branches).run answer = onlyOf answer v branches := by
  have hcall : ∀ b, (Dialogue.call b v).attempt.run answer = (answer b v).attempt := fun b => by
    rw [run_attempt, run_call]
  rw [askOnly, onlyOf, run_bind, run_mapM hcall]
  refine bind_congr fun outcomes => ?_
  generalize outcomes.filterMap Except.toOption = passed
  match passed with
  | [] => rfl
  | [_] => rfl
  | _ :: _ :: _ => rfl

/-- What a step asks. -/
def Step.ask (context : Option Context) (s : Step γ) (v : Value) : Dialogue γ Flow :=
  match s with
  | .check c =>
      ofEnded (c.apply context v) (c.apply_settled (fun _ _ => trivial) context v).ends
  | .members st => do
      let w ← st.ask context v
      pure (.next w)
  | .anyOf branches => do
      let w ← askFirst v branches []
      pure (.next w)
  | .oneOf branches => do
      let w ← askOnly v branches
      pure (.next w)
  | .refer target => do
      let w ← Dialogue.call target v
      pure (.next w)

@[simp]
theorem Step.run_ask (context : Option Context) (s : Step γ) (v : Value) :
    (s.ask context v).run answer = s.apply answer context v := by
  cases s <;> simp only [ask, apply, run_bind, run_ofEnded, Structure.run_ask, run_askFirst,
    run_askOnly, run_call, run_pure]

/-- What steps ask, in order. -/
def askSteps (context : Option Context) : List (Step γ) → Value → Dialogue γ Value
  | [], v => pure v
  | s :: rest, v => do
      match ← s.ask context v with
      | .next w => askSteps context rest w
      | .done w => pure w

/-- Answering what steps ask is running them. -/
@[simp]
theorem run_askSteps (context : Option Context) (ss : List (Step γ)) (v : Value) :
    (askSteps context ss v).run answer = runSteps answer context ss v := by
  induction ss generalizing v with
  | nil => rfl
  | cons s rest ih =>
    simp only [askSteps, runSteps, run_bind, Step.run_ask]
    refine bind_congr fun flow => ?_
    cases flow with
    | next w => exact ih w
    | done w => rfl

/-! ## What steps keep to -/

section

variable {asks : γ → Value → Prop} {fails : Failure → Prop}
  (hfails : ∀ f, (∀ n, f ≠ .undefinedSchema n) → fails f)
include hfails

namespace OpenRule

omit hfails in
theorem askKey_keeps {o : OpenRule γ} {k : Value} (h : ∀ c ∈ o.callees, asks c k) :
    (o.askKey k).Keeps asks fails := by
  obtain ⟨keys, values⟩ := o
  cases keys with
  | none => exact keeps_pure _
  | some c =>
    refine (keeps_call (h c (List.mem_cons_self ..))).attempt.bind fun o => ?_
    cases o <;> exact keeps_pure _

omit hfails in
theorem askValue_keeps {o : OpenRule γ} {v : Value} (h : ∀ c ∈ o.callees, asks c v) :
    (o.askValue v).Keeps asks fails := by
  obtain ⟨keys, values⟩ := o
  cases values with
  | none => exact keeps_pure _
  | some c => exact keeps_call (h c (List.mem_append_right _ (List.mem_singleton_self _)))

end OpenRule

theorem Entry.ask_keeps {e : Entry γ} {context : Option Context} {input out : Entries Value}
    (h : ∀ k v, e.find? input = some (k, v) → asks e.callee v) :
    (e.ask context input out).Keeps asks fails := by
  rw [Entry.ask]
  cases hfind : e.find? input with
  | some found =>
    exact ((keeps_call (h _ _ hfind)).under _).bind fun _ => keeps_pure _
  | none =>
    cases e.default with
    | some d => exact (Keeps.ofEnded (d.resolve_settled hfails context) _).bind fun _ => keeps_pure _
    | none =>
      dsimp only
      split
      · exact (keeps_fail (hfails _ fun n h => by cases h)).under _
      · exact keeps_pure _

namespace MappingItems

variable {m : MappingItems γ} {key : String} {v : Value} {out : Entries Value}

omit hfails in
theorem askPattern_keeps (h : ∀ c ∈ m.callees, asks c v) :
    (m.askPattern key v out).Keeps asks fails := by
  rw [askPattern]
  cases hfind : m.patterns.find? fun p => p.pattern.accepts key with
  | none => exact keeps_pure _
  | some p =>
    have hmem : p.callee ∈ m.callees := List.mem_append_left _
      (List.mem_append_right _ (List.mem_map_of_mem (List.mem_of_find?_eq_some hfind)))
    exact ((keeps_call (h _ hmem)).under _).bind fun _ => keeps_pure _

omit hfails in
theorem askOpen_keeps (hkey : ∀ c ∈ m.callees, asks c (.text key))
    (h : ∀ c ∈ m.callees, asks c v) : (m.askOpen key v out).Keeps asks fails := by
  rw [askOpen]
  cases hopen : m.openRule with
  | none => exact keeps_pure _
  | some o =>
    have hmem : ∀ c ∈ o.callees, c ∈ m.callees := by
      intro c hc
      refine List.mem_append_right _ (List.mem_flatMap.2 ⟨o, ?_, hc⟩)
      rw [hopen]
      exact List.mem_singleton_self _
    refine (OpenRule.askKey_keeps fun c hc => hkey c (hmem c hc)).bind fun output => ?_
    cases output with
    | none => exact keeps_pure _
    | some output =>
      exact ((OpenRule.askValue_keeps fun c hc => h c (hmem c hc)).under _).bind fun _ =>
        keeps_pure _

omit hfails in
theorem askOther_keeps {p : Progress} {e : String × Value}
    (hkey : ∀ c ∈ m.callees, asks c (.text e.1)) (h : ∀ c ∈ m.callees, asks c e.2) :
    (m.askOther p e).Keeps asks fails := by
  rw [askOther]
  split
  · exact keeps_pure _
  · refine (askPattern_keeps h).bind fun claimed => ?_
    cases claimed with
    | some out => exact keeps_pure _
    | none =>
      refine (askOpen_keeps hkey h).bind fun claimed => ?_
      cases claimed <;> exact keeps_pure _

theorem ask_keeps {context : Option Context} {input : Entries Value}
    (h : ∀ c ∈ m.callees, ∀ w ∈ Value.members (.mapping input), asks c w) :
    (m.ask context input).Keeps asks fails := by
  refine (keeps_foldlM (fun e he out => ?_) _).bind fun declared =>
    (keeps_foldlM (fun e he p => ?_) _).bind fun p => ?_
  · refine e.ask_keeps hfails fun k v hfind => ?_
    obtain ⟨key, -, hfound⟩ := List.exists_of_findSome?_eq_some hfind
    obtain ⟨w, hw, heq⟩ := Option.map_eq_some_iff.1 hfound
    cases heq
    refine h _ (List.mem_append_left _ (List.mem_append_left _ (List.mem_map_of_mem he))) v ?_
    exact List.mem_append_left _ (List.mem_map.2 ⟨_, Entries.mem_of_lookup hw, rfl⟩)
  · refine askOther_keeps (fun c hc => h c hc _ ?_) (fun c hc => h c hc _ ?_)
    · exact List.mem_append_right _ (List.mem_map.2 ⟨e, he, rfl⟩)
    · exact List.mem_append_left _ (List.mem_map_of_mem he)
  · split
    · exact keeps_fail (hfails _ fun n h => by cases h)
    · exact keeps_pure _

end MappingItems

omit hfails in
theorem SequenceItems.ask_keeps {q : SequenceItems γ} {xs : List Value}
    (h : ∀ c ∈ q.openRule.callees, ∀ w ∈ Value.members (.list xs), asks c w) :
    (q.ask xs).Keeps asks fails := by
  refine (keeps_mapM fun e he => ?_).bind fun _ => keeps_pure _
  obtain ⟨x, i⟩ := e
  have hmem := List.mem_zipIdx_iff_getElem?.1 he
  obtain ⟨hi, hx⟩ := List.getElem?_eq_some_iff.1 hmem
  refine (OpenRule.askKey_keeps fun c hc => h c hc _ ?_).bind fun output => ?_
  · exact List.mem_append_right _ (List.mem_map_of_mem (List.mem_range.2 hi))
  · cases output with
    | none => exact keeps_pure _
    | some _ =>
      refine (OpenRule.askValue_keeps fun c hc => h c hc _ ?_).under _
      exact List.mem_append_left _ (List.mem_of_getElem? hmem)

theorem Structure.ask_keeps {s : Structure γ} {context : Option Context} {v : Value}
    (h : ∀ c ∈ s.callees, ∀ w ∈ v.members, asks c w) : (s.ask context v).Keeps asks fails := by
  obtain ⟨mapping, sequence⟩ := s
  have hmapping : ∀ m, mapping = some m → ∀ c ∈ m.callees, ∀ w ∈ v.members, asks c w := by
    rintro m rfl c hc
    exact h c (List.mem_append_left _ (List.mem_flatMap.2 ⟨m, List.mem_singleton_self _, hc⟩))
  have hsequence : ∀ q, sequence = some q → ∀ c ∈ q.openRule.callees, ∀ w ∈ v.members,
      asks c w := by
    rintro q rfl c hc
    exact h c (List.mem_append_right _ (List.mem_flatMap.2 ⟨q, List.mem_singleton_self _, hc⟩))
  have hfail : ∀ {f}, (∀ n, f ≠ .undefinedSchema n) →
      (Dialogue.fail f : Dialogue γ Value).Keeps asks fails := fun hf => keeps_fail (hfails _ hf)
  cases mapping with
  | none =>
    cases sequence with
    | none => cases v <;> exact hfail fun n h => by cases h
    | some q =>
      cases v with
      | list xs => exact SequenceItems.ask_keeps (hsequence q rfl)
      | _ => exact hfail fun n h => by cases h
  | some m =>
    cases sequence with
    | none =>
      cases v with
      | mapping es => exact MappingItems.ask_keeps hfails (hmapping m rfl)
      | _ => exact hfail fun n h => by cases h
    | some q =>
      cases v with
      | mapping es => exact MappingItems.ask_keeps hfails (hmapping m rfl)
      | list xs => exact SequenceItems.ask_keeps (hsequence q rfl)
      | _ => exact hfail fun n h => by cases h

theorem askFirst_keeps {branches : List γ} {v : Value} (h : ∀ b ∈ branches, asks b v)
    (reports : List String) : (askFirst v branches reports).Keeps asks fails := by
  induction branches generalizing reports with
  | nil => exact keeps_fail (hfails _ fun n h => by cases h)
  | cons b rest ih =>
    refine (keeps_call (h b (List.mem_cons_self ..))).attempt.bind fun o => ?_
    cases o with
    | ok w => exact keeps_pure _
    | error e => exact ih (fun b' hb' => h b' (List.mem_cons_of_mem _ hb')) _

theorem askOnly_keeps {branches : List γ} {v : Value} (h : ∀ b ∈ branches, asks b v) :
    (askOnly v branches).Keeps asks fails := by
  refine (keeps_mapM fun b hb => (keeps_call (h b hb)).attempt).bind fun outcomes => ?_
  split
  · exact keeps_pure _
  · exact keeps_fail (hfails _ fun n h => by cases h)

/-- A step asks its callees, about the value it is given or its members. -/
theorem Step.ask_keeps {s : Step γ} {context : Option Context} {v : Value}
    (h : ∀ c ∈ s.callees, ∀ w ∈ v :: v.members, asks c w) :
    (s.ask context v).Keeps asks fails := by
  have hself : ∀ c ∈ s.callees, asks c v := fun c hc => h c hc v (List.mem_cons_self ..)
  cases s with
  | check c => exact Keeps.ofEnded (c.apply_settled hfails context v) _
  | members st =>
    refine (st.ask_keeps hfails fun c hc w hw => ?_).bind fun _ => keeps_pure _
    exact h c hc w (List.mem_cons_of_mem _ hw)
  | anyOf branches => exact (askFirst_keeps hfails hself []).bind fun _ => keeps_pure _
  | oneOf branches => exact (askOnly_keeps hfails hself).bind fun _ => keeps_pure _
  | refer target =>
    exact (keeps_call (hself target (List.mem_singleton_self _))).bind fun _ => keeps_pure _

/-- Steps ask their callees. -/
theorem askSteps_keeps {ss : List (Step γ)} {context : Option Context} {v : Value}
    (h : ∀ s ∈ ss, ∀ c ∈ s.callees, ∀ w, asks c w) : (askSteps context ss v).Keeps asks fails := by
  induction ss generalizing v with
  | nil => exact keeps_pure _
  | cons s rest ih =>
    refine (s.ask_keeps hfails fun c hc w _ => h s (List.mem_cons_self ..) c hc w).bind fun flow => ?_
    cases flow with
    | next w => exact ih fun t ht => h t (List.mem_cons_of_mem _ ht)
    | done w => exact keeps_pure _

end

/-! ## Calls that fail -/

/-- A call fails over a schema that is not defined only if a link that is reached is
not bound. -/
theorem follow_fails {bindings : Bindings} {context : Option Context} {fails : Failure → Prop}
    (hfails : ∀ f, (∀ n, f ≠ .undefinedSchema n) → fails f) {l : Link}
    (hl : ∀ l', bindings.Reaches l l' → bindings.lookup l'.number = none →
      fails (.undefinedSchema l'.name)) {depth : Nat} {frames : List Frame} {v : Value}
    {e : ValidationError} (he : Fails (follow bindings context depth frames l v) e) :
    fails e.failure := by
  induction depth generalizing frames l v e with
  | zero => exact (not_fails_unfinished he).elim
  | succ depth ih =>
    obtain ⟨hp, rfl⟩ | ⟨p, hp, ⟨-, -, rfl⟩ | ⟨-, hsteps⟩⟩ := fails_follow_succ_iff.1 he
    · exact hl l .refl hp
    · exact hfails _ fun n h => by cases h
    · rw [← run_askSteps] at hsteps
      have hkeeps : (askSteps context p.steps v).Keeps
          (fun c _ => ∃ s ∈ p.steps, c ∈ s.callees) fails :=
        askSteps_keeps hfails fun s hs c hc _ => ⟨s, hs, hc⟩
      refine hkeeps.run ?_ hsteps
      rintro c w ⟨s, hs, hc⟩ e' he'
      cases c with
      | pass => cases he'
      | link l' =>
        exact ih (fun l'' hl'' => hl l'' (.head ⟨p, hp, s, hs, hc⟩ hl'')) he'

end Rulebook
