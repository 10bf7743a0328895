import Rulebook.Proofs.Evaluation.Passing
import Rulebook.Proofs.Evaluation.Questions
import Rulebook.Proofs.Value.NegativeZero

/-!
# Calls that end

The guard keeps a program from being entered with one value twice on a chain of
calls, so that chains are no longer than there are programs and values to enter
them with.  Hence a call ends, at some depth, if and only if only finitely many
values are entered on its way; what stands between a call and its end is a value
that goes on growing.

Values do not grow where programs hand on what they were given.
-/

namespace Rulebook

open Dialogue Run

variable {bindings : Bindings} {context : Option Context}

/-- A value is entered on the way of a call: by the program that the call enters, or
on the way of what that program asks for. -/
inductive Enters (bindings : Bindings) (context : Option Context) :
    List Frame → Link → Value → Value → Prop where
  | here {frames : List Frame} {l : Link} {v : Value} {p : Program}
      (hp : bindings.lookup l.number = some p)
      (hfree : inFlight frames (Frame.enter p.number v) = false) :
      Enters bindings context frames l v v
  | inside {frames : List Frame} {l l' : Link} {v w u : Value} {p : Program} {depth : Nat}
      (hp : bindings.lookup l.number = some p)
      (hfree : inFlight frames (Frame.enter p.number v) = false)
      (hasked : (.link l', w) ∈ (askSteps context p.steps v).asked
        (Callee.call (follow bindings context depth (Frame.enter p.number v :: frames))))
      (hinside : Enters bindings context (Frame.enter p.number v :: frames) l' w u) :
      Enters bindings context frames l v u

/-! ## Finitely many values -/

/-- The frames are of different programs or values, among the given ones. -/
structure Chain (numbers : List Nat) (values : List Value) (frames : List Frame) : Prop where
  distinct : (frames.map fun f => (f.number, f.value)).Nodup
  among : ∀ f ∈ frames, f.number ∈ numbers ∧ f.value ∈ values

variable {numbers : List Nat} {values : List Value} {frames : List Frame}

theorem Chain.nil : Chain numbers values [] := ⟨List.nodup_nil, by simp⟩

/-- A chain is no longer than there are programs and values. -/
theorem Chain.length_le (h : Chain numbers values frames) :
    frames.length ≤ numbers.length * values.length := by
  have hsubset : (frames.map fun f => (f.number, f.value)) ⊆ numbers ×ˢ values := by
    intro e he
    obtain ⟨f, hf, rfl⟩ := List.mem_map.1 he
    exact List.mem_product.2 (h.among f hf)
  have hle := (List.subperm_of_subset h.distinct hsubset).length_le
  rw [List.length_map] at hle
  exact hle.trans (Nat.le_of_eq (List.length_product _ _))

/-- A program that is not met again extends the chain. -/
theorem Chain.cons (h : Chain numbers values frames) {k : Nat} {v : Value}
    (hfree : inFlight frames (Frame.enter k v) = false) (hk : k ∈ numbers) (hv : v ∈ values) :
    Chain numbers values (Frame.enter k v :: frames) := by
  refine ⟨List.nodup_cons.2 ⟨?_, h.distinct⟩, ?_⟩
  · intro hmem
    obtain ⟨f, hf, heq⟩ := List.mem_map.1 hmem
    obtain ⟨hnumber, hvalue⟩ := Prod.mk.inj heq
    have hflight : inFlight frames (Frame.enter k v) = true := by
      refine (inFlight_iff _ _).2 ⟨f, hf, hnumber, ?_⟩
      rw [show f.value = v from hvalue]
      exact Value.same_refl v
    rw [hfree] at hflight
    cases hflight
  · intro f hf
    rcases List.mem_cons.1 hf with rfl | hf
    · exact ⟨hk, hv⟩
    · exact h.among f hf

theorem number_mem {k : Nat} {p : Program} (hp : bindings.lookup k = some p) :
    p.number ∈ bindings.map fun e => e.2.number := by
  obtain ⟨before, rest, rfl, -⟩ := List.lookup_eq_some_iff.1 hp
  rw [List.map_append, List.map_cons]
  exact List.mem_append_right _ (List.mem_cons_self ..)

/-- Steps end if the links that they ask for do. -/
theorem steps_end_iff {follow : Link → Value → Run Value} {d : Dialogue Callee Value} :
    (d.run (Callee.call follow)).run.isSome ↔
      ∀ l w, (.link l, w) ∈ d.asked (Callee.call follow) → (follow l w).run.isSome := by
  rw [ends_iff]
  constructor
  · intro h l w hasked
    exact h _ hasked
  · rintro h ⟨c, w⟩ hasked
    cases c with
    | pass => rfl
    | link l => exact h l w hasked

/-- A call ends one level further up than the steps of its program. -/
theorem follow_succ_ends_iff {depth : Nat} {l : Link} {v : Value} :
    (follow bindings context (depth + 1) frames l v).run.isSome ↔
      ∀ p, bindings.lookup l.number = some p → inFlight frames (Frame.enter p.number v) = false →
        ((askSteps context p.steps v).run (Callee.call (follow bindings context depth
          (Frame.enter p.number v :: frames)))).run.isSome := by
  rw [follow]
  cases hp : bindings.lookup l.number with
  | none => simp [Run.fail]
  | some p =>
    dsimp only
    rw [Program.run]
    split
    · rename_i hflight
      refine iff_of_true ?_ fun p' hp' hfree => ?_
      · split <;> rfl
      · cases hp'
        rw [hflight] at hfree
        cases hfree
    · rename_i hflight
      rw [← run_askSteps]
      exact ⟨fun h p' hp' _ => by cases hp'; exact h, fun h => h p rfl (Bool.not_eq_true _ ▸ hflight)⟩

/-- Where all values entered are among the given ones, a call ends within as many
levels as the chain of frames can still grow. -/
theorem follow_ends_of_entered (hchain : Chain (bindings.map fun e => e.2.number) values frames)
    {l : Link} {v : Value} (hentered : ∀ u, Enters bindings context frames l v u → u ∈ values)
    {n : Nat} (hn : bindings.length * values.length ≤ frames.length + n) :
    (follow bindings context (n + 1) frames l v).run.isSome := by
  induction n generalizing frames l v with
  | zero =>
    -- The chain cannot grow, so that the program of the link is under way.
    refine follow_succ_ends_iff.2 fun p hp hfree => ?_
    have hle := (hchain.cons hfree (number_mem hp) (hentered v (.here hp hfree))).length_le
    rw [List.length_map, List.length_cons] at hle
    omega
  | succ n ih =>
    refine follow_succ_ends_iff.2 fun p hp hfree => steps_end_iff.2 fun l' w hasked => ?_
    have hchain' := hchain.cons hfree (number_mem hp) (hentered v (.here hp hfree))
    refine ih hchain' (fun u hu => hentered u (.inside hp hfree hasked hu)) ?_
    rw [List.length_cons]
    omega

/-- What a call followed to two depths gives is the same, where it ends at both. -/
theorem call_agree {depth depth' : Nat} {c : Callee} {v : Value}
    {o o' : Except ValidationError Value}
    (ho : (c.call (follow bindings context depth frames) v).run = some o)
    (ho' : (c.call (follow bindings context depth' frames) v).run = some o') : o = o' := by
  cases c with
  | pass => exact Option.some.inj (ho.symm.trans ho')
  | link l =>
    rcases Nat.le_total depth depth' with hle | hle
    · have := (follow_below hle bindings context frames l v).run_eq ho
      exact Option.some.inj (this.symm.trans ho')
    · have := (follow_below hle bindings context frames l v).run_eq ho'
      exact Option.some.inj (ho.symm.trans this)

theorem enters_iff {l : Link} {v u : Value} : Enters bindings context frames l v u ↔
    ∃ p, bindings.lookup l.number = some p ∧ inFlight frames (Frame.enter p.number v) = false ∧
      (u = v ∨ ∃ depth l' w, (.link l', w) ∈ (askSteps context p.steps v).asked
          (Callee.call (follow bindings context depth (Frame.enter p.number v :: frames))) ∧
        Enters bindings context (Frame.enter p.number v :: frames) l' w u) := by
  constructor
  · intro h
    cases h with
    | here hp hfree => exact ⟨_, hp, hfree, Or.inl rfl⟩
    | inside hp hfree hasked hinside => exact ⟨_, hp, hfree, Or.inr ⟨_, _, _, hasked, hinside⟩⟩
  · rintro ⟨p, hp, hfree, rfl | ⟨depth, l', w, hasked, hinside⟩⟩
    · exact .here hp hfree
    · exact .inside hp hfree hasked hinside

theorem finite_of_questions {questions : List (Callee × Value)} {entered : Link → Value → Set Value}
    (h : ∀ l w, (.link l, w) ∈ questions → (entered l w).Finite) :
    {u | ∃ l w, (.link l, w) ∈ questions ∧ u ∈ entered l w}.Finite := by
  induction questions with
  | nil => simp
  | cons e rest ih =>
    obtain ⟨c, w⟩ := e
    have hrest := ih fun l w hmem => h l w (List.mem_cons_of_mem _ hmem)
    cases c with
    | pass => simpa using hrest
    | link l =>
      refine ((h l w (List.mem_cons_self ..)).union hrest).subset ?_
      rintro u ⟨l', w', hmem, hu⟩
      rcases List.mem_cons.1 hmem with heq | hmem
      · cases heq
        exact Or.inl hu
      · exact Or.inr ⟨l', w', hmem, hu⟩

/-- A call that ends enters only finitely many values. -/
theorem entered_finite_of_ends {depth : Nat} {l : Link} {v : Value}
    (hends : (follow bindings context depth frames l v).run.isSome) :
    {u | Enters bindings context frames l v u}.Finite := by
  induction depth generalizing frames l v with
  | zero => cases hends
  | succ depth ih =>
    by_cases hentered : ∃ u, Enters bindings context frames l v u
    · obtain ⟨u, hu⟩ := hentered
      obtain ⟨p, hp, hfree, -⟩ := enters_iff.1 hu
      have hsteps := follow_succ_ends_iff.1 hends p hp hfree
      have hquestions := finite_of_questions fun l' w hasked =>
        ih (steps_end_iff.1 hsteps l' w hasked)
      refine ((Set.finite_singleton v).union hquestions).subset fun u hu => ?_
      obtain ⟨p', hp', -, rfl | ⟨depth', l', w, hasked, hinside⟩⟩ := enters_iff.1 hu
      · exact Or.inl rfl
      · rw [hp] at hp'
        cases hp'
        -- Questions do not depend on the depth to which they are answered.
        have hasked' := asked_subset (fun c w o o' ho ho' => call_agree ho ho') _ hsteps hasked
        exact Or.inr ⟨l', w, hasked', hinside⟩
    · exact Set.finite_empty.subset fun u hu => absurd ⟨u, hu⟩ hentered

/-- A call ends at some depth if and only if it enters finitely many values. -/
theorem ends_iff_finite {l : Link} {v : Value} :
    (∃ depth, (follow bindings context depth [] l v).run.isSome) ↔
      {u | Enters bindings context [] l v u}.Finite := by
  constructor
  · rintro ⟨depth, hends⟩
    exact entered_finite_of_ends hends
  · intro hfinite
    have hchain : Chain (bindings.map fun e => e.2.number) hfinite.toFinset.toList [] := .nil
    exact ⟨_, follow_ends_of_entered hchain (fun u hu => by simpa using hu) (Nat.le_add_left _ _)⟩

/-! ## Programs that hand on what they were given -/

/-- The check ends the program or hands on the value that it was given. -/
def Check.keepsValue : Check → Bool
  | .coerce _ | .remap _ | .postCoerce _ => false
  | _ => true

/-- The step ends the program or hands on the value that it was given. -/
def Step.keepsValue {γ : Type} : Step γ → Bool
  | .check c => c.keepsValue
  | _ => false

/-- Up to the last step that calls, the program hands on the value that it was given. -/
def Program.Passive (p : Program) : Prop :=
  p.steps.Pairwise fun s t => s.keepsValue = true ∨ t.callees.isEmpty = true

theorem Check.next_of_keepsValue {c : Check} (hc : c.keepsValue = true) {v w : Value}
    (h : Passes (c.apply context v) (.next w)) : w = v := by
  have hnext : Flow.next v = .next w → w = v := fun heq => (Flow.next.inj heq).symm
  cases c with
  | nullable fallback post =>
    rw [Check.apply] at h
    split at h
    · -- A null that is replaced ends the program.
      exfalso
      cases fallback <;> cases post <;>
        simp only [passes_bind, passes_pure, reduceCtorEq, and_false, exists_false] at h
    · exact hnext (passes_pure.1 h)
  | coerce c => cases hc
  | postCoerce c => cases hc
  | remap r => cases hc
  | _ => exact hnext (passes_demand.1 h).2.symm

variable {γ : Type} {asks : γ → Value → Prop} {fails : Failure → Prop}

/-- Steps that hand on the value ask about it and its members. -/
theorem askSteps_keeps_of_passive (hfails : ∀ f, (∀ n, f ≠ .undefinedSchema n) → fails f)
    {ss : List (Step γ)}
    (hpassive : ss.Pairwise fun s t => s.keepsValue = true ∨ t.callees.isEmpty = true) {v : Value}
    (h : ∀ s ∈ ss, ∀ c ∈ s.callees, ∀ w ∈ v :: v.members, asks c w) :
    (askSteps context ss v).Keeps asks fails := by
  induction ss with
  | nil => exact keeps_pure _
  | cons s rest ih =>
    obtain ⟨hhead, htail⟩ := List.pairwise_cons.1 hpassive
    have hrest := ih htail fun t ht => h t (List.mem_cons_of_mem _ ht)
    cases hs : s.keepsValue with
    | false =>
      -- Nothing is asked after this step.
      refine (s.ask_keeps hfails (h s (List.mem_cons_self ..))).bind fun flow => ?_
      cases flow with
      | next w =>
        refine askSteps_keeps hfails fun t ht c hc _ => ?_
        have hempty := (hhead t ht).resolve_left (by simp [hs])
        rw [List.isEmpty_iff.1 hempty] at hc
        cases hc
      | done w => exact keeps_pure _
    | true =>
      cases s with
      | check c =>
        obtain ⟨o, ho, hsettled⟩ := c.apply_settled hfails context v
        have hask : (Step.check c : Step γ).ask context v = .done o :=
          congrArg Dialogue.done (Option.get_of_mem _ ho)
        rw [askSteps, hask]
        cases o with
        | error e =>
          intro e' he'
          cases he'
          exact hsettled e rfl
        | ok flow =>
          cases flow with
          | next w =>
            rw [Check.next_of_keepsValue hs ho] at *
            exact hrest
          | done w => exact keeps_pure _
      | _ => cases hs

/-- The programs that are reached from a link hand on what they were given. -/
def Link.Passive (bindings : Bindings) (l : Link) : Prop :=
  ∀ l' p, bindings.Reaches l l' → bindings.lookup l'.number = some p → p.Passive

/-- Below such a link a value is only entered if the given one leads to it. -/
theorem Enters.leads {l : Link} {v u : Value} (h : Enters bindings context frames l v u)
    (hpassive : l.Passive bindings) : v.Leads u := by
  induction h with
  | here _ _ => exact .refl
  | @inside frames l l' v w u p depth hp hfree hasked hinside ih =>
    have hkeeps : (askSteps context p.steps v).Keeps
        (fun c w => (∃ s ∈ p.steps, c ∈ s.callees) ∧ w ∈ v :: v.members) fun _ => True :=
      askSteps_keeps_of_passive (fun _ _ => trivial) (hpassive l p .refl hp)
        fun s hs c hc w hw => ⟨⟨s, hs, hc⟩, hw⟩
    obtain ⟨⟨s, hs, hc⟩, hw⟩ := hkeeps.asked hasked
    have hinner := ih fun l'' q hreaches => hpassive l'' q (.head ⟨p, hp, s, hs, hc⟩ hreaches)
    rcases List.mem_cons.1 hw with rfl | hw
    · exact hinner
    · exact .head hw hinner

/-- Calls of programs that hand on what they were given end. -/
theorem follow_ends_of_passive {l : Link} (hpassive : l.Passive bindings) (v : Value) :
    ∃ depth, (follow bindings context depth [] l v).run.isSome :=
  ends_iff_finite.2 ((Value.finite_leads v).subset fun _ hu => hu.leads hpassive)

end Rulebook
