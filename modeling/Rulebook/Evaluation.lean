import Rulebook.Structure
import Rulebook.Value.Size

/-!
# Evaluation

A program runs its steps in order on a value; the first failure ends it.  Rules
are called through links, which are looked up in the bindings at the moment of
the call.

Every running program is on a chain of frames with the value it was entered
with.  Entering a program again with the same value, further down the chain, is a
loop: it satisfies the rule, or fails, as the program's options say.

A call is given a depth, the number of programs that may be entered one inside
the other.
-/

namespace Rulebook

/-- A running program and the value it was entered with. -/
structure Frame where
  number : Nat
  value : Value
  /-- The size of the value, kept since it settles most comparisons. -/
  size : Nat
  size_eq : size = value.nodes

namespace Frame

/-- The frame of a program entered with a value. -/
def enter (number : Nat) (value : Value) : Frame := ⟨number, value, value.nodes, rfl⟩

/-- Whether two frames are of one program entered with the same value. -/
def same (f g : Frame) : Bool := f.number == g.number && f.size == g.size && f.value.same g.value

theorem same_iff (f g : Frame) :
    f.same g = true ↔ f.number = g.number ∧ f.value.same g.value = true := by
  constructor
  · intro h
    simp only [same, Bool.and_eq_true, beq_iff_eq] at h
    exact ⟨h.1.1, h.2⟩
  · rintro ⟨hn, hv⟩
    simp [same, hn, hv, f.size_eq, g.size_eq, Value.nodes_eq_of_same _ _ hv]

end Frame

/-- What a step leads to. -/
inductive Flow where
  /-- The value for the next step. -/
  | next (v : Value)
  /-- The result of the program. -/
  | done (v : Value)

variable {γ : Type}

/-- The first passing branch of several, with the reports of those before it. -/
def firstOf (call : Call γ) (v : Value) : List γ → List String → Run Value
  | [], reports => Run.fail (.noneOf reports)
  | b :: rest, reports => do
      match ← (call b v).attempt with
      | .ok w => pure w
      | .error e => firstOf call v rest (reports ++ [e.report])

/-- The report of a branch that failed. -/
def outcomeReport : Except ValidationError Value → Option String
  | .ok _ => none
  | .error e => some e.report

/-- The result of the only passing branch of several. -/
def onlyOf (call : Call γ) (v : Value) (branches : List γ) : Run Value := do
  let outcomes ← branches.mapM fun b => (call b v).attempt
  match outcomes.filterMap Except.toOption with
  | [w] => pure w
  | _ => Run.fail (.notOneOf (outcomes.map outcomeReport))

/-- A value that passes a test, or a failure. -/
def demand (holds : Bool) (f : Failure) (v : Value) : Run Flow :=
  if holds then pure (.next v) else Run.fail f

/-- Whether a length is known and passes a test. -/
def lengthHolds (p : Nat → Bool) (v : Value) : Bool := (v.length?.map p).getD false

/-- Apply a step that calls no other rule. -/
def Check.apply (context : Option Context) (c : Check) (v : Value) : Run Flow :=
  match c with
  | nullable fallback post =>
      if v.isNull then do
        let substitute ←
          match fallback with
          | some f => f.resolve context
          | none => pure .null
        match post with
        | some c => do
            let w ← Run.ofExcept (c.apply substitute context)
            pure (.done w)
        | none => pure (.done substitute)
      else pure (.next v)
  | kind k => demand (k.accepts v) (.wrongKind k) v
  | coerce c | postCoerce c => do
      let w ← Run.ofExcept (c.apply v context)
      pure (.next w)
  | pattern p =>
      let holds :=
        match v with
        | .text t => p.accepts t
        | _ => false
      demand holds (.noMatch p.source) v
  | remap r => pure (.next ((r.lookup v).getD v))
  | allowed e => demand (e.contains v) (.notListed e.allowed) v
  | min bound =>
      let o := v.order bound
      demand (o == some .gt || o == some .eq) (.belowBound bound) v
  | max bound =>
      let o := v.order bound
      demand (o == some .lt || o == some .eq) (.aboveBound bound) v
  | minLen n => demand (lengthHolds (fun l => decide (n ≤ l)) v) (.tooShort n) v
  | maxLen n => demand (lengthHolds (fun l => decide (l ≤ n)) v) (.tooLong n) v

/-- Apply a step to a value. -/
def Step.apply (call : Call γ) (context : Option Context) (s : Step γ) (v : Value) :
    Run Flow :=
  match s with
  | check c => c.apply context v
  | members st => do
      let w ← st.apply call context v
      pure (.next w)
  | anyOf branches => do
      let w ← firstOf call v branches []
      pure (.next w)
  | oneOf branches => do
      let w ← onlyOf call v branches
      pure (.next w)
  | refer target => do
      let w ← call target v
      pure (.next w)

/-- Run steps in order. -/
def runSteps (call : Call γ) (context : Option Context) : List (Step γ) → Value → Run Value
  | [], v => pure v
  | s :: rest, v => do
      match ← s.apply call context v with
      | .next w => runSteps call context rest w
      | .done w => pure w

/-- Calling a callee through a way of following links. -/
def Callee.call (follow : Link → Value → Run Value) : Callee → Value → Run Value
  | pass, v => pure v
  | link l, v => follow l v

/-- Whether a program is already running on the same value. -/
def inFlight (frames : List Frame) (f : Frame) : Bool := frames.any fun g => g.same f

theorem inFlight_iff (frames : List Frame) (f : Frame) :
    inFlight frames f = true ↔
      ∃ g ∈ frames, g.number = f.number ∧ g.value.same f.value = true := by
  simp [inFlight, Frame.same_iff]

/-- Run a program that was reached under a name. -/
def Program.run (p : Program) (follow : List Frame → Link → Value → Run Value)
    (context : Option Context) (frames : List Frame) (name : String) (v : Value) : Run Value :=
  let frame := Frame.enter p.number v
  if inFlight frames frame then
    if p.breakLoops then pure v else Run.fail (.reentered name)
  else
    runSteps (Callee.call (follow (frame :: frames))) context p.steps v

/-- Follow a link to its program and run it, to a given depth. -/
def follow (bindings : Bindings) (context : Option Context) :
    Nat → List Frame → Link → Value → Run Value
  | 0, _, _, _ => Run.unfinished
  | depth + 1, frames, l, v =>
      match bindings.lookup l.number with
      | some p => p.run (follow bindings context depth) context frames l.name v
      | none => Run.fail (.undefinedSchema l.name)

/-- The outcome of a call from outside that is followed to a given depth; `none` if it
goes beyond. -/
def evaluate (depth : Nat) (bindings : Bindings) (context : Option Context) (l : Link)
    (v : Value) : Option (Except ValidationError Value) :=
  (follow bindings context depth [] l v).run

/-- The depth to which calls from outside are followed if none is given. -/
def depthLimit : Nat := 2000

end Rulebook
