import Rulebook.Proofs.Evaluation.Order
import Rulebook.Proofs.Value.NegativeZero

/-!
# The guard against loops is conservative

Beside the guarded evaluation stands one without a guard, which enters every
program it meets.  It may be told to stop at values that are not admitted, so
that a run which ends has entered programs with admitted values only.

If the unguarded evaluation of a call ends, then the guard does not speak up on
the way: a program met again with the value it was entered with would have to
end within a smaller depth than it does.  Hence the guarded evaluation ends in
the same way and within the same depth.
-/

namespace Rulebook

open Run

/-- Follow a link without looking for programs under way; values that are not
admitted are not entered, and a run that would enter one does not end. -/
def followUnguarded (fits : Value → Bool) (bindings : Bindings) (context : Option Context) :
    Nat → Link → Value → Run Value
  | 0, _, _ => Run.unfinished
  | depth + 1, l, v =>
      match bindings.lookup l.number with
      | some p =>
          if fits v then
            runSteps (Callee.call (followUnguarded fits bindings context depth)) context p.steps v
          else Run.unfinished
      | none => Run.fail (.undefinedSchema l.name)

/-- Programs of one number are one program. -/
def Bindings.Numbered (bindings : Bindings) : Prop :=
  ∀ k k' p p', bindings.lookup k = some p → bindings.lookup k' = some p' →
    p.number = p'.number → p = p'

namespace Run.Below

variable {α : Type}

theorem of_run_eq {x y : Run α} (h : ∀ o, x.run = some o → y.run = some o) : Below x y := by
  match x with
  | none => exact Or.inl rfl
  | some o => exact Or.inr (h o rfl).symm

end Run.Below

section

variable {fits : Value → Bool} {bindings : Bindings} {context : Option Context}

theorem followUnguarded_below_succ (depth : Nat) (l : Link) (v : Value) :
    Below (followUnguarded fits bindings context depth l v)
      (followUnguarded fits bindings context (depth + 1) l v) := by
  induction depth generalizing l v with
  | zero => exact Or.inl rfl
  | succ depth ih =>
    rw [followUnguarded, followUnguarded]
    split
    · split
      · exact runSteps_call_below ih context _ v
      · exact Below.refl _
    · exact Below.refl _

/-- The frame of a program that, entered with the frame's value, does not end
within a depth. -/
def Frame.Pending (fits : Value → Bool) (bindings : Bindings) (context : Option Context)
    (depth : Nat) (f : Frame) : Prop :=
  fits f.value = true ∧ ∀ l p, bindings.lookup l.number = some p → p.number = f.number →
    ∀ o, (followUnguarded fits bindings context depth l f.value).run ≠ some o

theorem Frame.Pending.of_succ {depth : Nat} {f : Frame}
    (h : f.Pending fits bindings context (depth + 1)) : f.Pending fits bindings context depth :=
  ⟨h.1, fun l p hp hn o ho =>
    h.2 l p hp hn o ((followUnguarded_below_succ depth l f.value).run_eq ho)⟩

/-- Programs are entered in the same way through every link bound to them. -/
theorem followUnguarded_eq_of_lookup {l l' : Link} {p : Program}
    (h : bindings.lookup l.number = some p) (h' : bindings.lookup l'.number = some p)
    (depth : Nat) (v : Value) :
    followUnguarded fits bindings context depth l v =
      followUnguarded fits bindings context depth l' v := by
  cases depth with
  | zero => rfl
  | succ depth => simp only [followUnguarded, h, h']

/-- A guarded call below pending frames ends where the unguarded one ends. -/
theorem follow_run_eq_of_unguarded (hnumbered : bindings.Numbered)
    (hfits : ∀ a b : Value, fits a = true → fits b = true → a.same b = true → a = b)
    {depth : Nat} {frames : List Frame}
    (hframes : ∀ f ∈ frames, f.Pending fits bindings context depth) {l : Link} {v : Value}
    {o : Except ValidationError Value}
    (ho : (followUnguarded fits bindings context depth l v).run = some o) :
    (follow bindings context depth frames l v).run = some o := by
  induction depth generalizing frames l v o with
  | zero => exact absurd ho (by simp [followUnguarded, unfinished, ExceptT.run, ExceptT.mk])
  | succ depth ih =>
    have hframes' : ∀ f ∈ frames, f.Pending fits bindings context depth :=
      fun f hf => (hframes f hf).of_succ
    -- A call that ends earlier is settled by the smaller depth, so that the
    -- given depth may be taken to be the least one.
    by_cases hearly : ∃ o', (followUnguarded fits bindings context depth l v).run = some o'
    · obtain ⟨o', ho'⟩ := hearly
      have hsame : o' = o := by
        have := (followUnguarded_below_succ depth l v).run_eq ho'
        exact Option.some.inj (this.symm.trans ho)
      rw [← hsame]
      exact (follow_below_succ bindings context depth frames l v).run_eq (ih hframes' ho')
    · cases hp : bindings.lookup l.number with
      | none =>
        simp only [followUnguarded, hp] at ho
        simp only [follow, hp]
        exact ho
      | some p =>
        have hv : fits v = true := by
          by_contra hv
          simp [followUnguarded, hp, hv, unfinished, ExceptT.run, ExceptT.mk] at ho
        have hfree : inFlight frames (Frame.enter p.number v) = false := by
          rw [← Bool.not_eq_true, inFlight_iff]
          rintro ⟨g, hg, hnumber, hsame⟩
          have hvalue : g.value = v := hfits g.value v (hframes g hg).1 hv hsame
          refine (hframes g hg).2 l p hp hnumber.symm o ?_
          rw [hvalue]
          exact ho
        have hpending : (Frame.enter p.number v).Pending fits bindings context depth := by
          refine ⟨hv, fun l' p' hp' hnumber o' ho' => hearly ⟨o', ?_⟩⟩
          have : p' = p := hnumbered _ _ p' p hp' hp hnumber
          rw [this] at hp'
          rw [followUnguarded_eq_of_lookup hp hp']
          exact ho'
        have hinner : ∀ f ∈ Frame.enter p.number v :: frames,
            f.Pending fits bindings context depth := by
          intro f hf
          rcases List.mem_cons.1 hf with rfl | hf
          · exact hpending
          · exact hframes' f hf
        simp only [followUnguarded, hp, hv, if_true] at ho
        simp only [follow, hp, Program.run, hfree, Bool.false_eq_true, if_false]
        refine (runSteps_call_below (fun l' w => ?_) context p.steps v).run_eq ho
        exact Below.of_run_eq fun o' ho' => ih hinner ho'

end

end Rulebook
