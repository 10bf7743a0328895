import Mathlib.Data.Set.Card
import Rulebook.Proofs.Evaluation.Testing
import Rulebook.Proofs.Value.Depth

/-!
# How deep calls go

A program is running while what it asks for is answered, and so are the programs that have
called it.  Where programs only test, each of them is run on the value of its caller or on
one of its members, keys or indices.  The guard lets no program run twice on one value, so
that on values of one depth there run no more programs than there are: a chain of frames is
no longer than the number of programs, once for each depth.

For the same reason a frame that the guard meets again stands on a part of the chain on which
there was no descent.
-/

namespace Rulebook

open Dialogue Run

variable {α β γ : Type}

/-! ## What is asked of programs that only test -/

/-- What is asked by one dialogue after another is asked by one of them, and by the second only
with a result of the first. -/
theorem Dialogue.mem_asked_bind {answer : Call γ} {d : Dialogue γ α} {f : α → Dialogue γ β}
    {e : γ × Value} (he : e ∈ (d >>= f).asked answer) :
    e ∈ d.asked answer ∨ ∃ a, Passes (d.run answer) a ∧ e ∈ (f a).asked answer := by
  induction d with
  | done o =>
    cases o with
    | ok a => exact Or.inr ⟨a, rfl, he⟩
    | error _ => cases he
  | ask c v next ih =>
    have hnext : (ask c v next >>= f) = ask c v fun o => next o >>= f := rfl
    rw [hnext, asked] at he
    rcases List.mem_cons.1 he with rfl | he
    · left
      rw [asked]
      exact List.mem_cons_self ..
    · cases ho : (answer c v).run with
      | none =>
        rw [ho] at he
        cases he
      | some o =>
        rw [ho] at he
        rcases ih o he with he | ⟨a, ha, he⟩
        · left
          rw [asked, ho]
          exact List.mem_cons_of_mem _ he
        · right
          refine ⟨a, ?_, he⟩
          rw [Passes, run_ask, ho]
          exact ha

/-- Steps that only test ask their callees, about the value that they are given or its
members. -/
theorem of_mem_asked_onlyTests {call : Call γ} {context : Option Context} {v : Value}
    (hcall : ∀ c w u, w.Ordered → Passes (call c w) u → u = w) {ss : List (Step γ)}
    (hss : ∀ s ∈ ss, s.OnlyTests) (hv : v.Ordered) {e : γ × Value}
    (he : e ∈ (askSteps context ss v).asked call) :
    (∃ s ∈ ss, e.1 ∈ s.callees) ∧ e.2 ∈ v :: v.members := by
  induction ss with
  | nil => cases he
  | cons s rest ih =>
    rcases mem_asked_bind he with he | ⟨flow, hflow, he⟩
    · have hkeeps : (s.ask context v).Keeps (fun c w => c ∈ s.callees ∧ w ∈ v :: v.members)
          fun _ => True :=
        s.ask_keeps (fun _ _ => trivial) fun c hc w hw => ⟨hc, hw⟩
      obtain ⟨hcallee, hvalue⟩ := hkeeps.asked he
      exact ⟨⟨s, List.mem_cons_self .., hcallee⟩, hvalue⟩
    · rw [Step.run_ask] at hflow
      rcases (hss s (List.mem_cons_self ..)).flow_eq hcall hv hflow with rfl | rfl
      · obtain ⟨⟨t, ht, hcallee⟩, hvalue⟩ := ih (fun t ht => hss t (List.mem_cons_of_mem _ ht)) he
        exact ⟨⟨t, List.mem_cons_of_mem _ ht, hcallee⟩, hvalue⟩
      · cases he

variable {bindings : Bindings} {context : Option Context}

/-! ## Programs that are reached -/

namespace Bindings

theorem finite_programsFrom (bindings : Bindings) (l : Link) : (bindings.programsFrom l).Finite := by
  apply (List.finite_toSet (bindings.map Prod.snd)).subset
  rintro p ⟨l', -, hp⟩
  obtain ⟨before, rest, rfl, -⟩ := List.lookup_eq_some_iff.1 hp
  have hmem : (l'.number, p) ∈ before ++ (l'.number, p) :: rest :=
    List.mem_append_right _ (List.mem_cons_self ..)
  exact List.mem_map.2 ⟨(l'.number, p), hmem, rfl⟩

/-- The numbers of the programs that are reached from a link. -/
def numbersFrom (bindings : Bindings) (l : Link) : Set Nat :=
  Program.number '' bindings.programsFrom l

theorem ncard_numbersFrom_le (bindings : Bindings) (l : Link) :
    (bindings.numbersFrom l).ncard ≤ (bindings.programsFrom l).ncard :=
  Set.ncard_image_le (bindings.finite_programsFrom l)

end Bindings

/-! ## Chains that descend -/

/-- The frames are of different programs or different values, and values only lead to their
members, keys and indices further up the chain. -/
structure Descent (numbers : Set Nat) (v : Value) (frames : List Frame) : Prop where
  among : ∀ f ∈ frames, f.number ∈ numbers
  leads : ∀ f ∈ frames, v.Leads f.value
  descends : frames.Pairwise fun f g => g.value.Leads f.value
  distinct : frames.Pairwise fun f g => g.same f = false

namespace Descent

variable {numbers : Set Nat} {v : Value} {frames : List Frame}

/-- Frames of one program are at different depths. -/
theorem nodup_depths (h : Descent numbers v frames) :
    (frames.map fun f => (f.number, f.value.depth)).Nodup := by
  rw [List.Nodup, List.pairwise_map]
  refine (h.descends.and h.distinct).imp ?_
  rintro f g ⟨hleads, hdistinct⟩ heq
  obtain ⟨hnumber, hdepth⟩ := Prod.mk.inj heq
  have hvalue : f.value = g.value := hleads.eq_of_depth hdepth
  have hsame : g.same f = true := by
    rw [Frame.same_iff, hnumber, hvalue]
    exact ⟨rfl, Value.same_refl g.value⟩
  rw [hdistinct] at hsame
  cases hsame

/-- The chain is no longer than the number of programs, once for each depth. -/
theorem length_le (h : Descent numbers v frames) (hfinite : numbers.Finite) :
    frames.length ≤ numbers.ncard * (v.depth + 1) := by
  have hsubset : (frames.map fun f => (f.number, f.value.depth)).toFinset ⊆
      hfinite.toFinset ×ˢ Finset.range (v.depth + 1) := by
    intro e he
    obtain ⟨f, hf, rfl⟩ := List.mem_map.1 (List.mem_toFinset.1 he)
    rw [Finset.mem_product]
    constructor
    · exact hfinite.mem_toFinset.2 (h.among f hf)
    · exact Finset.mem_range.2 (Nat.lt_succ_of_le (h.leads f hf).depth_le)
  calc
    frames.length = (frames.map fun f => (f.number, f.value.depth)).toFinset.card := by
      rw [List.toFinset_card_of_nodup h.nodup_depths, List.length_map]
    _ ≤ (hfinite.toFinset ×ˢ Finset.range (v.depth + 1)).card := Finset.card_le_card hsubset
    _ = numbers.ncard * (v.depth + 1) := by
      rw [Finset.card_product, Finset.card_range, Set.ncard_eq_toFinset_card numbers hfinite]

/-- A frame that is the same as the next one ends a part of the chain without descent. -/
theorem eq_of_same (h : Descent numbers v frames) {above below : List Frame} {g : Frame}
    (hframes : frames = above ++ g :: below) {w : Value} (hw : ∀ f ∈ frames, f.value.Leads w)
    (hsame : g.value.same w = true) : ∀ f ∈ above ++ [g], f.value = w := by
  have hnodes := Value.nodes_eq_of_same _ _ hsame
  have hdescends := h.descends
  rw [hframes, List.append_cons, List.pairwise_append] at hdescends
  rw [hframes] at hw
  have heq : w = g.value := by
    refine (hw g ?_).eq_of_nodes hnodes.le
    exact List.mem_append_right _ (List.mem_cons_self ..)
  intro f hf
  rcases List.mem_append.1 hf with hf | hf
  · have hleads := (List.pairwise_append.1 hdescends.1).2.2 f hf g (List.mem_singleton_self g)
    have hle := (hw f (List.mem_append_left _ hf)).nodes_le
    rw [heq]
    exact hleads.eq_of_nodes (hnodes.le.trans hle)
  · rw [List.mem_singleton.1 hf, heq]

end Descent

/-! ## Programs that are running -/

/-- A program is running on a value, with its own frame first: it was entered from outside
through a link, or through a link that a running program asks for. -/
inductive Running (bindings : Bindings) (context : Option Context) (l₀ : Link) (v₀ : Value) :
    List Frame → Program → Value → Prop where
  | outer {p : Program} (hp : bindings.lookup l₀.number = some p) :
      Running bindings context l₀ v₀ [Frame.enter p.number v₀] p v₀
  | inner {frames : List Frame} {p q : Program} {v w : Value} {l : Link} {depth : Nat}
      (hrunning : Running bindings context l₀ v₀ frames p v)
      (hasked : (.link l, w) ∈ (askSteps context p.steps v).asked
        (Callee.call (follow bindings context depth frames)))
      (hq : bindings.lookup l.number = some q)
      (hfree : inFlight frames (Frame.enter q.number w) = false) :
      Running bindings context l₀ v₀ (Frame.enter q.number w :: frames) q w

/-- Below the frames a running program asks for a link to be followed with a value. -/
def Asking (bindings : Bindings) (context : Option Context) (l₀ : Link) (v₀ : Value)
    (frames : List Frame) (l : Link) (w : Value) : Prop :=
  ∃ p v depth, Running bindings context l₀ v₀ frames p v ∧
    (.link l, w) ∈ (askSteps context p.steps v).asked
      (Callee.call (follow bindings context depth frames))

namespace Running

variable {l₀ l : Link} {v₀ v w : Value} {frames : List Frame} {p q : Program} {depth : Nat}

/-- Running programs are reached from the link that was entered from outside. -/
theorem reached (h : Running bindings context l₀ v₀ frames p v) :
    ∃ l, bindings.Reaches l₀ l ∧ bindings.lookup l.number = some p := by
  induction h with
  | outer hp => exact ⟨l₀, .refl, hp⟩
  | @inner frames p q v w l depth _ hasked hq _ ih =>
    obtain ⟨lp, hreaches, hp⟩ := ih
    have hkeeps : (askSteps context p.steps v).Keeps
        (fun c _ => ∃ s ∈ p.steps, c ∈ s.callees) fun _ => True :=
      askSteps_keeps (fun _ _ => trivial) fun s hs c hc _ => ⟨s, hs, hc⟩
    obtain ⟨s, hs, hc⟩ := hkeeps.asked hasked
    exact ⟨l, hreaches.tail ⟨p, hp, s, hs, hc⟩, hq⟩

theorem number_mem (h : Running bindings context l₀ v₀ frames p v) :
    p.number ∈ bindings.numbersFrom l₀ := ⟨p, h.reached, rfl⟩

/-- A running program that only tests asks about its value or a member of it. -/
theorem leads_of_asked (hbindings : bindings.OnlyTest)
    (h : Running bindings context l₀ v₀ frames p v) (hv : v.Ordered)
    (hasked : (.link l, w) ∈ (askSteps context p.steps v).asked
      (Callee.call (follow bindings context depth frames))) : v.Leads w := by
  obtain ⟨lp, -, hp⟩ := h.reached
  have hcall : ∀ c w u, w.Ordered →
      Passes (Callee.call (follow bindings context depth frames) c w) u → u = w := by
    intro c w u hw hu
    cases c with
    | pass => exact (passes_pure.1 hu).symm
    | link l' => exact hbindings.eq_of_passes hw hu
  have hmem := (of_mem_asked_onlyTests hcall (hbindings _ p hp) hv hasked).2
  rcases List.mem_cons.1 hmem with rfl | hmem
  · exact .refl
  · exact .single hmem

/-- The frames of running programs that only test descend into the value from outside. -/
theorem descent (hbindings : bindings.OnlyTest) (hv₀ : v₀.Ordered)
    (h : Running bindings context l₀ v₀ frames p v) :
    v₀.Leads v ∧ (∀ f ∈ frames, f.value.Leads v) ∧
      Descent (bindings.numbersFrom l₀) v₀ frames := by
  induction h with
  | @outer p hp =>
    refine ⟨.refl, List.forall_mem_singleton.2 .refl, ?_⟩
    constructor
    · exact List.forall_mem_singleton.2 ⟨p, ⟨l₀, .refl, hp⟩, rfl⟩
    · exact List.forall_mem_singleton.2 .refl
    · exact List.pairwise_singleton _ _
    · exact List.pairwise_singleton _ _
  | @inner frames p q v w l depth hrunning hasked hq hfree ih =>
    obtain ⟨hv, hframes, hdescent⟩ := ih
    have hw := leads_of_asked hbindings hrunning (hv.ordered hv₀) hasked
    have hbelow : ∀ f ∈ frames, f.value.Leads w := fun f hf => (hframes f hf).trans hw
    have hother : ∀ f ∈ frames, f.same (Frame.enter q.number w) = false := by
      intro f hf
      exact Bool.eq_false_iff.2 (List.any_eq_false.1 hfree f hf)
    refine ⟨hv.trans hw, List.forall_mem_cons.2 ⟨.refl, hbelow⟩, ?_⟩
    constructor
    · exact List.forall_mem_cons.2 ⟨(inner hrunning hasked hq hfree).number_mem, hdescent.among⟩
    · exact List.forall_mem_cons.2 ⟨hv.trans hw, hdescent.leads⟩
    · exact List.pairwise_cons.2 ⟨hbelow, hdescent.descends⟩
    · exact List.pairwise_cons.2 ⟨hother, hdescent.distinct⟩

/-- A chain of frames of programs that only test is no longer than the number of programs, once
for each depth of the value. -/
theorem length_le (hbindings : bindings.OnlyTest) (hv₀ : v₀.Ordered)
    (h : Running bindings context l₀ v₀ frames p v) :
    frames.length ≤ (bindings.programsFrom l₀).ncard * (v₀.depth + 1) := by
  have hfinite : (bindings.numbersFrom l₀).Finite := (bindings.finite_programsFrom l₀).image _
  have hle := (h.descent hbindings hv₀).2.2.length_le hfinite
  exact hle.trans (Nat.mul_le_mul_right _ (bindings.ncard_numbersFrom_le l₀))

/-- Where no chain is longer than some number, the steps of a running program end within as
many levels as its chain can still grow. -/
theorem steps_end {n : Nat}
    (hbound : ∀ frames q w, Running bindings context l₀ v₀ frames q w → frames.length ≤ n)
    (h : Running bindings context l₀ v₀ frames p v) (hdepth : n < frames.length + depth) :
    ((askSteps context p.steps v).run
      (Callee.call (follow bindings context depth frames))).run.isSome := by
  induction depth generalizing frames p v with
  | zero => exact absurd (hbound _ _ _ h) hdepth.not_ge
  | succ depth ih =>
    refine steps_end_iff.2 fun l w hasked => follow_succ_ends_iff.2 fun q hq hfree => ?_
    apply ih (inner h hasked hq hfree)
    rw [List.length_cons]
    omega

end Running

/-- What a program that only tests asks about is the value of all frames down to one that the
guard takes to be the same. -/
theorem Asking.eq_of_same (hbindings : bindings.OnlyTest) {l₀ l : Link} {v₀ w : Value}
    (hv₀ : v₀.Ordered) {frames : List Frame} (h : Asking bindings context l₀ v₀ frames l w)
    {above below : List Frame} {g : Frame} (hframes : frames = above ++ g :: below) {k : Nat}
    (hsame : g.same (Frame.enter k w) = true) : ∀ f ∈ above ++ [g], f.value = w := by
  obtain ⟨p, v, depth, hrunning, hasked⟩ := h
  obtain ⟨hv, hleads, hdescent⟩ := hrunning.descent hbindings hv₀
  have hw := hrunning.leads_of_asked hbindings (hv.ordered hv₀) hasked
  have hvalue : g.value.same w = true := ((Frame.same_iff _ _).1 hsame).2
  exact hdescent.eq_of_same hframes (fun f hf => (hleads f hf).trans hw) hvalue

/-- Where no chain is longer than some number, a call from outside ends within one level
more. -/
theorem follow_ends_of_chains {l : Link} {v : Value} {n : Nat}
    (hbound : ∀ frames p w, Running bindings context l v frames p w → frames.length ≤ n) :
    (follow bindings context (n + 1) [] l v).run.isSome := by
  refine follow_succ_ends_iff.2 fun p hp _ => ?_
  apply Running.steps_end hbound (.outer hp)
  rw [List.length_singleton]
  omega

end Rulebook
