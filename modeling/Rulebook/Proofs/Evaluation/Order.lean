import Rulebook.Evaluation
import Rulebook.Proofs.Evaluation.Steps

/-!
# Runs that go further

A run is below another if it has not ended or both end alike.  Everything that
steps do with runs respects this order, so that steps whose callees go further
go further themselves.  The statement is about two lists of steps that differ
only in what they call: one lemma for each function of the evaluation, and
`runSteps_below` for all of them.

The first use is that a call followed to a greater depth goes further.
-/

namespace Rulebook

variable {α β γ δ : Type}

namespace Run

/-- The first run has not ended, or both end alike. -/
def Below (x y : Run α) : Prop := x = unfinished ∨ x = y

namespace Below

theorem refl (x : Run α) : Below x x := Or.inr rfl

theorem trans {x y z : Run α} (h : Below x y) (k : Below y z) : Below x z := by
  rcases h with h | h
  · exact Or.inl h
  · rw [h]
    exact k

theorem run_eq {x y : Run α} (h : Below x y) {o : Except ValidationError α}
    (hx : x.run = some o) : y.run = some o := by
  rcases h with h | h
  · rw [h] at hx
    exact absurd hx (by simp [unfinished, ExceptT.run, ExceptT.mk])
  · rw [← h]
    exact hx

theorem antisymm {x y : Run α} (h : Below x y) (k : Below y x) : x = y := by
  rcases h with h | h
  · rcases k with k | k
    · rw [h, k]
    · exact k.symm
  · exact h

theorem bind {x y : Run α} {f g : α → Run β} (h : Below x y)
    (hf : ∀ a, Below (f a) (g a)) : Below (x >>= f) (y >>= g) := by
  rcases h with h | h
  · left
    rw [h]
    rfl
  · subst h
    match x with
    | none => exact Or.inl rfl
    | some (.error e) => exact Or.inr rfl
    | some (.ok a) => exact hf a

theorem attempt {x y : Run α} (h : Below x y) : Below x.attempt y.attempt := by
  rcases h with h | h
  · left
    rw [h]
    rfl
  · rw [h]
    exact refl _

theorem under {x y : Run α} (h : Below x y) (segment : PathSegment) :
    Below (x.under segment) (y.under segment) := by
  rcases h with h | h
  · left
    rw [h]
    rfl
  · rw [h]
    exact refl _

theorem foldlM {R : γ → δ → Prop} {f : α → γ → Run α} {g : α → δ → Run α}
    (hfg : ∀ a c d, R c d → Below (f a c) (g a d)) {cs : List γ} {ds : List δ}
    (h : List.Forall₂ R cs ds) (a : α) : Below (cs.foldlM f a) (ds.foldlM g a) := by
  induction h generalizing a with
  | nil => exact refl _
  | cons hcd _ ih =>
    rw [List.foldlM_cons, List.foldlM_cons]
    exact bind (hfg a _ _ hcd) ih

theorem mapM {R : γ → δ → Prop} {f : γ → Run α} {g : δ → Run α}
    (hfg : ∀ c d, R c d → Below (f c) (g d)) {cs : List γ} {ds : List δ}
    (h : List.Forall₂ R cs ds) : Below (cs.mapM f) (ds.mapM g) := by
  induction h with
  | nil => exact refl _
  | cons hcd _ ih =>
    rw [List.mapM_cons, List.mapM_cons]
    exact bind (hfg _ _ hcd) fun a => bind ih fun _ => refl _

end Below

end Run

/-! ## Steps -/

open Run

variable {R : γ → δ → Prop} {call : Call γ} {call' : Call δ}
  (hcall : ∀ c d, R c d → ∀ v, Below (call c v) (call' d v))
include hcall

namespace OpenRule

theorem key_below {o : OpenRule γ} {p : OpenRule δ} (h : OpenRule.Rel R o p) (k : Value) :
    Below (o.key call k) (p.key call' k) := by
  obtain ⟨keys, values⟩ := o
  obtain ⟨keys', values'⟩ := p
  cases h.keys with
  | none => exact Below.refl _
  | some hcd => exact (hcall _ _ hcd k).attempt.bind fun _ => Below.refl _

theorem value_below {o : OpenRule γ} {p : OpenRule δ} (h : OpenRule.Rel R o p) (v : Value) :
    Below (o.value call v) (p.value call' v) := by
  obtain ⟨keys, values⟩ := o
  obtain ⟨keys', values'⟩ := p
  cases h.values with
  | none => exact Below.refl _
  | some hcd => exact hcall _ _ hcd v

end OpenRule

theorem Entry.apply_below {e : Entry γ} {f : Entry δ} (h : Entry.Rel R e f)
    (context : Option Context) (input out : Entries Value) :
    Below (e.apply call context input out) (f.apply call' context input out) := by
  have hfind : e.find? input = f.find? input := by
    simp only [Entry.find?, Entry.names, h.key, h.synonyms]
  rw [Entry.apply, Entry.apply, hfind, h.output, h.default, h.required, h.key]
  cases f.find? input with
  | none => exact Below.refl _
  | some found => exact ((hcall _ _ h.callee _).under _).bind fun _ => Below.refl _

namespace MappingItems

omit hcall in
theorem declares_eq {m : MappingItems γ} {n : MappingItems δ} (h : MappingItems.Rel R m n)
    (key : String) : m.declares key = n.declares key := by
  have hentries := h.entries
  rw [declares, declares]
  generalize m.entries = es, n.entries = fs at hentries
  induction hentries with
  | nil => rfl
  | cons hef _ ih => rw [List.any_cons, List.any_cons, ih, hef.key, hef.synonyms]

omit hcall in
theorem find?_pattern {m : MappingItems γ} {n : MappingItems δ} (h : MappingItems.Rel R m n)
    (key : String) :
    Option.Rel (PatternEntry.Rel R) (m.patterns.find? fun p => p.pattern.accepts key)
      (n.patterns.find? fun p => p.pattern.accepts key) := by
  have hpatterns := h.patterns
  generalize m.patterns = ps, n.patterns = qs at hpatterns
  induction hpatterns with
  | nil => exact .none
  | cons hpq _ ih =>
    rw [List.find?_cons, List.find?_cons, hpq.pattern]
    split
    · exact .some hpq
    · exact ih

theorem applyPattern_below {m : MappingItems γ} {n : MappingItems δ}
    (h : MappingItems.Rel R m n) (key : String) (v : Value) (out : Entries Value) :
    Below (m.applyPattern call key v out) (n.applyPattern call' key v out) := by
  have hfind := find?_pattern h key
  rw [applyPattern, applyPattern]
  revert hfind
  generalize m.patterns.find? _ = found, n.patterns.find? _ = found'
  intro hfind
  cases hfind with
  | none => exact Below.refl _
  | some hpq =>
    dsimp only
    rw [hpq.rename]
    exact ((hcall _ _ hpq.callee v).under _).bind fun _ => Below.refl _

theorem applyOpen_below {m : MappingItems γ} {n : MappingItems δ}
    (h : MappingItems.Rel R m n) (key : String) (v : Value) (out : Entries Value) :
    Below (m.applyOpen call key v out) (n.applyOpen call' key v out) := by
  have hopen := h.openRule
  rw [applyOpen, applyOpen]
  revert hopen
  generalize m.openRule = o, n.openRule = p
  intro hopen
  cases hopen with
  | none => exact Below.refl _
  | some hop =>
    refine (OpenRule.key_below hcall hop _).bind fun output => ?_
    cases output with
    | none => exact Below.refl _
    | some output =>
      exact ((OpenRule.value_below hcall hop v).under _).bind fun _ => Below.refl _

theorem applyOther_below {m : MappingItems γ} {n : MappingItems δ}
    (h : MappingItems.Rel R m n) (p : Progress) (e : String × Value) :
    Below (m.applyOther call p e) (n.applyOther call' p e) := by
  rw [applyOther, applyOther, declares_eq h]
  split
  · exact Below.refl _
  · refine (applyPattern_below hcall h _ _ _).bind fun claimed => ?_
    cases claimed with
    | some out => exact Below.refl _
    | none =>
      refine (applyOpen_below hcall h _ _ _).bind fun claimed => ?_
      exact Below.refl _

theorem apply_below {m : MappingItems γ} {n : MappingItems δ} (h : MappingItems.Rel R m n)
    (context : Option Context) (input : Entries Value) :
    Below (m.apply call context input) (n.apply call' context input) := by
  have hinitial : m.initial input = n.initial input := by rw [initial, initial, h.policy]
  rw [apply, apply, hinitial, h.policy]
  refine (Below.foldlM (fun out e f hef => ?_) h.entries _).bind fun declared => ?_
  · exact Entry.apply_below hcall hef context input out
  refine (Below.foldlM (fun p e f hef => ?_) (List.forall₂_same.2 fun e _ => rfl) _).bind
    fun p => Below.refl _
  rw [hef]
  exact applyOther_below hcall h p f

end MappingItems

namespace SequenceItems

theorem apply_below {s : SequenceItems γ} {t : SequenceItems δ}
    (h : OpenRule.Rel R s.openRule t.openRule) (input : List Value) :
    Below (s.apply call input) (t.apply call' input) := by
  refine Below.bind (Below.mapM (fun e f hef => ?_)
    (List.forall₂_same.2 fun e _ => rfl)) fun _ => Below.refl _
  rw [hef, element, element]
  refine (OpenRule.key_below hcall h _).bind fun output => ?_
  cases output with
  | none => exact Below.refl _
  | some _ => exact (OpenRule.value_below hcall h f.1).under _

end SequenceItems

theorem Structure.apply_below {s : Structure γ} {t : Structure δ} (h : Structure.Rel R s t)
    (context : Option Context) (v : Value) :
    Below (s.apply call context v) (t.apply call' context v) := by
  obtain ⟨mapping, sequence⟩ := s
  obtain ⟨mapping', sequence'⟩ := t
  obtain ⟨hmapping, hsequence⟩ := h
  cases hmapping with
  | none =>
    cases hsequence with
    | none => cases v <;> exact Below.refl _
    | some hseq =>
      cases v with
      | list xs => exact SequenceItems.apply_below hcall hseq xs
      | _ => exact Below.refl _
  | some hmap =>
    cases hsequence with
    | none =>
      cases v with
      | mapping es => exact MappingItems.apply_below hcall hmap context es
      | _ => exact Below.refl _
    | some hseq =>
      cases v with
      | mapping es => exact MappingItems.apply_below hcall hmap context es
      | list xs => exact SequenceItems.apply_below hcall hseq xs
      | _ => exact Below.refl _

theorem firstOf_below {bs : List γ} {cs : List δ} (h : List.Forall₂ R bs cs) (v : Value)
    (reports : List String) : Below (firstOf call v bs reports) (firstOf call' v cs reports) := by
  induction h generalizing reports with
  | nil => exact Below.refl _
  | cons hbc _ ih =>
    refine (hcall _ _ hbc v).attempt.bind fun outcome => ?_
    cases outcome with
    | ok w => exact Below.refl _
    | error e => exact ih _

theorem onlyOf_below {bs : List γ} {cs : List δ} (h : List.Forall₂ R bs cs) (v : Value) :
    Below (onlyOf call v bs) (onlyOf call' v cs) :=
  (Below.mapM (fun c d hcd => (hcall c d hcd v).attempt) h).bind fun _ => Below.refl _

theorem Step.apply_below {s : Step γ} {t : Step δ} (h : Step.Rel R s t)
    (context : Option Context) (v : Value) :
    Below (s.apply call context v) (t.apply call' context v) := by
  cases h with
  | check c => exact Below.refl _
  | members h => exact (Structure.apply_below hcall h context v).bind fun _ => Below.refl _
  | anyOf h => exact (firstOf_below hcall h v []).bind fun _ => Below.refl _
  | oneOf h => exact (onlyOf_below hcall h v).bind fun _ => Below.refl _
  | refer h => exact (hcall _ _ h v).bind fun _ => Below.refl _

theorem runSteps_below {ss : List (Step γ)} {ts : List (Step δ)}
    (h : List.Forall₂ (Step.Rel R) ss ts) (context : Option Context) (v : Value) :
    Below (runSteps call context ss v) (runSteps call' context ts v) := by
  induction h generalizing v with
  | nil => exact Below.refl _
  | cons hst _ ih =>
    refine (Step.apply_below hcall hst context v).bind fun flow => ?_
    cases flow with
    | next w => exact ih w
    | done w => exact Below.refl _

omit hcall in
/-- Steps whose callees do the same do the same. -/
theorem runSteps_eq (heq : ∀ c d, R c d → ∀ v, call c v = call' d v) {ss : List (Step γ)}
    {ts : List (Step δ)} (h : List.Forall₂ (Step.Rel R) ss ts) (context : Option Context)
    (v : Value) : runSteps call context ss v = runSteps call' context ts v := by
  refine Below.antisymm ?_ ?_
  · exact runSteps_below (fun c d hcd v => Or.inr (heq c d hcd v)) h context v
  · refine runSteps_below (R := fun d c => R c d)
      (fun d c hcd v => Or.inr (heq c d hcd v).symm) ?_ context v
    exact h.flip.imp fun _ _ hst => hst.flip

/-! ## Deeper calls -/

omit hcall in
theorem Callee.call_below {follow follow' : Link → Value → Run Value}
    (h : ∀ l v, Below (follow l v) (follow' l v)) (c : Callee) (v : Value) :
    Below (c.call follow v) (c.call follow' v) := by
  cases c with
  | pass => exact Below.refl _
  | link l => exact h l v

omit hcall in
/-- Steps go as far as the links that they follow. -/
theorem runSteps_call_below {follow follow' : Link → Value → Run Value}
    (h : ∀ l v, Below (follow l v) (follow' l v)) (context : Option Context)
    (ss : List (Step Callee)) (v : Value) :
    Below (runSteps (Callee.call follow) context ss v)
      (runSteps (Callee.call follow') context ss v) := by
  refine runSteps_below (R := Eq) (fun c d hcd v => ?_) (Step.Rel.forall₂Refl ss) context v
  rw [hcd]
  exact Callee.call_below h d v

omit hcall in
theorem follow_below_succ (bindings : Bindings) (context : Option Context) (depth : Nat)
    (frames : List Frame) (l : Link) (v : Value) :
    Below (follow bindings context depth frames l v)
      (follow bindings context (depth + 1) frames l v) := by
  induction depth generalizing frames l v with
  | zero => exact Or.inl rfl
  | succ depth ih =>
    rw [follow, follow]
    split
    · rw [Program.run, Program.run]
      split
      · exact Below.refl _
      · exact runSteps_call_below (ih _) context _ v
    · exact Below.refl _

omit hcall in
/-- A call followed to a greater depth goes further. -/
theorem follow_below {depth depth' : Nat} (h : depth ≤ depth') (bindings : Bindings)
    (context : Option Context) (frames : List Frame) (l : Link) (v : Value) :
    Below (follow bindings context depth frames l v)
      (follow bindings context depth' frames l v) := by
  induction h with
  | refl => exact Below.refl _
  | step _ ih => exact ih.trans (follow_below_succ bindings context _ frames l v)

omit hcall in
/-- An outcome stays what it is to every greater depth. -/
theorem evaluate_of_le {depth depth' : Nat} (h : depth ≤ depth') {bindings : Bindings}
    {context : Option Context} {l : Link} {v : Value} {o : Except ValidationError Value}
    (ho : evaluate depth bindings context l v = some o) :
    evaluate depth' bindings context l v = some o :=
  (follow_below h bindings context [] l v).run_eq ho

end Rulebook
