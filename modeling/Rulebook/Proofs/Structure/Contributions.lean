import Rulebook.Proofs.Evaluation.Passing

/-!
# What goes into a mapping

Each declared entry and each other member of the input contributes at most one
member of the result, and what it contributes does not depend on the result so
far.  So a mapping is checked in two stages: the contributions are worked out in
order, and then they are written.

Writing a contribution removes the key that it was found under, unless it goes
there itself.  If an earlier contribution went to that key, it is lost.  Where no
two contributions go to one key nothing else can happen to them.
-/

namespace Rulebook

open Run

variable {α β γ δ : Type}

/-! ## Contributions -/

/-- A member of the result. -/
structure Contribution where
  /-- The key that it was found under, if it was found. -/
  source : Option String
  output : String
  value : Value

/-- The result so far with a contribution in it. -/
def Contribution.write (out : Entries Value) (c : Contribution) : Entries Value :=
  match c.source with
  | some k => store k c.output c.value out
  | none => Entries.insert c.output c.value out

/-- What becomes of a member of the input after the declared entries. -/
inductive Reception where
  | declared
  | claimed (c : Contribution)
  | unclaimed (key : String)

namespace Reception

/-- The contribution of the member, if it makes one. -/
def contribution? : Reception → Option Contribution
  | claimed c => some c
  | _ => none

/-- The key of the member, if nothing claims it. -/
def unclaimed? : Reception → Option String
  | unclaimed key => some key
  | _ => none

end Reception

namespace Entry

/-- What a declared entry contributes. -/
def contribution? (call : Call γ) (context : Option Context) (input : Entries Value)
    (e : Entry γ) : Run (Option Contribution) :=
  match e.find? input with
  | some (k, v) => do
      let w ← (call e.callee v).under (.key k)
      pure (some ⟨some k, e.output, w⟩)
  | none =>
      match e.default with
      | some d => do
          let w ← d.resolve context
          pure (some ⟨none, e.output, w⟩)
      | none =>
          if e.required then (Run.fail .missing).under (.key e.key) else pure none

end Entry

namespace MappingItems

/-- What becomes of a member of the input after the declared entries: it is left
to the first matching pattern, or else to the open rule. -/
def receive (m : MappingItems γ) (call : Call γ) (e : String × Value) : Run Reception :=
  if m.declares e.1 then pure .declared
  else
    match m.patterns.find? fun p => p.pattern.accepts e.1 with
    | some p => do
        let w ← (call p.callee e.2).under (.key e.1)
        pure (.claimed ⟨some e.1, p.rename.getD e.1, w⟩)
    | none =>
        match m.openRule with
        | none => pure (.unclaimed e.1)
        | some r => do
            match ← r.key call (.text e.1) with
            | none => pure (.unclaimed e.1)
            | some output => do
                let w ← (r.value call e.2).under (.key e.1)
                pure (.claimed ⟨some e.1, keyText output, w⟩)

/-- All contributions in the order in which they are written, and the keys that
nothing claims. -/
def survey (m : MappingItems γ) (call : Call γ) (context : Option Context)
    (input : Entries Value) : Run (List Contribution × List String) := do
  let found ← m.entries.mapM (Entry.contribution? call context input)
  let received ← input.mapM (m.receive call)
  pure (found.reduceOption ++ received.filterMap Reception.contribution?,
    received.filterMap Reception.unclaimed?)

end MappingItems

/-! ## Two stages -/

/-- A fold whose steps do not look at what is folded so far is a traversal
followed by a pure fold. -/
theorem Run.foldlM_eq_mapM (f : α → Run β) (g : δ → β → δ) (xs : List α) (d : δ) :
    xs.foldlM (fun d x => do let y ← f x; pure (g d y)) d =
      (do let ys ← xs.mapM f; pure (ys.foldl g d)) := by
  induction xs generalizing d with
  | nil => rw [List.foldlM_nil, List.mapM_nil, pure_bind, List.foldl_nil]
  | cons x xs ih =>
    simp only [List.foldlM_cons, List.mapM_cons, bind_assoc, pure_bind, ih, List.foldl_cons]

/-- The result so far with what an entry contributes, if it does. -/
def Contribution.writeIf (out : Entries Value) (c : Option Contribution) : Entries Value :=
  c.elim out (write out)

/-- The progress after a member of the input. -/
def MappingItems.Progress.after (p : Progress) : Reception → Progress
  | .declared => p
  | .claimed c => { p with out := c.write p.out }
  | .unclaimed key => { p with unclaimed := p.unclaimed ++ [key] }

variable {call : Call γ} {context : Option Context} {input : Entries Value}

theorem Entry.apply_eq_write (e : Entry γ) (out : Entries Value) :
    Entry.apply call context input out e = (do
      let c ← e.contribution? call context input
      pure (Contribution.writeIf out c)) := by
  rw [Entry.apply, contribution?]
  cases e.find? input with
  | some found =>
    simp only [bind_assoc, pure_bind]
    rfl
  | none =>
    cases e.default with
    | some d =>
      simp only [bind_assoc, pure_bind]
      rfl
    | none => cases e.required <;> rfl

namespace MappingItems

variable {m : MappingItems γ}

theorem applyOther_eq_after (p : Progress) (e : String × Value) :
    m.applyOther call p e = (do
      let r ← m.receive call e
      pure (p.after r)) := by
  rw [applyOther, receive]
  split
  · rfl
  · rw [applyPattern]
    cases m.patterns.find? fun p => p.pattern.accepts e.1 with
    | some q =>
      simp only [bind_assoc, pure_bind]
      rfl
    | none =>
      rw [pure_bind, applyOpen]
      cases m.openRule with
      | none => rfl
      | some r =>
        simp only [bind_assoc]
        apply bind_congr
        rintro (_ | output)
        · rfl
        · simp only [bind_assoc, pure_bind]
          rfl

theorem out_foldl_after (p : Progress) (rs : List Reception) :
    (rs.foldl Progress.after p).out =
      (rs.filterMap Reception.contribution?).foldl Contribution.write p.out := by
  induction rs generalizing p with
  | nil => rfl
  | cons r rs ih =>
    rw [List.foldl_cons, ih]
    cases r <;> rfl

theorem unclaimed_foldl_after (p : Progress) (rs : List Reception) :
    (rs.foldl Progress.after p).unclaimed =
      p.unclaimed ++ rs.filterMap Reception.unclaimed? := by
  induction rs generalizing p with
  | nil => exact (List.append_nil _).symm
  | cons r rs ih =>
    rw [List.foldl_cons, ih]
    cases r with
    | unclaimed key => exact List.append_assoc ..
    | _ => rfl

theorem foldl_writeIf (out : Entries Value) (cs : List (Option Contribution)) :
    cs.foldl Contribution.writeIf out = cs.reduceOption.foldl Contribution.write out := by
  induction cs generalizing out with
  | nil => rfl
  | cons c cs ih =>
    rw [List.foldl_cons, ih]
    cases c <;> rfl

/-- A mapping is checked by working out all contributions and then writing them. -/
theorem apply_eq_survey (m : MappingItems γ) (call : Call γ) (context : Option Context)
    (input : Entries Value) :
    m.apply call context input = (do
      let (cs, unclaimed) ← m.survey call context input
      if m.policy = .forbid ∧ unclaimed ≠ [] then Run.fail (.unknownKeys unclaimed)
      else pure (.mapping (cs.foldl Contribution.write (m.initial input)))) := by
  have hentries : Entry.apply call context input = fun out e => (do
      let c ← e.contribution? call context input
      pure (Contribution.writeIf out c)) := by
    funext out e
    exact e.apply_eq_write out
  have hothers : m.applyOther call = fun p e => (do
      let r ← m.receive call e
      pure (p.after r)) := by
    funext p e
    exact applyOther_eq_after p e
  rw [apply, survey, hentries, hothers]
  simp only [Run.foldlM_eq_mapM, bind_assoc, pure_bind, out_foldl_after, unclaimed_foldl_after,
    foldl_writeIf, List.foldl_append, List.nil_append]

end MappingItems

/-! ## What is kept -/

namespace Contribution

theorem lookup_write (c : Contribution) (out : Entries Value) (key : String) :
    Entries.lookup key (c.write out) =
      if c.output = key then some c.value
      else if c.source = some key then none else Entries.lookup key out := by
  rw [write]
  split
  · rename_i k hsource
    rw [hsource, store, Entries.lookup_insert]
    by_cases hkey : c.output = key
    · rw [if_pos hkey, if_pos hkey]
    · rw [if_neg hkey, if_neg hkey]
      by_cases hout : k = c.output
      · have hne : ¬ some k = some key := fun h => hkey (hout.symm.trans (Option.some.inj h))
        rw [if_pos hout, if_neg hne]
      · rw [if_neg hout, Entries.lookup_erase]
        simp only [Option.some.injEq]
  · rename_i hsource
    rw [hsource, Entries.lookup_insert, if_neg (Option.some_ne_none key).symm]

theorem mem_write {c : Contribution} {out : Entries Value} {e : String × Value}
    (h : e ∈ c.write out) : e = (c.output, c.value) ∨ e ∈ out := by
  rw [write] at h
  split at h
  · rw [store] at h
    refine (Entries.mem_insert h).imp_right fun hmem => ?_
    split at hmem
    · exact hmem
    · exact Entries.mem_of_mem_erase hmem
  · exact Entries.mem_insert h

/-- What is written is a contribution, or was there before. -/
theorem mem_foldl_write {cs : List Contribution} {out : Entries Value} {e : String × Value}
    (h : e ∈ cs.foldl write out) : (∃ c ∈ cs, e = (c.output, c.value)) ∨ e ∈ out := by
  induction cs generalizing out with
  | nil => exact Or.inr h
  | cons c cs ih =>
    rw [List.foldl_cons] at h
    rcases ih h with ⟨d, hd, heq⟩ | hmem
    · exact Or.inl ⟨d, List.mem_cons_of_mem _ hd, heq⟩
    · exact (mem_write hmem).imp_left fun heq => ⟨c, List.mem_cons_self .., heq⟩

theorem sorted_foldl_write (cs : List Contribution) {out : Entries Value}
    (h : Entries.Sorted out) : Entries.Sorted (cs.foldl write out) := by
  induction cs generalizing out with
  | nil => exact h
  | cons c cs ih =>
    rw [List.foldl_cons]
    apply ih
    rw [write]
    split
    · rw [store]
      apply Entries.sorted_insert
      split
      · exact h
      · exact Entries.sorted_erase h _
    · exact Entries.sorted_insert h _ _

/-- The contribution goes to the key, or was found under it. -/
def Touches (c : Contribution) (key : String) : Prop := c.output = key ∨ c.source = some key

/-- Contributions that touch a key make it the same in every result; others leave it. -/
theorem lookup_foldl_write_congr {cs : List Contribution} {out out' : Entries Value} {key : String}
    (h : (∃ c ∈ cs, c.Touches key) ∨ Entries.lookup key out = Entries.lookup key out') :
    Entries.lookup key (cs.foldl write out) = Entries.lookup key (cs.foldl write out') := by
  induction cs generalizing out out' with
  | nil =>
    rcases h with ⟨c, hc, -⟩ | h
    · cases hc
    · exact h
  | cons c cs ih =>
    rw [List.foldl_cons, List.foldl_cons]
    apply ih
    rcases h with ⟨d, hd, htouches⟩ | h
    · rcases List.mem_cons.1 hd with rfl | hd
      · right
        rw [lookup_write, lookup_write]
        rcases htouches with houtput | hsource
        · rw [if_pos houtput, if_pos houtput]
        · rw [if_pos hsource, if_pos hsource]
      · exact Or.inl ⟨d, hd, htouches⟩
    · right
      rw [lookup_write, lookup_write, h]

/-- A key that no contribution goes to is removed by any that was found under it. -/
theorem lookup_foldl_write {cs : List Contribution} (out : Entries Value) {key : String}
    (h : ∀ c ∈ cs, c.output ≠ key) :
    Entries.lookup key (cs.foldl write out) =
      if key ∈ cs.filterMap source then none else Entries.lookup key out := by
  induction cs generalizing out with
  | nil => rfl
  | cons c cs ih =>
    have hrest := ih (c.write out) fun d hd => h d (List.mem_cons_of_mem _ hd)
    rw [List.foldl_cons, hrest, lookup_write, if_neg (h c (List.mem_cons_self ..))]
    by_cases hsource : c.source = some key
    · rw [if_pos hsource, ite_self, if_pos]
      exact List.mem_filterMap.2 ⟨c, List.mem_cons_self .., hsource⟩
    · rw [if_neg hsource]
      have hmem : key ∈ (c :: cs).filterMap source ↔ key ∈ cs.filterMap source := by
        simp [List.mem_filterMap, hsource]
      simp only [hmem]

theorem lookup_foldl_write_of_untouched {cs : List Contribution} (out : Entries Value)
    {key : String} (h : ∀ c ∈ cs, ¬ c.Touches key) :
    Entries.lookup key (cs.foldl write out) = Entries.lookup key out := by
  rw [lookup_foldl_write out fun c hc houtput => h c hc (Or.inl houtput), if_neg]
  intro hmem
  obtain ⟨c, hc, hsource⟩ := List.mem_filterMap.1 hmem
  exact h c hc (Or.inr hsource)

end Contribution

namespace MappingItems

variable {m : MappingItems γ}

/-- Where no two contributions go to one key, the result has the value of each
under its key, unless a later one was found under that key: then the result does
not have the key. -/
theorem lookup_contributed {w : Value} (h : Passes (m.apply call context input) w) :
    ∃ out cs unclaimed, w = .mapping out ∧ Passes (m.survey call context input) (cs, unclaimed) ∧
      ((cs.map Contribution.output).Nodup → ∀ before c after, cs = before ++ c :: after →
        Entries.lookup c.output out =
          if c.output ∈ after.filterMap Contribution.source then none else some c.value) := by
  rw [apply_eq_survey, passes_bind] at h
  obtain ⟨⟨cs, unclaimed⟩, hsurvey, h⟩ := h
  have hwritten : Value.mapping (cs.foldl Contribution.write (m.initial input)) = w := by
    dsimp only at h
    by_cases hforbid : m.policy = .forbid ∧ unclaimed ≠ []
    · rw [if_pos hforbid] at h
      exact (not_passes_fail h).elim
    · rw [if_neg hforbid] at h
      exact passes_pure.1 h
  refine ⟨_, cs, unclaimed, hwritten.symm, hsurvey, ?_⟩
  rintro hnodup before c after rfl
  -- What comes after `c` does not go to its key, so only a removal can follow.
  have hafter : ∀ d ∈ after, d.output ≠ c.output := by
    intro d hd heq
    rw [List.map_append, List.map_cons] at hnodup
    have hnotin := (List.nodup_cons.1 (List.nodup_append.1 hnodup).2.1).1
    exact hnotin (heq ▸ List.mem_map_of_mem hd)
  rw [List.foldl_append, List.foldl_cons, Contribution.lookup_foldl_write _ hafter,
    Contribution.lookup_write, if_pos rfl]

/-- The entry `a` is stored under `b`, and the entry `b` under `c`. -/
def shifted : MappingItems Unit where
  entries := [⟨"a", "b", [], (), none, true⟩, ⟨"b", "c", [], (), none, true⟩]
  patterns := []
  openRule := none
  policy := .forbid

/-- The second entry is found under the key that the first one went to. -/
theorem lookup_contributed_shifted :
    (shifted.survey (fun _ v => pure v) none [("a", .bool true), ("b", .bool false)]).Passes
        ([⟨some "a", "b", .bool true⟩, ⟨some "b", "c", .bool false⟩], []) ∧
      ∃ out, (shifted.apply (fun _ v => pure v) none
          [("a", .bool true), ("b", .bool false)]).Passes (.mapping out) ∧
        Entries.lookup "b" out = none ∧ Entries.lookup "c" out = some (.bool false) := by
  have hpass : (shifted.apply (fun _ v => pure v) none
      [("a", .bool true), ("b", .bool false)]).Passes (.mapping [("c", .bool false)]) := rfl
  have hsurvey : (shifted.survey (fun _ v => pure v) none
      [("a", .bool true), ("b", .bool false)]).Passes
        ([⟨some "a", "b", .bool true⟩, ⟨some "b", "c", .bool false⟩], []) := rfl
  obtain ⟨out, cs, unclaimed, hout, hcs, hlookup⟩ := lookup_contributed hpass
  obtain ⟨rfl, rfl⟩ := Prod.mk.inj (Except.ok.inj (Option.some.inj (hcs.symm.trans hsurvey)))
  refine ⟨hsurvey, out, hout ▸ hpass, ?_, ?_⟩
  · exact hlookup (by decide) [] _ _ rfl
  · exact hlookup (by decide) [_] _ [] rfl

end MappingItems

end Rulebook
