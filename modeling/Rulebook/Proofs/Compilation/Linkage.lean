import Rulebook.Proofs.Compilation.Links

/-!
# Sound linkages

A linkage is what evaluation sees of a registry, or of a compilation under way:
the links of names and rules, the programs bound to links, and the counters for
new ones.  In a sound one different targets have different links, different
programs have different numbers, and the link of a rule is bound to a program
that was compiled from a rule of that identity, unless the rule still waits for
it.

Handing out a link and binding a program keep a linkage sound, and so does leaving
out bindings that are never found.
-/

namespace Rulebook

/-- What a link stands for. -/
inductive Target where
  | name (n : String)
  | rule (i : SchemaId)
deriving DecidableEq

namespace Links

/-- The link of a target. -/
def link (T : Links) : Target → Option Link
  | .name n => T.name n
  | .rule i => T.rule i

/-- One more link. -/
def insert (T : Links) (a : Target) (l : Link) : Links where
  name n := if a = .name n then some l else T.name n
  rule i := if a = .rule i then some l else T.rule i

theorem link_insert (T : Links) (a : Target) (l : Link) (b : Target) :
    (T.insert a l).link b = if a = b then some l else T.link b := by
  cases b <;> rfl

theorem within_insert {T : Links} {a : Target} (hnew : T.link a = none) (l : Link) :
    T.Within (T.insert a l) := by
  have hkeep : ∀ b l', T.link b = some l' → (T.insert a l).link b = some l' := by
    intro b l' hb
    rw [link_insert, if_neg]
    · exact hb
    · rintro rfl
      rw [hnew] at hb
      cases hb
  exact ⟨fun {n l'} hn => hkeep (.name n) l' hn, fun {i l'} hi => hkeep (.rule i) l' hi⟩

end Links

/-- The program of an identity was compiled from a rule of that identity, which
occurred in some batch that was in order. -/
def Built (good : Source → Prop) (T : Links) (i : SchemaId) (p : Program) : Prop :=
  ∃ s features form options, good s ∧ s.Occurs features options ∧ s.FormIs features form ∧
    SchemaId.of s.digest form options = i ∧ p.id = i ∧ s.Emits T features options p

theorem Source.Emits.mono {s : Source} {T U : Links} (h : T.Within U)
    {features : Entries Value} {options : Options} {p : Program}
    (hp : s.Emits T features options p) : s.Emits U features options p := by
  obtain ⟨hbreak, r, plan, hr, hplan, hsteps⟩ := hp
  refine ⟨hbreak, r, plan, hr, hplan, hsteps.imp ?_⟩
  intro a b hab
  exact hab.mono fun _ _ href => href.mono h

theorem Built.mono {good : Source → Prop} {T U : Links} (h : T.Within U) {i : SchemaId}
    {p : Program} (hp : Built good T i p) : Built good U i p := by
  obtain ⟨s, features, form, options, hgood, hocc, hform, hi, hid, hemits⟩ := hp
  exact ⟨s, features, form, options, hgood, hocc, hform, hi, hid, hemits.mono h⟩

theorem Built.imp {good good' : Source → Prop} (h : ∀ s, good s → good' s) {T : Links}
    {i : SchemaId} {p : Program} (hp : Built good T i p) : Built good' T i p := by
  obtain ⟨s, features, form, options, hgood, hbuilt⟩ := hp
  exact ⟨s, features, form, options, h s hgood, hbuilt⟩

/-- Links, the programs bound to them, and the counters for new ones. -/
structure Linkage where
  links : Links
  bindings : Bindings
  nextLink : Nat
  nextProgram : Nat

namespace Linkage

/-- Different targets have different links, and different programs different
numbers. -/
structure Numbered (L : Linkage) : Prop where
  named : ∀ {n l}, L.links.name n = some l → l.name = n
  fresh : ∀ {a l}, L.links.link a = some l → l.number < L.nextLink
  injective : ∀ {a b l l'}, L.links.link a = some l → L.links.link b = some l' →
    l.number = l'.number → a = b
  bound : ∀ {k p}, (k, p) ∈ L.bindings → k < L.nextLink ∧ p.number < L.nextProgram
  numbered : ∀ {k k' p p'}, (k, p) ∈ L.bindings → (k', p') ∈ L.bindings →
    p.number = p'.number → p = p'

/-- The links of rules are bound to what the rules were compiled to, but for
rules that wait. -/
structure Compiled (good : Source → Prop) (L : Linkage) (waiting : List Task) : Prop where
  built : ∀ {i l}, L.links.rule i = some l →
    (∃ p, L.bindings.lookup l.number = some p ∧ Built good L.links i p) ∨
      ∃ task ∈ waiting, task.id = i
  unbound : ∀ task ∈ waiting, L.links.rule task.id = some task.link ∧
    L.bindings.lookup task.link.number = none
  distinct : waiting.Pairwise fun t u => t.id ≠ u.id

variable {good : Source → Prop} {L : Linkage} {waiting : List Task}

theorem mem_of_lookup {α β : Type} [BEq α] [LawfulBEq α] {es : List (α × β)} {a : α} {b : β}
    (h : es.lookup a = some b) : (a, b) ∈ es := by
  induction es with
  | nil => cases h
  | cons e es ih =>
    rw [List.lookup_cons] at h
    split at h
    · rename_i heq
      rw [eq_of_beq heq, ← Option.some.inj h]
      exact List.mem_cons_self ..
    · exact List.mem_cons_of_mem _ (ih h)

theorem Compiled.imp {good' : Source → Prop} (hgood : ∀ s, good s → good' s)
    (h : L.Compiled good waiting) : L.Compiled good' waiting := by
  refine ⟨?_, h.unbound, h.distinct⟩
  intro i l hi
  rcases h.built hi with ⟨p, hp, hbuilt⟩ | hwaits
  · exact Or.inl ⟨p, hp, hbuilt.imp hgood⟩
  · exact Or.inr hwaits

/-! ## New links -/

/-- The linkage with a new link. -/
def withLink (L : Linkage) (a : Target) (l : Link) : Linkage :=
  { L with links := L.links.insert a l, nextLink := L.nextLink + 1 }

theorem link_withLink {a b : Target} {l l' : Link}
    (h : (L.withLink a l).links.link b = some l') :
    (a = b ∧ l = l') ∨ (a ≠ b ∧ L.links.link b = some l') := by
  rw [withLink, Links.link_insert] at h
  split at h
  · rename_i hab
    exact Or.inl ⟨hab, Option.some.inj h⟩
  · rename_i hab
    exact Or.inr ⟨hab, h⟩

theorem Numbered.withLink (h : L.Numbered) {a : Target} {l : Link}
    (hnumber : l.number = L.nextLink) (hname : ∀ n, a = .name n → l.name = n) :
    (L.withLink a l).Numbered := by
  refine {
    named := ?named, fresh := ?fresh, injective := ?injective, bound := ?bound
    numbered := h.numbered }
  case named =>
    intro n l' hn
    rcases link_withLink (b := .name n) hn with ⟨hab, rfl⟩ | ⟨-, hn⟩
    · exact hname n hab
    · exact h.named hn
  case fresh =>
    intro b l' hb
    show l'.number < L.nextLink + 1
    rcases link_withLink hb with ⟨-, rfl⟩ | ⟨-, hb⟩
    · omega
    · have := h.fresh hb
      omega
  case injective =>
    intro b c l₁ l₂ hb hc heq
    rcases link_withLink hb with ⟨hab, rfl⟩ | ⟨-, hb⟩
    · rcases link_withLink hc with ⟨hac, -⟩ | ⟨-, hc⟩
      · exact hab.symm.trans hac
      · have := h.fresh hc
        omega
    · rcases link_withLink hc with ⟨-, rfl⟩ | ⟨-, hc⟩
      · have := h.fresh hb
        omega
      · exact h.injective hb hc heq
  case bound =>
    intro k p hk
    have := h.bound hk
    exact ⟨Nat.lt_succ_of_lt this.1, this.2⟩

theorem Numbered.unbound (h : L.Numbered) {k : Nat} (hk : L.nextLink ≤ k) :
    L.bindings.lookup k = none := by
  cases hlookup : L.bindings.lookup k with
  | none => rfl
  | some p =>
    have hlt := (h.bound (mem_of_lookup hlookup)).1
    omega

theorem Compiled.withName (h : L.Compiled good waiting) {n : String} {l : Link}
    (hnew : L.links.name n = none) : (L.withLink (.name n) l).Compiled good waiting := by
  have hwithin : L.links.Within (L.withLink (.name n) l).links :=
    Links.within_insert (a := .name n) hnew l
  refine ⟨?_, ?_, h.distinct⟩
  · intro i l' hi
    rcases h.built hi with ⟨p, hp, hbuilt⟩ | hwaits
    · exact Or.inl ⟨p, hp, hbuilt.mono hwithin⟩
    · exact Or.inr hwaits
  · intro task htask
    exact ⟨hwithin.rule (h.unbound task htask).1, (h.unbound task htask).2⟩

theorem Compiled.withRule (h : L.Compiled good waiting) (hnumbered : L.Numbered) {task : Task}
    (hnew : L.links.rule task.id = none) (hnumber : task.link.number = L.nextLink) :
    (L.withLink (.rule task.id) task.link).Compiled good (waiting ++ [task]) := by
  have hwithin : L.links.Within (L.withLink (.rule task.id) task.link).links :=
    Links.within_insert (a := .rule task.id) hnew task.link
  refine ⟨?_, ?_, ?_⟩
  · intro i l' hi
    rcases link_withLink (b := .rule i) hi with ⟨hab, -⟩ | ⟨-, hi⟩
    · exact Or.inr ⟨task, List.mem_append_right _ (List.mem_singleton_self _),
        Target.rule.inj hab⟩
    · rcases h.built hi with ⟨p, hp, hbuilt⟩ | ⟨t, ht, hid⟩
      · exact Or.inl ⟨p, hp, hbuilt.mono hwithin⟩
      · exact Or.inr ⟨t, List.mem_append_left _ ht, hid⟩
  · intro t ht
    rcases List.mem_append.1 ht with ht | ht
    · exact ⟨hwithin.rule (h.unbound t ht).1, (h.unbound t ht).2⟩
    · rw [List.mem_singleton.1 ht]
      refine ⟨?_, hnumbered.unbound (Nat.le_of_eq hnumber.symm)⟩
      exact if_pos rfl
  · refine List.pairwise_append.2 ⟨h.distinct, List.pairwise_singleton _ _, ?_⟩
    intro t ht u hu heq
    rw [List.mem_singleton.1 hu] at heq
    have hknown := (h.unbound t ht).1
    rw [heq, hnew] at hknown
    cases hknown

/-! ## Programs -/

/-- The linkage with a program bound to a link. -/
def withProgram (L : Linkage) (k : Nat) (p : Program) (nextProgram : Nat) : Linkage :=
  { L with bindings := (k, p) :: L.bindings, nextProgram }

theorem lookup_cons {α β : Type} [BEq α] [LawfulBEq α] [DecidableEq α] (a b : α) (v : β)
    (es : List (α × β)) :
    ((b, v) :: es).lookup a = if a = b then some v else es.lookup a := by
  rw [List.lookup_cons]
  by_cases h : a = b
  · simp [h]
  · simp [h, beq_eq_false_iff_ne.2 h]

/-- A program that is new, or bound already. -/
def Fits (L : Linkage) (p : Program) (nextProgram : Nat) : Prop :=
  (p.number = L.nextProgram ∧ nextProgram = L.nextProgram + 1) ∨
    (∃ k, (k, p) ∈ L.bindings) ∧ nextProgram = L.nextProgram

theorem Numbered.withProgram (h : L.Numbered) {a : Target} {l : Link} {p : Program}
    {nextProgram : Nat} (hl : L.links.link a = some l) (hp : L.Fits p nextProgram) :
    (L.withProgram l.number p nextProgram).Numbered := by
  have hnext : L.nextProgram ≤ nextProgram := by
    rcases hp with ⟨-, rfl⟩ | ⟨-, rfl⟩ <;> omega
  have hself : p.number < nextProgram := by
    rcases hp with ⟨hp, rfl⟩ | ⟨⟨k, hk⟩, rfl⟩
    · omega
    · exact (h.bound hk).2
  have hsame : ∀ {k p'}, (k, p') ∈ L.bindings → p.number = p'.number → p = p' := by
    intro k p' hk heq
    rcases hp with ⟨hp, -⟩ | ⟨⟨j, hj⟩, -⟩
    · have := (h.bound hk).2
      omega
    · exact h.numbered hj hk heq
  refine {
    named := h.named, fresh := h.fresh, injective := h.injective
    bound := ?bound, numbered := ?numbered }
  case bound =>
    intro k q hq
    rcases List.mem_cons.1 hq with heq | hq
    · cases heq
      exact ⟨h.fresh hl, hself⟩
    · exact ⟨(h.bound hq).1, Nat.lt_of_lt_of_le (h.bound hq).2 hnext⟩
  case numbered =>
    intro k k' q q' hq hq' heq
    rcases List.mem_cons.1 hq with hq | hq
    · cases hq
      rcases List.mem_cons.1 hq' with hq' | hq'
      · cases hq'
        rfl
      · exact hsame hq' heq
    · rcases List.mem_cons.1 hq' with hq' | hq'
      · cases hq'
        exact (hsame hq heq.symm).symm
      · exact h.numbered hq hq' heq

/-- Binding the link of a name leaves rules alone. -/
theorem Compiled.bindName (h : L.Compiled good waiting) (hnumbered : L.Numbered) {n : String}
    {l : Link} (hl : L.links.name n = some l) (p : Program) (nextProgram : Nat) :
    (L.withProgram l.number p nextProgram).Compiled good waiting := by
  have hlookup : ∀ {i l'}, L.links.rule i = some l' →
      (L.withProgram l.number p nextProgram).bindings.lookup l'.number =
        L.bindings.lookup l'.number := by
    intro i l' hi
    refine (lookup_cons _ _ _ _).trans (if_neg ?_)
    intro heq
    have hab : Target.rule i = Target.name n := hnumbered.injective hi hl heq
    cases hab
  refine ⟨?_, ?_, h.distinct⟩
  · intro i l' hi
    rw [hlookup hi]
    exact h.built hi
  · intro task htask
    obtain ⟨hi, hnone⟩ := h.unbound task htask
    exact ⟨hi, (hlookup hi).trans hnone⟩

/-- Binding the link of the first rule that waits. -/
theorem Compiled.finish {task : Task} (h : L.Compiled good (task :: waiting))
    (hnumbered : L.Numbered) {p : Program} (hp : Built good L.links task.id p)
    (nextProgram : Nat) :
    (L.withProgram task.link.number p nextProgram).Compiled good waiting := by
  obtain ⟨hlink, -⟩ := h.unbound task (List.mem_cons_self ..)
  obtain ⟨hother, hdistinct⟩ := List.pairwise_cons.1 h.distinct
  have hlookup : ∀ {i l'}, L.links.rule i = some l' →
      (L.withProgram task.link.number p nextProgram).bindings.lookup l'.number =
        if i = task.id then some p else L.bindings.lookup l'.number := by
    intro i l' hi
    refine (lookup_cons _ _ _ _).trans ?_
    by_cases hid : i = task.id
    · rw [if_pos hid, if_pos]
      rw [hid, hlink] at hi
      rw [← Option.some.inj hi]
    · rw [if_neg hid, if_neg]
      intro heq
      exact hid (Target.rule.inj (hnumbered.injective (a := .rule i) (b := .rule task.id)
        hi hlink heq))
  refine ⟨?_, ?_, hdistinct⟩
  · intro i l' hi
    rw [hlookup hi]
    by_cases hid : i = task.id
    · rw [if_pos hid, hid]
      exact Or.inl ⟨p, rfl, hp⟩
    · rw [if_neg hid]
      rcases h.built hi with hbuilt | ⟨t, ht, hti⟩
      · exact Or.inl hbuilt
      · refine Or.inr ⟨t, ?_, hti⟩
        rcases List.mem_cons.1 ht with rfl | ht
        · exact absurd hti.symm hid
        · exact ht
  · intro t ht
    obtain ⟨hi, hnone⟩ := h.unbound t (List.mem_cons_of_mem _ ht)
    refine ⟨hi, ?_⟩
    rw [hlookup hi, if_neg (hother t ht).symm]
    exact hnone

/-! ## Bindings that are never found -/

/-- The first linkage is the second one without some of the bindings that are not
found in it. -/
structure Agrees (L M : Linkage) : Prop where
  links : L.links = M.links
  subset : L.bindings ⊆ M.bindings
  lookup : ∀ k, L.bindings.lookup k = M.bindings.lookup k
  nextLink : L.nextLink = M.nextLink
  nextProgram : L.nextProgram = M.nextProgram

variable {M : Linkage}

theorem Numbered.of_agrees (h : L.Agrees M) (hM : M.Numbered) : L.Numbered where
  named hl := hM.named (h.links ▸ hl)
  fresh hl := h.nextLink ▸ hM.fresh (h.links ▸ hl)
  injective hl hl' := hM.injective (h.links ▸ hl) (h.links ▸ hl')
  bound hp := by
    rw [h.nextLink, h.nextProgram]
    exact hM.bound (h.subset hp)
  numbered hp hp' := hM.numbered (h.subset hp) (h.subset hp')

theorem Compiled.of_agrees (h : L.Agrees M) (hM : M.Compiled good waiting) :
    L.Compiled good waiting where
  built {i l} hl := by
    rw [h.links, h.lookup]
    exact hM.built (h.links ▸ hl)
  unbound task htask := by
    rw [h.links, h.lookup]
    exact hM.unbound task htask
  distinct := hM.distinct

end Linkage
end Rulebook
