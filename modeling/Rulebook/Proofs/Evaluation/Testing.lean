import Rulebook.Proofs.Evaluation.Ending
import Rulebook.Proofs.Value.Ordered

/-!
# Programs that only test

A step only tests if it replaces nothing: it coerces and remaps no value, puts no substitute
in the place of null or of an absent entry, stores no member under another key, and leaves no
key out.  Containers are put together again member by member, and are what they were.

A program of such steps, all of whose calls give back what they were given, gives back what it
was given; so do all programs that call each other, if all of them only test.
-/

namespace Rulebook

open Run

variable {α β γ δ : Type}

/-! ## Runs along lists -/

/-- What every step of a fold keeps holds at its end. -/
theorem Run.Passes.foldlM_invariant {f : β → α → Run β} {xs : List α} {b b' : β}
    (h : Passes (xs.foldlM f b) b') (holds : β → Prop) (hb : holds b)
    (hstep : ∀ x ∈ xs, ∀ c c', holds c → Passes (f c x) c' → holds c') : holds b' := by
  induction xs generalizing b with
  | nil =>
    rw [List.foldlM_nil, passes_pure] at h
    rw [← h]
    exact hb
  | cons x xs ih =>
    rw [List.foldlM_cons, passes_bind] at h
    obtain ⟨c, hx, hxs⟩ := h
    have hc := hstep x (List.mem_cons_self ..) b c hb hx
    exact ih hxs hc fun y hy => hstep y (List.mem_cons_of_mem _ hy)

theorem Run.Passes.forall₂_mapM {f : α → Run β} {xs : List α} {ys : List β}
    (h : Passes (xs.mapM f) ys) : List.Forall₂ (fun x y => Passes (f x) y) xs ys := by
  induction xs generalizing ys with
  | nil =>
    rw [List.mapM_nil, passes_pure] at h
    rw [← h]
    exact .nil
  | cons x xs ih =>
    simp only [List.mapM_cons, passes_bind, passes_pure] at h
    obtain ⟨y, hx, zs, hxs, rfl⟩ := h
    exact .cons hx (ih hxs)

/-! ## Steps that only test -/

/-- The check replaces nothing, not even null. -/
structure Check.OnlyTests (c : Check) : Prop where
  keeps : c.keepsValue = true
  null : ∀ fallback post, c = .nullable fallback post → fallback = none ∧ post = none

/-- The entry keeps what it finds under its own key and adds nothing. -/
structure Entry.OnlyTests (e : Entry γ) : Prop where
  output : e.output = e.key
  synonyms : e.synonyms = []
  default : e.default = none

/-- All members stay where they are. -/
structure MappingItems.OnlyTests (m : MappingItems γ) : Prop where
  entries : ∀ e ∈ m.entries, e.OnlyTests
  patterns : ∀ p ∈ m.patterns, p.rename = none
  policy : m.policy ≠ .purge

/-- The step replaces nothing itself. -/
inductive Step.OnlyTests : Step γ → Prop where
  | check {c : Check} (h : c.OnlyTests) : Step.OnlyTests (.check c)
  | members {s : Structure γ} (h : ∀ m, s.mapping = some m → m.OnlyTests) :
      Step.OnlyTests (.members s)
  | anyOf (branches : List γ) : Step.OnlyTests (.anyOf branches)
  | oneOf (branches : List γ) : Step.OnlyTests (.oneOf branches)
  | refer (target : γ) : Step.OnlyTests (.refer target)

section

variable {R : γ → δ → Prop}

theorem MappingItems.OnlyTests.of_rel {m : MappingItems γ} {n : MappingItems δ}
    (hm : m.OnlyTests) (h : MappingItems.Rel R m n) : n.OnlyTests where
  entries := by
    intro f hf
    obtain ⟨e, he, hef⟩ := exists_of_forall₂ h.entries hf
    have hentry := hm.entries e he
    exact ⟨hef.output.symm.trans (hentry.output.trans hef.key),
      hef.synonyms.symm.trans hentry.synonyms, hef.default.symm.trans hentry.default⟩
  patterns := by
    intro q hq
    obtain ⟨p, hp, hpq⟩ := exists_of_forall₂ h.patterns hq
    exact hpq.rename.symm.trans (hm.patterns p hp)
  policy := by
    rw [← h.policy]
    exact hm.policy

/-- What a step calls plays no part in it. -/
theorem Step.OnlyTests.of_rel {s : Step γ} {t : Step δ} (hs : s.OnlyTests)
    (h : Step.Rel R s t) : t.OnlyTests := by
  cases h with
  | check c =>
    cases hs with
    | check hc => exact .check hc
  | members h =>
    cases hs with
    | members hmapping =>
      apply members
      intro n hn
      obtain ⟨m, hm, hmn⟩ := exists_of_forall₂ (forall₂_toList h.mapping)
        (Option.mem_toList.2 hn)
      exact (hmapping m (Option.mem_toList.1 hm)).of_rel hmn
  | anyOf _ => exact .anyOf _
  | oneOf _ => exact .oneOf _
  | refer _ => exact .refer _

end

variable {call : Call γ} {context : Option Context} {v w : Value}

/-! ## Steps whose calls change nothing -/

theorem Check.OnlyTests.flow_eq {c : Check} (hc : c.OnlyTests) {flow : Flow}
    (h : Passes (c.apply context v) flow) : flow = .next v ∨ flow = .done v := by
  cases flow with
  | next w =>
    rw [next_of_keepsValue hc.keeps h]
    exact Or.inl rfl
  | done w =>
    right
    cases c with
    | nullable fallback post =>
      obtain ⟨rfl, rfl⟩ := hc.null fallback post rfl
      cases v with
      | null => exact (passes_pure.1 h).symm
      | _ => cases passes_pure.1 h
    | coerce c => cases hc.keeps
    | postCoerce c => cases hc.keeps
    | remap r => cases hc.keeps
    | _ => cases (passes_demand.1 h).2

/-- What is stored where it was found changes nothing. -/
theorem store_self {input : Entries Value} (hinput : Entries.Sorted input) {k : String}
    (h : Entries.lookup k input = some v) : store k k v input = input := by
  rw [store, if_pos rfl]
  apply Entries.eq_of_lookup_eq (Entries.sorted_insert hinput k v) hinput
  intro l
  rw [Entries.lookup_insert]
  by_cases hl : k = l
  · rw [if_pos hl, ← hl, h]
  · rw [if_neg hl]

theorem passes_onlyOf {branches : List γ} (h : Passes (onlyOf call v branches) w) :
    ∃ b ∈ branches, Passes (call b v) w := by
  obtain ⟨outcomes, houtcomes, h⟩ := passes_bind.1 h
  split at h
  · rename_i u hpassed
    cases passes_pure.1 h
    have hmem : w ∈ outcomes.filterMap Except.toOption := by
      rw [hpassed]
      exact List.mem_singleton_self w
    obtain ⟨o, ho, hw⟩ := List.mem_filterMap.1 hmem
    obtain ⟨b, hb, hcall⟩ := exists_of_forall₂ houtcomes.forall₂_mapM ho
    cases o with
    | error e => cases hw
    | ok u =>
      cases hw
      exact ⟨b, hb, passes_attempt.1 hcall⟩
  · exact (not_passes_fail h).elim

section

variable (hcall : ∀ c w u, w.Ordered → Passes (call c w) u → u = w)
include hcall

theorem OpenRule.key_eq {r : OpenRule γ} {k : Value} (hk : k.Ordered) {o : Option Value}
    (h : Passes (r.key call k) o) : o = none ∨ o = some k := by
  rw [key] at h
  split at h
  · exact Or.inr (passes_pure.1 h).symm
  · obtain ⟨outcome, houtcome, h⟩ := passes_bind.1 h
    cases outcome with
    | ok u =>
      rw [hcall _ _ _ hk (passes_attempt.1 houtcome)] at h
      exact Or.inr (passes_pure.1 h).symm
    | error e => exact Or.inl (passes_pure.1 h).symm

theorem OpenRule.value_eq {r : OpenRule γ} (hv : v.Ordered) (h : Passes (r.value call v) w) :
    w = v := by
  rw [value] at h
  split at h
  · exact (passes_pure.1 h).symm
  · exact hcall _ _ _ hv h

section

variable {input : Entries Value} (hinput : (Value.mapping input).Ordered)
include hinput

theorem Entry.OnlyTests.out_eq {e : Entry γ} (he : e.OnlyTests) {out : Entries Value}
    (h : Passes (e.apply call context input input) out) : out = input := by
  obtain ⟨hsorted, hmembers⟩ := Value.ordered_mapping.1 hinput
  have hnames : e.names = [e.key] := by
    rw [names, he.synonyms, List.nil_append]
  rw [apply] at h
  cases hfind : e.find? input with
  | some found =>
    obtain ⟨k, v⟩ := found
    rw [hfind] at h
    obtain ⟨w, hw, h⟩ := passes_bind.1 h
    rw [find?, hnames] at hfind
    obtain ⟨key, hkey, hfound⟩ := List.exists_of_findSome?_eq_some hfind
    obtain ⟨u, hlookup, heq⟩ := Option.map_eq_some_iff.1 hfound
    cases heq
    cases List.mem_singleton.1 hkey
    have hmem := Entries.mem_of_lookup hlookup
    rw [hcall _ _ _ (hmembers _ hmem) (passes_under.1 hw), he.output,
      store_self hsorted hlookup] at h
    exact (passes_pure.1 h).symm
  | none =>
    rw [hfind, he.default] at h
    dsimp only at h
    split at h
    · exact (not_passes_fail (passes_under.1 h)).elim
    · exact (passes_pure.1 h).symm

namespace MappingItems

variable {m : MappingItems γ} {k : String}

theorem applyPattern_eq (hm : m.OnlyTests) (hmem : (k, v) ∈ input) {o : Option (Entries Value)}
    (h : Passes (m.applyPattern call k v input) o) : o = none ∨ o = some input := by
  obtain ⟨hsorted, hmembers⟩ := Value.ordered_mapping.1 hinput
  rw [applyPattern] at h
  split at h
  · exact Or.inl (passes_pure.1 h).symm
  · rename_i p hp
    obtain ⟨w, hw, h⟩ := passes_bind.1 h
    rw [hcall _ _ _ (hmembers _ hmem) (passes_under.1 hw),
      hm.patterns p (List.mem_of_find?_eq_some hp), Option.getD_none,
      store_self hsorted ((Entries.lookup_eq_some_iff hsorted).2 hmem)] at h
    exact Or.inr (passes_pure.1 h).symm

theorem applyOpen_eq (hmem : (k, v) ∈ input) {o : Option (Entries Value)}
    (h : Passes (m.applyOpen call k v input) o) : o = none ∨ o = some input := by
  obtain ⟨hsorted, hmembers⟩ := Value.ordered_mapping.1 hinput
  rw [applyOpen] at h
  split at h
  · exact Or.inl (passes_pure.1 h).symm
  · obtain ⟨output, houtput, h⟩ := passes_bind.1 h
    have hkey : (Value.text k).Ordered := trivial
    rcases OpenRule.key_eq hcall hkey houtput with rfl | rfl
    · exact Or.inl (passes_pure.1 h).symm
    · obtain ⟨w, hw, h⟩ := passes_bind.1 h
      rw [OpenRule.value_eq hcall (hmembers _ hmem) (passes_under.1 hw), keyText,
        store_self hsorted ((Entries.lookup_eq_some_iff hsorted).2 hmem)] at h
      exact Or.inr (passes_pure.1 h).symm

theorem applyOther_eq (hm : m.OnlyTests) {e : String × Value} (hmem : e ∈ input)
    {p p' : Progress} (hp : p.out = input) (h : Passes (m.applyOther call p e) p') :
    p'.out = input := by
  rw [applyOther] at h
  split at h
  · rw [← passes_pure.1 h]
    exact hp
  · obtain ⟨claimed, hclaimed, h⟩ := passes_bind.1 h
    rw [hp] at hclaimed
    rcases applyPattern_eq hcall hinput hm hmem hclaimed with rfl | rfl
    · obtain ⟨claimed, hclaimed, h⟩ := passes_bind.1 h
      rw [hp] at hclaimed
      rcases applyOpen_eq hcall hinput hmem hclaimed with rfl | rfl
      · rw [← passes_pure.1 h]
        exact hp
      · rw [← passes_pure.1 h]
    · rw [← passes_pure.1 h]

/-- A mapping whose members are only tested is put together as it was. -/
theorem OnlyTests.value_eq (hm : m.OnlyTests) (h : Passes (m.apply call context input) w) :
    w = .mapping input := by
  obtain ⟨declared, hdeclared, h⟩ := passes_bind.1 h
  have hinitial : m.initial input = input := by
    rw [initial]
    split
    · rename_i hpolicy
      exact absurd hpolicy hm.policy
    · rfl
    · rfl
  rw [hinitial] at hdeclared
  have hentries : declared = input := by
    refine hdeclared.foldlM_invariant (· = input) rfl ?_
    intro e he out out' hout hentry
    rw [hout] at hentry
    exact (hm.entries e he).out_eq hcall hinput hentry
  obtain ⟨p, hp, h⟩ := passes_bind.1 h
  have hothers : p.out = input :=
    hp.foldlM_invariant (fun q => q.out = input) hentries fun e he q q' hq hother =>
      applyOther_eq hcall hinput hm he hq hother
  split at h
  · exact (not_passes_fail h).elim
  · rw [← passes_pure.1 h, hothers]

end MappingItems

end

/-- A list whose elements are only tested is put together as it was. -/
theorem SequenceItems.value_eq {s : SequenceItems γ} {xs : List Value}
    (hxs : (Value.list xs).Ordered) (h : Passes (s.apply call xs) w) : w = .list xs := by
  obtain ⟨ys, hys, h⟩ := passes_bind.1 h
  have hordered : ∀ e ∈ xs.zipIdx, e.1.Ordered := fun e he => Value.ordered_list.1 hxs e.1
    (List.mem_of_getElem? (List.mem_zipIdx_iff_getElem?.1 he))
  have helements : List.Forall₂ (fun e y => e.1 = y) xs.zipIdx ys := by
    refine List.Forall₂.imp ?_ ((List.forall₂_and_left _ _).2 ⟨hordered, hys.forall₂_mapM⟩)
    rintro ⟨x, i⟩ y ⟨hx, hy⟩
    obtain ⟨output, houtput, hy⟩ := passes_bind.1 hy
    cases output with
    | none => exact passes_pure.1 hy
    | some output => exact (OpenRule.value_eq hcall hx (passes_under.1 hy)).symm
  rw [← List.forall₂_map_left_iff, List.forall₂_eq_eq_eq, List.zipIdx_map_fst] at helements
  rw [← passes_pure.1 h, helements]

theorem Structure.value_eq {s : Structure γ} (hs : ∀ m, s.mapping = some m → m.OnlyTests)
    (hv : v.Ordered) (h : Passes (s.apply call context v) w) : w = v := by
  obtain ⟨mapping, sequence⟩ := s
  cases mapping with
  | none =>
    cases sequence with
    | none => cases v <;> exact (not_passes_fail h).elim
    | some q =>
      cases v with
      | list xs => exact SequenceItems.value_eq hcall hv h
      | _ => exact (not_passes_fail h).elim
  | some m =>
    cases sequence with
    | none =>
      cases v with
      | mapping es => exact (hs m rfl).value_eq hcall hv h
      | _ => exact (not_passes_fail h).elim
    | some q =>
      cases v with
      | mapping es => exact (hs m rfl).value_eq hcall hv h
      | list xs => exact SequenceItems.value_eq hcall hv h
      | _ => exact (not_passes_fail h).elim

/-- A step that only tests hands on what it was given, or ends the program with it. -/
theorem Step.OnlyTests.flow_eq {s : Step γ} (hs : s.OnlyTests) (hv : v.Ordered) {flow : Flow}
    (h : Passes (s.apply call context v) flow) : flow = .next v ∨ flow = .done v := by
  have hnext : ∀ {x : Run Value}, (∀ w, Passes x w → w = v) →
      Passes (x >>= fun w => pure (Flow.next w)) flow → flow = .next v ∨ flow = .done v := by
    intro x hx h
    obtain ⟨w, hw, h⟩ := passes_bind.1 h
    rw [← passes_pure.1 h, hx w hw]
    exact Or.inl rfl
  cases hs with
  | check hc => exact hc.flow_eq h
  | members hs => exact hnext (fun w hw => Structure.value_eq hcall hs hv hw) h
  | anyOf branches =>
    refine hnext (fun w hw => ?_) h
    obtain ⟨b, -, hb⟩ := passes_firstOf hw
    exact hcall b v w hv hb
  | oneOf branches =>
    refine hnext (fun w hw => ?_) h
    obtain ⟨b, -, hb⟩ := passes_onlyOf hw
    exact hcall b v w hv hb
  | refer target => exact hnext (fun w hw => hcall target v w hv hw) h

/-- Steps that only test give back what they were given. -/
theorem eq_of_passes_steps {ss : List (Step γ)} (hss : ∀ s ∈ ss, s.OnlyTests) (hv : v.Ordered)
    (h : Passes (runSteps call context ss v) w) : w = v := by
  induction ss with
  | nil => exact (passes_pure.1 h).symm
  | cons s rest ih =>
    obtain ⟨flow, hflow, h⟩ := passes_bind.1 h
    rcases (hss s (List.mem_cons_self ..)).flow_eq hcall hv hflow with rfl | rfl
    · exact ih (fun t ht => hss t (List.mem_cons_of_mem _ ht)) h
    · exact (passes_pure.1 h).symm

end

/-! ## Calls -/

/-- All programs only test. -/
def Bindings.OnlyTest (bindings : Bindings) : Prop :=
  ∀ k p, bindings.lookup k = some p → ∀ s ∈ p.steps, s.OnlyTests

variable {bindings : Bindings}

/-- Where all programs only test, what follows a link gives back what it was given.  The
induction is on the depth, since programs may call each other in circles. -/
theorem Bindings.OnlyTest.eq_of_passes (hbindings : bindings.OnlyTest) {depth : Nat}
    {frames : List Frame} {l : Link} (hv : v.Ordered)
    (h : Passes (follow bindings context depth frames l v) w) : w = v := by
  induction depth generalizing frames l v w with
  | zero => exact (not_passes_unfinished h).elim
  | succ depth ih =>
    obtain ⟨p, hp, ⟨-, -, heq⟩ | ⟨-, hsteps⟩⟩ := passes_follow_succ_iff.1 h
    · -- The guard gives back the value as well.
      exact heq.symm
    · refine eq_of_passes_steps (fun c w u hw hu => ?_) (hbindings _ p hp) hv hsteps
      cases c with
      | pass => exact (passes_pure.1 hu).symm
      | link l' => exact ih hw hu

end Rulebook
