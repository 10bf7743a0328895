import Rulebook.Proofs.Coercion.Kinds
import Rulebook.Proofs.Evaluation.Ending
import Rulebook.Proofs.Evaluation.Failing
import Rulebook.Proofs.Value.Ordered

/-!
# Where failures are located

The path of an error leads along keys and indices.  An error points into a value if its path
leads to a place in the value, or to a required key that a mapping in the value lacks.

Up to the step for the members of a container, the steps of a program hand on the value that
they were given, or a scalar, which has no members; after it they fail at the value as a
whole.  So only members of the original value are ever descended into, and what follows a
link fails with errors that point into the value.
-/

namespace Rulebook

open Run

variable {γ δ : Type} {call : Call γ} {context : Option Context} {v w : Value}
  {e : ValidationError}

/-! ## Places in values -/

namespace Value

/-- A path leads to a place: along keys of mappings and indices of lists. -/
inductive Resolves : Value → List PathSegment → Value → Prop where
  | here (v : Value) : Resolves v [] v
  | key {es : Entries Value} {k : String} {v w : Value} {path : List PathSegment}
      (hmem : (k, v) ∈ es) (h : Resolves v path w) : Resolves (.mapping es) (.key k :: path) w
  | index {xs : List Value} {i : Nat} {v w : Value} {path : List PathSegment}
      (hget : xs[i]? = some v) (h : Resolves v path w) :
      Resolves (.list xs) (.index i :: path) w

/-- The value is neither a list nor a mapping. -/
def isScalar : Value → Bool
  | list _ | mapping _ => false
  | _ => true

theorem Resolves.eq_of_isScalar {path : List PathSegment} (h : v.Resolves path w)
    (hv : v.isScalar = true) : path = [] ∧ w = v := by
  cases h with
  | here => exact ⟨rfl, rfl⟩
  | key _ _ => cases hv
  | index _ _ => cases hv

end Value

namespace ValidationError

/-- The path of the error leads to a place in the value, or the error is about a required
key that a mapping in the value lacks. -/
inductive PointsInto (e : ValidationError) (v : Value) : Prop where
  | place {w : Value} (h : v.Resolves e.path w) : PointsInto e v
  | lacking {path : List PathSegment} {k : String} {es : Entries Value}
      (hdetail : e.failure.detail = "is required") (hpath : e.path = path ++ [.key k])
      (h : v.Resolves path (.mapping es)) (hkey : k ∉ Entries.keys es) : PointsInto e v

theorem pointsInto_of_path (h : e.path = []) (v : Value) : e.PointsInto v := by
  apply PointsInto.place (w := v)
  rw [h]
  exact .here v

/-- What points into a member points into the mapping. -/
theorem PointsInto.key {k : String} {es : Entries Value} (h : e.PointsInto v)
    (hmem : (k, v) ∈ es) : (e.within (.key k)).PointsInto (.mapping es) := by
  cases h with
  | place h => exact .place (.key hmem h)
  | @lacking path k' fs hdetail hpath h hkey =>
    have hpath' : (e.within (.key k)).path = (.key k :: path) ++ [.key k'] := congrArg _ hpath
    exact .lacking hdetail hpath' (.key hmem h) hkey

/-- What points into an element points into the list. -/
theorem PointsInto.index {i : Nat} {xs : List Value} (h : e.PointsInto v)
    (hget : xs[i]? = some v) : (e.within (.index i)).PointsInto (.list xs) := by
  cases h with
  | place h => exact .place (.index hget h)
  | @lacking path k' fs hdetail hpath h hkey =>
    have hpath' : (e.within (.index i)).path = (.index i :: path) ++ [.key k'] := congrArg _ hpath
    exact .lacking hdetail hpath' (.index hget h) hkey

/-- What points into a scalar is about the scalar as a whole. -/
theorem PointsInto.path_eq_nil (h : e.PointsInto v) (hv : v.isScalar = true) : e.path = [] := by
  cases h with
  | place h => exact (h.eq_of_isScalar hv).1
  | lacking _ _ h _ =>
    obtain ⟨-, rfl⟩ := h.eq_of_isScalar hv
    cases hv

end ValidationError

open ValidationError

/-! ## Members of containers -/

section

variable (hcall : ∀ c w e, Fails (call c w) e → e.PointsInto w)
include hcall

theorem OpenRule.pointsInto_of_fails {r : OpenRule γ} (h : Fails (r.value call v) e) :
    e.PointsInto v := by
  rw [value] at h
  split at h
  · exact (not_fails_pure h).elim
  · exact hcall _ _ _ h

theorem Entry.pointsInto_of_fails {entry : Entry γ} {input out : Entries Value}
    (h : Fails (entry.apply call context input out) e) : e.PointsInto (.mapping input) := by
  rw [apply] at h
  cases hfind : entry.find? input with
  | some found =>
    obtain ⟨k, v⟩ := found
    rw [hfind] at h
    obtain ⟨e', he', rfl⟩ := fails_under.1 (fails_bind_pure.1 h)
    obtain ⟨key, -, hfound⟩ := List.exists_of_findSome?_eq_some hfind
    obtain ⟨w, hw, heq⟩ := Option.map_eq_some_iff.1 hfound
    cases heq
    exact (hcall _ _ _ he').key (Entries.mem_of_lookup hw)
  | none =>
    rw [hfind] at h
    dsimp only at h
    split at h
    · exact pointsInto_of_path (Substitute.path_of_fails (fails_bind_pure.1 h)) _
    · split at h
      · obtain ⟨e', he', rfl⟩ := fails_under.1 h
        rw [fails_fail.1 he']
        have hnone := List.findSome?_eq_none_iff.1 hfind entry.key
          (List.mem_append_right _ (List.mem_singleton_self _))
        have hkey := Entries.lookup_eq_none_iff.1 (Option.map_eq_none_iff.1 hnone)
        exact .lacking rfl (List.nil_append _).symm (.here _) hkey
      · exact (not_fails_pure h).elim

namespace MappingItems

variable {m : MappingItems γ} {k : String} {input out : Entries Value}

theorem pointsInto_of_fails_pattern (hmem : (k, v) ∈ input)
    (h : Fails (m.applyPattern call k v out) e) : e.PointsInto (.mapping input) := by
  rw [applyPattern] at h
  split at h
  · exact (not_fails_pure h).elim
  · obtain ⟨e', he', rfl⟩ := fails_under.1 (fails_bind_pure.1 h)
    exact (hcall _ _ _ he').key hmem

theorem pointsInto_of_fails_open (hmem : (k, v) ∈ input)
    (h : Fails (m.applyOpen call k v out) e) : e.PointsInto (.mapping input) := by
  rw [applyOpen] at h
  split at h
  · exact (not_fails_pure h).elim
  · rcases fails_bind.1 h with hkey | ⟨output, -, h⟩
    · exact (OpenRule.not_fails_key hkey).elim
    · cases output with
      | none => exact (not_fails_pure h).elim
      | some output =>
        obtain ⟨e', he', rfl⟩ := fails_under.1 (fails_bind_pure.1 h)
        exact (OpenRule.pointsInto_of_fails hcall he').key hmem

theorem pointsInto_of_fails_other {p : Progress} {f : String × Value} (hmem : f ∈ input)
    (h : Fails (m.applyOther call p f) e) : e.PointsInto (.mapping input) := by
  rw [applyOther] at h
  split at h
  · exact (not_fails_pure h).elim
  · rcases fails_bind.1 h with hpattern | ⟨claimed, -, h⟩
    · exact pointsInto_of_fails_pattern hcall hmem hpattern
    · cases claimed with
      | some out => exact (not_fails_pure h).elim
      | none =>
        rcases fails_bind.1 h with hopen | ⟨claimed, -, h⟩
        · exact pointsInto_of_fails_open hcall hmem hopen
        · cases claimed <;> exact (not_fails_pure h).elim

/-- The members of a mapping are checked with errors that point into the mapping. -/
theorem pointsInto_of_fails (h : Fails (m.apply call context input) e) :
    e.PointsInto (.mapping input) := by
  rcases fails_bind.1 h with hentries | ⟨declared, -, h⟩
  · obtain ⟨entry, -, out, hentry⟩ := hentries.mem_foldlM
    exact Entry.pointsInto_of_fails hcall hentry
  · rcases fails_bind.1 h with hothers | ⟨p, -, h⟩
    · obtain ⟨f, hf, p, hother⟩ := hothers.mem_foldlM
      exact pointsInto_of_fails_other hcall hf hother
    · split at h
      · exact pointsInto_of_path (path_of_fails_fail h) _
      · exact (not_fails_pure h).elim

end MappingItems

/-- The elements of a list are checked with errors that point into the list. -/
theorem SequenceItems.pointsInto_of_fails {s : SequenceItems γ} {xs : List Value}
    (h : Fails (s.apply call xs) e) : e.PointsInto (.list xs) := by
  obtain ⟨⟨x, i⟩, hmem, h⟩ := (fails_bind_pure.1 h).mem_mapM
  have hget := List.mem_zipIdx_iff_getElem?.1 hmem
  rcases fails_bind.1 h with hkey | ⟨output, -, h⟩
  · exact (OpenRule.not_fails_key hkey).elim
  · cases output with
    | none => exact (not_fails_pure h).elim
    | some output =>
      obtain ⟨e', he', rfl⟩ := fails_under.1 h
      exact (OpenRule.pointsInto_of_fails hcall he').index hget

theorem Structure.pointsInto_of_fails {s : Structure γ} (h : Fails (s.apply call context v) e) :
    e.PointsInto v := by
  obtain ⟨mapping, sequence⟩ := s
  have hwhole : ∀ {f}, Fails (fail f : Run Value) e → e.PointsInto v := fun h =>
    pointsInto_of_path (path_of_fails_fail h) v
  cases mapping with
  | none =>
    cases sequence with
    | none => cases v <;> exact hwhole h
    | some q =>
      cases v with
      | list xs => exact SequenceItems.pointsInto_of_fails hcall h
      | _ => exact hwhole h
  | some m =>
    cases sequence with
    | none =>
      cases v with
      | mapping es => exact MappingItems.pointsInto_of_fails hcall h
      | _ => exact hwhole h
    | some q =>
      cases v with
      | mapping es => exact MappingItems.pointsInto_of_fails hcall h
      | list xs => exact SequenceItems.pointsInto_of_fails hcall h
      | _ => exact hwhole h

/-- A step fails with errors that point into the value that it was given. -/
theorem Step.pointsInto_of_fails {s : Step γ} (h : Fails (s.apply call context v) e) :
    e.PointsInto v := by
  cases s with
  | check c => exact pointsInto_of_path (Check.path_of_fails h) v
  | members st => exact Structure.pointsInto_of_fails hcall (fails_bind_pure.1 h)
  | anyOf branches => exact pointsInto_of_path (path_of_fails_firstOf (fails_bind_pure.1 h)) v
  | oneOf branches => exact pointsInto_of_path (path_of_fails_onlyOf (fails_bind_pure.1 h)) v
  | refer target => exact hcall _ _ _ (fails_bind_pure.1 h)

end

/-! ## Steps one after the other -/

/-- The built-in coercions lead to scalars. -/
theorem Builtin.isScalar_of_apply {b : Builtin} (h : b.apply v = some w) : w.isScalar = true := by
  have hkind := accepts_of_apply h
  cases w with
  | list xs => cases b <;> cases hkind
  | mapping es => cases b <;> cases hkind
  | _ => rfl

/-- The check hands on the value that it was given, or is a built-in coercion. -/
def Check.HandsOn (c : Check) : Prop := c.keepsValue = true ∨ ∃ b, c = .coerce (.builtin b)

theorem Check.next_of_handsOn {c : Check} (hc : c.HandsOn)
    (h : Passes (c.apply context v) (.next w)) : w = v ∨ w.isScalar = true := by
  rcases hc with hkeeps | ⟨b, rfl⟩
  · exact Or.inl (next_of_keepsValue hkeeps h)
  · right
    obtain ⟨u, hu, hnext⟩ := passes_bind.1 h
    cases passes_pure.1 hnext
    exact Builtin.isScalar_of_apply (Coercer.apply_builtin_eq_ok_iff.1 (Option.some.inj hu))

/-- The step fails at the value as a whole. -/
def Step.isFlat : Step γ → Bool
  | .check _ | .anyOf _ | .oneOf _ => true
  | .members _ | .refer _ => false

theorem Step.path_of_fails {s : Step γ} (hs : s.isFlat = true)
    (h : Fails (s.apply call context v) e) : e.path = [] := by
  cases s with
  | check c => exact Check.path_of_fails h
  | anyOf branches => exact path_of_fails_firstOf (fails_bind_pure.1 h)
  | oneOf branches => exact path_of_fails_onlyOf (fails_bind_pure.1 h)
  | members st => cases hs
  | refer target => cases hs

theorem path_of_fails_steps {ss : List (Step γ)} (hss : ∀ s ∈ ss, s.isFlat = true)
    (h : Fails (runSteps call context ss v) e) : e.path = [] := by
  induction ss generalizing v with
  | nil => exact (not_fails_pure h).elim
  | cons s rest ih =>
    rcases fails_bind.1 h with hstep | ⟨flow, -, h⟩
    · exact Step.path_of_fails (hss s (List.mem_cons_self ..)) hstep
    · cases flow with
      | next w => exact ih (fun t ht => hss t (List.mem_cons_of_mem _ ht)) h
      | done w => exact (not_fails_pure h).elim

/-- The steps hand on the value up to one that may descend into it, and all after that one
fail at the value as a whole. -/
inductive Locating : List (Step γ) → Prop where
  | nil : Locating []
  | handOn {c : Check} {ss : List (Step γ)} (hc : c.HandsOn) (h : Locating ss) :
      Locating (.check c :: ss)
  | descend {s : Step γ} {ss : List (Step γ)} (h : ∀ t ∈ ss, t.isFlat = true) :
      Locating (s :: ss)

namespace Locating

/-- Such steps fail with errors that point into the value they were given. -/
theorem pointsInto_of_fails (hcall : ∀ c w e, Fails (call c w) e → e.PointsInto w)
    {ss : List (Step γ)} (hss : Locating ss) (h : Fails (runSteps call context ss v) e) :
    e.PointsInto v := by
  induction hss generalizing v with
  | nil => exact (not_fails_pure h).elim
  | handOn hc _ ih =>
    rcases fails_bind.1 h with hcheck | ⟨flow, hflow, hrest⟩
    · exact pointsInto_of_path (Check.path_of_fails hcheck) v
    · cases flow with
      | next w =>
        rcases Check.next_of_handsOn hc hflow with rfl | hscalar
        · exact ih hrest
        · -- A scalar has no places inside it, so that the error is about the whole value.
          exact pointsInto_of_path ((ih hrest).path_eq_nil hscalar) v
      | done w => exact (not_fails_pure hrest).elim
  | descend hflat =>
    rcases fails_bind.1 h with hstep | ⟨flow, -, h⟩
    · exact Step.pointsInto_of_fails hcall hstep
    · cases flow with
      | next w => exact pointsInto_of_path (path_of_fails_steps hflat h) v
      | done w => exact (not_fails_pure h).elim

theorem of_flat {ss : List (Step γ)} (h : ∀ s ∈ ss, s.isFlat = true) : Locating ss := by
  cases ss with
  | nil => exact .nil
  | cons s ss => exact .descend fun t ht => h t (List.mem_cons_of_mem _ ht)

theorem append {ss ts : List (Step γ)} (hss : ∀ s ∈ ss, ∃ c, s = .check c ∧ c.HandsOn)
    (h : Locating ts) : Locating (ss ++ ts) := by
  induction ss with
  | nil => exact h
  | cons s ss ih =>
    obtain ⟨c, rfl, hc⟩ := hss s (List.mem_cons_self ..)
    exact .handOn hc (ih fun s hs => hss s (List.mem_cons_of_mem _ hs))

theorem isFlat_of_rel {R : γ → δ → Prop} {s : Step γ} {t : Step δ} (h : Step.Rel R s t)
    (hs : s.isFlat = true) : t.isFlat = true := by
  cases h with
  | check c => rfl
  | anyOf _ => rfl
  | oneOf _ => rfl
  | members _ => cases hs
  | refer _ => cases hs

/-- What the steps call plays no part in it. -/
theorem of_rel {R : γ → δ → Prop} {ss : List (Step γ)} {ts : List (Step δ)} (hss : Locating ss)
    (h : List.Forall₂ (Step.Rel R) ss ts) : Locating ts := by
  induction hss generalizing ts with
  | nil =>
    cases h
    exact .nil
  | handOn hc _ ih =>
    cases h with
    | cons hstep hrest =>
      cases hstep
      exact .handOn hc (ih hrest)
  | descend hflat =>
    cases h with
    | cons hstep hrest =>
      apply descend
      intro t ht
      obtain ⟨s, hs, hst⟩ := exists_of_forall₂ hrest ht
      exact isFlat_of_rel hst (hflat s hs)

end Locating

/-! ## Calls -/

/-- Where all programs are such steps, what follows a link fails with errors that point into
the value. -/
theorem pointsInto_of_fails_follow {bindings : Bindings}
    (hbindings : ∀ k p, bindings.lookup k = some p → Locating p.steps) {depth : Nat}
    {frames : List Frame} {l : Link} (h : Fails (follow bindings context depth frames l v) e) :
    e.PointsInto v := by
  induction depth generalizing frames l v e with
  | zero => exact (not_fails_unfinished h).elim
  | succ depth ih =>
    obtain ⟨-, rfl⟩ | ⟨p, hp, ⟨-, -, rfl⟩ | ⟨-, hsteps⟩⟩ := fails_follow_succ_iff.1 h
    · exact pointsInto_of_path rfl v
    · exact pointsInto_of_path rfl v
    · refine (hbindings _ p hp).pointsInto_of_fails (fun c w e he => ?_) hsteps
      cases c with
      | pass => exact (not_fails_pure he).elim
      | link l' => exact ih he

end Rulebook
