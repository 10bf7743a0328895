import Rulebook.Proofs.Registry.Renumbering

/-!
# Sessions

In a session a registry is changed and asked, also through handles that were given out
before.  A batch that is refused leaves one trace: the numbers that were given out for it
are lost, as are those that are used up elsewhere between two operations.

No answer shows it.  A session from which all refused batches are left out gives the same
answers to everything else, whatever numbers are lost in either.
-/

namespace Rulebook

open Registry

/-- An operation on a registry, or on the handles that have been given out, by their
positions. -/
inductive Operation where
  | change (request : Request)
  | get (name : String)
  | validate (handle : Nat) (value : Value) (context : Option Context)
  | identity (handle : Nat)
  | sameArtifact (handle other : Nat)
  | rule (name : String)
  | schemaOptions (name : String)
  | contains (name : String)
  | names
  | artifactCount

/-- The answer to an operation. -/
inductive Answer where
  | accepted
  | refused (e : SchemaError)
  /-- A handle, which shows its name only. -/
  | handle (name : String)
  /-- There is no such schema or no such handle. -/
  | missing
  | outcome (o : Option (Except ValidationError Value))
  | identity (i : Option SchemaId)
  | same (b : Bool)
  | rule (rule : Option Value)
  | options (options : Option Options)
  | contains (b : Bool)
  | names (names : List String)
  | count (n : Nat)

/-- Whether a batch was refused. -/
def Answer.refuses : Answer → Bool
  | .refused _ => true
  | _ => false

/-- A registry and the handles that it has given out, in order. -/
structure Session where
  registry : Registry
  handles : List Validator

namespace Session

/-- A session on a registry without schemas. -/
def start (options : Options) (coercions : CoercionTable) (digest : Digest) : Session :=
  ⟨.empty options coercions digest, []⟩

/-- The answer to a question about a handle. -/
def about (s : Session) (handle : Nat) (answer : Validator → Answer) : Answer :=
  match s.handles[handle]? with
  | some v => answer v
  | none => .missing

/-- The answer to an operation, where programs are followed to a given depth, and the
session after it. -/
def perform (s : Session) (depth : Nat) : Operation → Answer × Session
  | .change request =>
    match s.registry.submit depth request with
    | .ok r => (.accepted, { s with registry := r })
    | .error e => (.refused e, s)
  | .get name =>
    match s.registry.get? name with
    | some v => (.handle v.name, { s with handles := s.handles ++ [v] })
    | none => (.missing, s)
  | .validate handle value context =>
    (s.about handle fun v => .outcome (s.registry.validateWithin depth v value context), s)
  | .identity handle => (s.about handle fun v => .identity (s.registry.identity? v), s)
  | .sameArtifact handle other =>
    (s.about handle fun v => s.about other fun w => .same (s.registry.sameArtifact v w), s)
  | .rule name => (.rule (s.registry.rule? name), s)
  | .schemaOptions name => (.options (s.registry.schemaOptions? name), s)
  | .contains name => (.contains (s.registry.contains name), s)
  | .names => (.names s.registry.names, s)
  | .artifactCount => (.count s.registry.artifactCount, s)

/-- The session after numbers were lost. -/
def lose (s : Session) (loss : Loss) : Session := { s with registry := s.registry.lose loss }

/-- Operations with their answers.  Before each operation some numbers are lost. -/
def run (s : Session) (depth : Nat) (losses : Nat → Loss) :
    List Operation → List (Operation × Answer)
  | [] => []
  | op :: ops =>
    let (answer, s') := (s.lose (losses 0)).perform depth op
    (op, answer) :: s'.run depth (fun i => losses (i + 1)) ops

theorem run_cons (s : Session) (depth : Nat) (losses : Nat → Loss) (op : Operation)
    (ops : List Operation) :
    s.run depth losses (op :: ops) = (op, ((s.lose (losses 0)).perform depth op).1) ::
      ((s.lose (losses 0)).perform depth op).2.run depth (fun i => losses (i + 1)) ops := rfl

/-- All but the batches that were refused. -/
def kept (transcript : List (Operation × Answer)) : List (Operation × Answer) :=
  transcript.filter fun e => !e.2.refuses

variable {s : Session} {depth : Nat}

/-- The handles are those that the registry gives out. -/
structure Sound (s : Session) : Prop where
  reachable : s.registry.Reachable
  handles : ∀ v ∈ s.handles, s.registry.get? v.name = some v

theorem sound_start (options : Options) (coercions : CoercionTable) (digest : Digest) :
    (start options coercions digest).Sound :=
  ⟨.empty options coercions digest, fun _ hv => nomatch hv⟩

/-- What is accepted keeps the handles. -/
theorem Sound.change (hs : s.Sound) {request : Request} {r : Registry}
    (h : s.registry.submit depth request = .ok r) : Sound { s with registry := r } := by
  obtain ⟨submitted, options, hregister⟩ := registerWithin_of_submit h
  obtain ⟨st, haccepts, rfl⟩ := registerWithin_eq_ok_iff.1 hregister
  have hextends := hs.reachable.extends_publish haccepts
  exact ⟨.batch hs.reachable trivial hregister,
    fun v hv => hextends.handle v.name v (hs.handles v hv)⟩

theorem Sound.get (hs : s.Sound) {name : String} {v : Validator}
    (h : s.registry.get? name = some v) : Sound { s with handles := s.handles ++ [v] } := by
  refine ⟨hs.reachable, fun w hw => ?_⟩
  rcases List.mem_append.1 hw with hw | hw
  · exact hs.handles w hw
  · rw [List.mem_singleton.1 hw, (get?_eq_some_iff.1 h).2.2]
    exact h

theorem Sound.perform (hs : s.Sound) (depth : Nat) (op : Operation) :
    (s.perform depth op).2.Sound := by
  cases op with
  | change request =>
    rw [Session.perform]
    split
    · exact hs.change ‹_›
    · exact hs
  | get name =>
    rw [Session.perform]
    split
    · exact hs.get ‹_›
    · exact hs
  | _ => exact hs

/-- A refused batch leaves the session as it was. -/
theorem perform_of_refuses {op : Operation} (h : (s.perform depth op).1.refuses = true) :
    (s.perform depth op).2 = s := by
  cases op with
  | change request =>
    rw [Session.perform] at h ⊢
    split at h
    · cases h
    · rfl
  | get name =>
    rw [Session.perform] at h ⊢
    split at h <;> cases h
  | _ => rfl

end Session

namespace Renumbering

open Session

variable {ρ : Renumbering} {s s' : Session}

/-- The second session is the first one under the other numbers. -/
structure Sessions (ρ : Renumbering) (s s' : Session) : Prop where
  registries : ρ.Registries s.registry s'.registry
  handles : s'.handles = s.handles.map ρ.onHandle

/-- A question about a handle is answered alike under the other numbers. -/
theorem Sessions.about_eq (h : ρ.Sessions s s') {answer answer' : Validator → Answer}
    (hanswer : ∀ v, answer' (ρ.onHandle v) = answer v) (handle : Nat) :
    s'.about handle answer' = s.about handle answer := by
  rw [about, about, h.handles, List.getElem?_map]
  cases s.handles[handle]? with
  | none => rfl
  | some v => exact hanswer v

/-- Every operation has the same answer under the other numbers, and the sessions stay the
same but for their numbers. -/
theorem Sessions.perform (h : ρ.Sessions s s') (depth : Nat) (op : Operation) :
    (s'.perform depth op).1 = (s.perform depth op).1 ∧
      ρ.Sessions (s.perform depth op).2 (s'.perform depth op).2 := by
  have hregistry := h.registries.eq
  cases op with
  | change request =>
    have hsubmit := submit_carries h.registries depth request
    rw [Session.perform, Session.perform]
    generalize s.registry.submit depth request = x,
      s'.registry.submit depth request = y at hsubmit
    cases hsubmit with
    | refused e => exact ⟨rfl, h⟩
    | accepted hregistries => exact ⟨rfl, hregistries, h.handles⟩
  | get name =>
    have hget : s'.registry.get? name = (s.registry.get? name).map ρ.onHandle := by
      rw [hregistry, get?_onRegistry]
    rw [Session.perform, Session.perform, hget]
    cases s.registry.get? name with
    | none => exact ⟨rfl, h⟩
    | some v =>
      refine ⟨rfl, h.registries, ?_⟩
      rw [List.map_append, h.handles]
      rfl
  | validate handle value context =>
    refine ⟨h.about_eq (fun v => ?_) handle, h⟩
    rw [hregistry, validateWithin_onRegistry]
  | identity handle =>
    refine ⟨h.about_eq (fun v => ?_) handle, h⟩
    rw [hregistry, identity?_onRegistry]
  | sameArtifact handle other =>
    refine ⟨h.about_eq (fun v => h.about_eq (fun w => ?_) other) handle, h⟩
    rw [hregistry, sameArtifact_onRegistry]
  | artifactCount =>
    refine ⟨?_, h⟩
    rw [Session.perform, Session.perform, hregistry, artifactCount_onRegistry]
  | _ =>
    refine ⟨?_, h⟩
    rw [Session.perform, Session.perform, hregistry]
    rfl

/-- When numbers are lost, the session is still the same under other numbers. -/
theorem Sessions.lose (h : ρ.Sessions s s') (hs : s.Sound) (loss : Loss) :
    (ρ.after s.registry loss).Sessions s (s'.lose loss) := by
  refine ⟨h.registries.lose hs.reachable loss, ?_⟩
  rw [Session.lose, h.handles]
  refine List.map_congr_left fun v hv => ?_
  obtain ⟨-, hl, -⟩ := get?_eq_some_iff.1 (hs.handles v hv)
  have hfresh := hs.reachable.sound.numbered.fresh (a := .name v.name) hl
  rw [onHandle, onHandle, (agreesOn_after ρ s.registry loss).onLink_eq hfresh]

/-- All numbers stay as they are. -/
def same : Renumbering := ⟨id, id, strictMono_id, strictMono_id⟩

theorem same_start (options : Options) (coercions : CoercionTable) (digest : Digest) :
    same.Sessions (start options coercions digest) (start options coercions digest) :=
  ⟨⟨rfl, fun _ => rfl, fun _ => rfl⟩, rfl⟩

end Renumbering

namespace Session

variable {s s' s'' : Session} {ρ σ : Renumbering}

/-- Two sessions that are the same but for their numbers give the same answers, if what is
refused in the one is left out in the other. -/
theorem run_kept (hs : s.Sound) (h : ρ.Sessions s s') (h' : σ.Sessions s s'') (depth : Nat)
    (losses losses' : Nat → Loss) (ops : List Operation) :
    s''.run depth losses' ((kept (s'.run depth losses ops)).map Prod.fst) =
      kept (s'.run depth losses ops) := by
  -- Both sessions are that in the background, in which nothing gets lost, under other numbers.
  -- The second one stands still while the first one goes through a batch that is refused.
  induction ops generalizing s s' s'' ρ σ losses losses' with
  | nil => rfl
  | cons op ops ih =>
    obtain ⟨hanswer, hnext⟩ := (h.lose hs (losses 0)).perform depth op
    rw [run_cons, kept, List.filter_cons, hanswer]
    by_cases hrefuses : (s.perform depth op).1.refuses = true
    · rw [if_neg (by simp [hrefuses])]
      rw [perform_of_refuses hrefuses] at hnext
      exact ih hs hnext h' _ losses'
    · obtain ⟨hanswer', hnext'⟩ := (h'.lose hs (losses' 0)).perform depth op
      rw [if_pos (by simp [hrefuses]), List.map_cons, run_cons, hanswer']
      exact congrArg _ (ih (hs.perform depth op) hnext hnext' _ _)

/-- Whatever is done in a session, and whatever numbers are lost, leaving out the batches
that were refused leaves every other answer as it was, to any depth. -/
theorem run_without_refused (options : Options) (coercions : CoercionTable) (digest : Digest)
    (depth : Nat) (losses losses' : Nat → Loss) (ops : List Operation) :
    (start options coercions digest).run depth losses'
        ((kept ((start options coercions digest).run depth losses ops)).map Prod.fst) =
      kept ((start options coercions digest).run depth losses ops) :=
  run_kept (sound_start options coercions digest) (Renumbering.same_start ..)
    (Renumbering.same_start ..) depth losses losses' ops

set_option maxRecDepth 100000 in
/-- A batch is refused for an example of its second rule, after its first rule was compiled
anew, and the session goes on. -/
example : ((start {} ⟨[]⟩ id).run depthLimit (fun _ => ⟨2, 1⟩)
    [.change (.insert "age" (.mapping [("type", .text "int")])),
      .get "age",
      .change (.register (.mapping [("age", .mapping [("type", .text "str")]),
        ("bad", .mapping [("examples", .list [.text "nope"]), ("type", .text "int")])])),
      .validate 0 (.text "x") none]).map (fun e => e.2.refuses) = [false, false, true, false] := by
  decide +kernel

end Session
end Rulebook
