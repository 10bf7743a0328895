import Mathlib.Data.List.ReduceOption
import Rulebook.Proofs.Evaluation.Failing
import Rulebook.Proofs.Evaluation.Testing
import Rulebook.Proofs.Structure.Contributions

/-!
# Policies for unknown keys

Each contribution to the result comes of a rule: of a declared entry that was found,
of the default of one that was not, of a pattern or of the open rule.  Where unknown
keys are left out the result is made of contributions only.  Where they are forbidden
every key is one that a rule claims.

The policy does not take part in what is contributed.  If every key is claimed it
decides about one kind of key only: a declared one that is passed over, because its
entry was found under a name that comes before it.  Such a key stays with its value,
which no rule has seen, unless unknown keys are left out.
-/

namespace Rulebook

open Run

variable {γ : Type} {call : Call γ} {context : Option Context} {input : Entries Value}

/-- What follows a run matters only where the run passes. -/
theorem Run.bind_congr_of_passes {α β : Type} {x : Run α} {f g : α → Run β}
    (h : ∀ a, Passes x a → f a = g a) : x >>= f = x >>= g := by
  match x with
  | none => rfl
  | some (.error e) => rfl
  | some (.ok a) => exact h a rfl

namespace Entry

variable {e : Entry γ}

/-- What is found for an entry is what stands under the first of its names that is present. -/
theorem find?_eq_some_iff {k : String} {v : Value} :
    e.find? input = some (k, v) ↔ ∃ before after, e.names = before ++ k :: after ∧
      (∀ n ∈ before, Entries.lookup n input = none) ∧ Entries.lookup k input = some v := by
  rw [find?, List.findSome?_eq_some_iff]
  constructor
  · rintro ⟨before, n, after, hnames, hfound, hbefore⟩
    obtain ⟨u, hlookup, hpair⟩ := Option.map_eq_some_iff.1 hfound
    obtain ⟨rfl, rfl⟩ := Prod.mk.inj hpair
    exact ⟨before, after, hnames, fun n hn => Option.map_eq_none_iff.1 (hbefore n hn), hlookup⟩
  · rintro ⟨before, after, hnames, hbefore, hlookup⟩
    refine ⟨before, k, after, hnames, ?_, fun n hn => Option.map_eq_none_iff.2 (hbefore n hn)⟩
    rw [hlookup, Option.map_some]

theorem find?_eq_none_iff :
    e.find? input = none ↔ ∀ n ∈ e.names, Entries.lookup n input = none := by
  simp only [find?, List.findSome?_eq_none_iff, Option.map_eq_none_iff]

end Entry

namespace MappingItems

/-- The same items with another policy for unknown keys. -/
def withPolicy (m : MappingItems γ) (policy : UnknownKeys) : MappingItems γ := { m with policy }

/-- A rule claims the key: it is declared, or matches a pattern, or passes the key rule of
the open rule. -/
inductive Claims (m : MappingItems γ) (call : Call γ) (key : String) : Prop where
  | declared (h : m.declares key = true)
  | pattern {p : PatternEntry γ} (hp : p ∈ m.patterns) (haccepts : p.pattern.accepts key = true)
  | openRule {r : OpenRule γ} {output : Value} (hopen : m.openRule = some r)
      (hkey : Passes (r.key call (.text key)) (some output))

/-- A contribution that comes of a rule. -/
inductive Justified (m : MappingItems γ) (call : Call γ) (context : Option Context)
    (input : Entries Value) : Contribution → Prop where
  /-- The rule of a declared entry passes what stands under the first of its names that
  is present. -/
  | found {e : Entry γ} {before after : List String} {k : String} {v w : Value}
      (he : e ∈ m.entries) (hnames : e.synonyms ++ [e.key] = before ++ k :: after)
      (hbefore : ∀ n ∈ before, Entries.lookup n input = none)
      (hlookup : Entries.lookup k input = some v) (hcall : Passes (call e.callee v) w) :
      Justified m call context input ⟨some k, e.output, w⟩
  /-- None of the names of a declared entry is present, and it has a default. -/
  | default {e : Entry γ} {d : Substitute} {w : Value} (he : e ∈ m.entries)
      (habsent : ∀ n ∈ e.synonyms ++ [e.key], Entries.lookup n input = none)
      (hdefault : e.default = some d) (hresolve : Passes (d.resolve context) w) :
      Justified m call context input ⟨none, e.output, w⟩
  /-- The rule of the first matching pattern passes the value of an undeclared key. -/
  | pattern {k : String} {v w : Value} {p : PatternEntry γ} (hmem : (k, v) ∈ input)
      (hdeclared : m.declares k = false)
      (hfirst : (m.patterns.find? fun p => p.pattern.accepts k) = some p)
      (hcall : Passes (call p.callee v) w) :
      Justified m call context input ⟨some k, p.rename.getD k, w⟩
  /-- The open rule passes an undeclared key that no pattern matches, and its value. -/
  | openRule {k : String} {v w output : Value} {r : OpenRule γ} (hmem : (k, v) ∈ input)
      (hdeclared : m.declares k = false)
      (hpatterns : ∀ p ∈ m.patterns, p.pattern.accepts k = false) (hopen : m.openRule = some r)
      (hkey : Passes (r.key call (.text k)) (some output)) (hvalue : Passes (r.value call v) w) :
      Justified m call context input ⟨some k, keyText output, w⟩

/-! ## What is contributed -/

variable {m : MappingItems γ}

/-- A contribution that was found under a key came of an entry found there, or of a key
that is not declared. -/
theorem Justified.source {c : Contribution} (h : m.Justified call context input c) {key : String}
    (hkey : c.source = some key) :
    (∃ e ∈ m.entries, ∃ v, e.find? input = some (key, v)) ∨ m.declares key = false := by
  cases h with
  | @found e _ _ _ v _ he hnames hbefore hlookup =>
    cases hkey
    exact Or.inl ⟨e, he, v, Entry.find?_eq_some_iff.2 ⟨_, _, hnames, hbefore, hlookup⟩⟩
  | default => cases hkey
  | pattern _ hdeclared =>
    cases hkey
    exact Or.inr hdeclared
  | openRule _ hdeclared =>
    cases hkey
    exact Or.inr hdeclared

theorem justified_of_entry {e : Entry γ} (he : e ∈ m.entries) {c : Contribution}
    (h : Passes (e.contribution? call context input) (some c)) :
    m.Justified call context input c := by
  rw [Entry.contribution?] at h
  cases hfind : e.find? input with
  | some found =>
    obtain ⟨k, v⟩ := found
    rw [hfind] at h
    obtain ⟨w, hw, h⟩ := passes_bind.1 h
    cases passes_pure.1 h
    obtain ⟨before, after, hnames, hbefore, hlookup⟩ := Entry.find?_eq_some_iff.1 hfind
    exact .found he hnames hbefore hlookup (passes_under.1 hw)
  | none =>
    rw [hfind] at h
    cases hdefault : e.default with
    | some d =>
      rw [hdefault] at h
      obtain ⟨w, hw, h⟩ := passes_bind.1 h
      cases passes_pure.1 h
      exact .default he (Entry.find?_eq_none_iff.1 hfind) hdefault hw
    | none =>
      rw [hdefault] at h
      dsimp only at h
      split at h
      · exact (not_passes_fail (passes_under.1 h)).elim
      · cases passes_pure.1 h

/-- An entry that is found contributes what was found. -/
theorem contribution_of_found {e : Entry γ} {k : String} {v : Value}
    (hfind : e.find? input = some (k, v)) {o : Option Contribution}
    (h : Passes (e.contribution? call context input) o) : ∃ c, o = some c ∧ c.source = some k := by
  rw [Entry.contribution?, hfind] at h
  obtain ⟨w, -, h⟩ := passes_bind.1 h
  exact ⟨_, (passes_pure.1 h).symm, rfl⟩

theorem not_claims {key : String} (hdeclared : ¬ m.declares key = true)
    (hfirst : (m.patterns.find? fun p => p.pattern.accepts key) = none)
    (hopen : ∀ r output, m.openRule = some r → ¬ Passes (r.key call (.text key)) (some output)) :
    ¬ m.Claims call key := by
  rintro (hdeclares | ⟨hp, haccepts⟩ | ⟨hr, hkey⟩)
  · exact hdeclared hdeclares
  · exact List.find?_eq_none.1 hfirst _ hp haccepts
  · exact hopen _ _ hr hkey

/-- What can become of a member of the input. -/
inductive Received (m : MappingItems γ) (call : Call γ) (context : Option Context)
    (input : Entries Value) (e : String × Value) : Reception → Prop where
  | declared (hdeclared : m.declares e.1 = true) : Received m call context input e .declared
  | claimed {c : Contribution} (hc : m.Justified call context input c)
      (hsource : c.source = some e.1) (hclaims : m.Claims call e.1) :
      Received m call context input e (.claimed c)
  | unclaimed (hnot : ¬ m.Claims call e.1) : Received m call context input e (.unclaimed e.1)

theorem received_of_passes {e : String × Value} (he : e ∈ input) {r : Reception}
    (h : Passes (m.receive call e) r) : m.Received call context input e r := by
  rw [receive] at h
  by_cases hdeclared : m.declares e.1 = true
  · rw [if_pos hdeclared] at h
    cases passes_pure.1 h
    exact .declared hdeclared
  · rw [if_neg hdeclared] at h
    cases hfirst : m.patterns.find? fun p => p.pattern.accepts e.1 with
    | some p =>
      rw [hfirst] at h
      obtain ⟨w, hw, h⟩ := passes_bind.1 h
      cases passes_pure.1 h
      have haccepts : p.pattern.accepts e.1 = true := by
        simpa using List.find?_some hfirst
      exact .claimed (.pattern he (Bool.eq_false_iff.2 hdeclared) hfirst (passes_under.1 hw)) rfl
        (.pattern (List.mem_of_find?_eq_some hfirst) haccepts)
    | none =>
      rw [hfirst] at h
      cases hopen : m.openRule with
      | none =>
        rw [hopen] at h
        cases passes_pure.1 h
        refine .unclaimed (not_claims hdeclared hfirst fun r output hr => ?_)
        cases hopen.symm.trans hr
      | some rule =>
        rw [hopen] at h
        obtain ⟨o, hkey, h⟩ := passes_bind.1 h
        cases o with
        | none =>
          cases passes_pure.1 h
          refine .unclaimed (not_claims hdeclared hfirst fun r output hr hpass => ?_)
          cases hopen.symm.trans hr
          cases hkey.symm.trans hpass
        | some output =>
          obtain ⟨w, hw, h⟩ := passes_bind.1 h
          cases passes_pure.1 h
          have hpatterns : ∀ p ∈ m.patterns, p.pattern.accepts e.1 = false := fun p hp =>
            Bool.eq_false_iff.2 (List.find?_eq_none.1 hfirst p hp)
          exact .claimed
            (.openRule he (Bool.eq_false_iff.2 hdeclared) hpatterns hopen hkey (passes_under.1 hw))
            rfl (.openRule hopen hkey)

theorem received_of_passes_mapM {rs : List Reception}
    (h : Passes (input.mapM (m.receive call)) rs) :
    List.Forall₂ (m.Received call context input) input rs := by
  have hmembers := (List.forall₂_and_left input rs).2 ⟨fun _ he => he, h.forall₂_mapM⟩
  exact hmembers.imp fun _ _ hreceive => received_of_passes hreceive.1 hreceive.2

/-- What a survey says about contributions and keys. -/
structure Surveyed (m : MappingItems γ) (call : Call γ) (context : Option Context)
    (input : Entries Value) (cs : List Contribution) (unclaimed : List String) : Prop where
  justified : ∀ c ∈ cs, m.Justified call context input c
  found : ∀ e ∈ m.entries, ∀ k v, e.find? input = some (k, v) → ∃ c ∈ cs, c.source = some k
  claimed : ∀ e ∈ input, m.declares e.1 = false → m.Claims call e.1 →
    ∃ c ∈ cs, c.source = some e.1
  unclaimed : ∀ k, k ∈ unclaimed ↔ k ∈ Entries.keys input ∧ ¬ m.Claims call k

theorem surveyed {cs : List Contribution} {unclaimed : List String}
    (h : Passes (m.survey call context input) (cs, unclaimed)) :
    m.Surveyed call context input cs unclaimed := by
  rw [survey] at h
  obtain ⟨found, hfound, h⟩ := passes_bind.1 h
  obtain ⟨received, hreceived, h⟩ := passes_bind.1 h
  obtain ⟨rfl, rfl⟩ := Prod.mk.inj (passes_pure.1 h)
  have hentries := hfound.forall₂_mapM
  have hmembers : List.Forall₂ (m.Received call context input) input received :=
    received_of_passes_mapM hreceived
  refine ⟨?_, ?_, ?_, ?_⟩
  · intro c hc
    rcases List.mem_append.1 hc with hc | hc
    · obtain ⟨e, he, hpass⟩ := exists_of_forall₂ hentries (List.reduceOption_mem_iff.1 hc)
      exact justified_of_entry he hpass
    · obtain ⟨r, hr, hrc⟩ := List.mem_filterMap.1 hc
      obtain ⟨e, he, hreception⟩ := exists_of_forall₂ hmembers hr
      cases hreception with
      | claimed hjustified =>
        cases hrc
        exact hjustified
      | _ => cases hrc
  · intro e he k v hfind
    obtain ⟨o, ho, hpass⟩ := exists_of_forall₂ hentries.flip he
    obtain ⟨c, rfl, hsource⟩ := contribution_of_found hfind hpass
    exact ⟨c, List.mem_append_left _ (List.reduceOption_mem_iff.2 ho), hsource⟩
  · intro e he hdeclared hclaims
    obtain ⟨r, hr, hreception⟩ := exists_of_forall₂ hmembers.flip he
    cases hreception with
    | declared hdeclares => exact (Bool.false_ne_true (hdeclared.symm.trans hdeclares)).elim
    | claimed _ hsource =>
      exact ⟨_, List.mem_append_right _ (List.mem_filterMap.2 ⟨_, hr, rfl⟩), hsource⟩
    | unclaimed hnot => exact absurd hclaims hnot
  · intro k
    constructor
    · intro hk
      obtain ⟨r, hr, hrk⟩ := List.mem_filterMap.1 hk
      obtain ⟨e, he, hreception⟩ := exists_of_forall₂ hmembers hr
      cases hreception with
      | unclaimed hnot =>
        cases hrk
        exact ⟨List.mem_map_of_mem he, hnot⟩
      | _ => cases hrk
    · rintro ⟨hk, hnot⟩
      obtain ⟨e, he, rfl⟩ := List.mem_map.1 hk
      obtain ⟨r, hr, hreception⟩ := exists_of_forall₂ hmembers.flip he
      cases hreception with
      | declared hdeclares => exact absurd (.declared hdeclares) hnot
      | claimed _ _ hclaims => exact absurd hclaims hnot
      | unclaimed _ => exact List.mem_filterMap.2 ⟨_, hr, rfl⟩

/-! ## Results -/

/-- A mapping passes with its contributions, written in order, if its survey passes and
leaves no key that has to be claimed. -/
theorem passes_apply {w : Value} (h : Passes (m.apply call context input) w) :
    ∃ cs unclaimed, m.Surveyed call context input cs unclaimed ∧
      (m.policy = .forbid → unclaimed = []) ∧
      w = .mapping (cs.foldl Contribution.write (m.initial input)) := by
  rw [apply_eq_survey] at h
  obtain ⟨⟨cs, unclaimed⟩, hsurvey, h⟩ := passes_bind.1 h
  dsimp only at h
  split at h
  · exact (not_passes_fail h).elim
  · rename_i hforbid
    exact ⟨cs, unclaimed, surveyed hsurvey, fun hpolicy => not_not.1 fun hne =>
      hforbid ⟨hpolicy, hne⟩, (passes_pure.1 h).symm⟩

/-- Where unknown keys are left out, each member of a result comes of a rule.  Where they
are forbidden, a mapping that passes has no key that no rule claims. -/
theorem passes_justified {w : Value} (h : Passes (m.apply call context input) w) :
    (m.policy = .purge → ∃ out, w = .mapping out ∧ ∀ e ∈ out, ∃ c,
      m.Justified call context input c ∧ e = (c.output, c.value)) ∧
    (m.policy = .forbid → ∀ e ∈ input, m.Claims call e.1) := by
  obtain ⟨cs, unclaimed, hsurveyed, hnone, rfl⟩ := passes_apply h
  constructor
  · intro hpolicy
    refine ⟨_, rfl, ?_⟩
    intro e he
    rw [initial, hpolicy] at he
    rcases Contribution.mem_foldl_write he with ⟨c, hc, heq⟩ | he
    · exact ⟨c, hsurveyed.justified c hc, heq⟩
    · cases he
  · intro hpolicy e he
    by_contra hnot
    have hmem := (hsurveyed.unclaimed e.1).2 ⟨List.mem_map_of_mem he, hnot⟩
    rw [hnone hpolicy] at hmem
    cases hmem

/-- The entry `a` may be found under `b` and is stored under `z`, the entry `d` has a
default, and other keys go to the open rule. -/
def parcel : MappingItems Unit where
  entries := [⟨"a", "z", ["b"], (), none, true⟩, ⟨"d", "d", [], (), some (.literal .null), true⟩]
  patterns := []
  openRule := some ⟨some (), some ()⟩
  policy := .purge

/-- Each member of the result comes of a rule, and each key of the input goes to one. -/
theorem passes_justified_parcel :
    Passes (parcel.apply (fun _ v => pure v) none [("b", .bool true), ("u", .text "x")])
        (.mapping [("d", .null), ("u", .text "x"), ("z", .bool true)]) ∧
      (∀ e ∈ [("d", Value.null), ("u", .text "x"), ("z", .bool true)], ∃ c,
        parcel.Justified (fun _ v => pure v) none [("b", .bool true), ("u", .text "x")] c ∧
          e = (c.output, c.value)) ∧
      ∀ e ∈ [("b", Value.bool true), ("u", .text "x")], parcel.Claims (fun _ v => pure v) e.1 := by
  have hpurge : Passes
      (parcel.apply (fun _ v => pure v) none [("b", .bool true), ("u", .text "x")])
      (.mapping [("d", .null), ("u", .text "x"), ("z", .bool true)]) := rfl
  have hforbid : Passes ((parcel.withPolicy .forbid).apply (fun _ v => pure v) none
      [("b", .bool true), ("u", .text "x")])
      (.mapping [("d", .null), ("u", .text "x"), ("z", .bool true)]) := rfl
  obtain ⟨out, hout, hjustified⟩ := (passes_justified hpurge).1 rfl
  cases hout
  refine ⟨hpurge, hjustified, ?_⟩
  intro e he
  -- The policy does not take part in what is claimed.
  cases (passes_justified hforbid).2 rfl e he with
  | declared h => exact .declared h
  | pattern hp haccepts => exact .pattern hp haccepts
  | openRule hopen hkey => exact .openRule hopen hkey

/-! ## Agreement of policies -/

/-- A declared key of the input under which no entry was found, and which nothing is
stored under. -/
structure PassedOver (m : MappingItems γ) (call : Call γ) (context : Option Context)
    (input : Entries Value) (key : String) : Prop where
  present : key ∈ Entries.keys input
  declared : m.declares key = true
  notFound : ∀ e ∈ m.entries, ∀ v, e.find? input ≠ some (key, v)
  vacant : ∀ cs unclaimed, Passes (m.survey call context input) (cs, unclaimed) →
    ∀ c ∈ cs, c.output ≠ key

open scoped Classical in
/-- A result without the keys that are passed over. -/
noncomputable def withoutPassedOver (m : MappingItems γ) (call : Call γ)
    (context : Option Context) (input : Entries Value) : Value → Value
  | .mapping out => .mapping (out.filter fun e => ¬ m.PassedOver call context input e.1)
  | w => w

theorem survey_withPolicy (m : MappingItems γ) (policy : UnknownKeys) (call : Call γ)
    (context : Option Context) (input : Entries Value) :
    (m.withPolicy policy).survey call context input = m.survey call context input := rfl

/-- If every key is claimed, those passed over are the ones that no contribution touches. -/
theorem passedOver_iff {cs : List Contribution} {unclaimed : List String}
    (hsurvey : Passes (m.survey call context input) (cs, unclaimed))
    (hclaimed : ∀ e ∈ input, m.Claims call e.1) {key : String} :
    m.PassedOver call context input key ↔
      key ∈ Entries.keys input ∧ ∀ c ∈ cs, ¬ c.Touches key := by
  have hsurveyed := surveyed hsurvey
  constructor
  · intro h
    refine ⟨h.present, ?_⟩
    rintro c hc (houtput | hsource)
    · exact h.vacant cs unclaimed hsurvey c hc houtput
    · rcases (hsurveyed.justified c hc).source hsource with ⟨e, he, v, hfind⟩ | hdeclared
      · exact h.notFound e he v hfind
      · exact Bool.false_ne_true (hdeclared.symm.trans h.declared)
  · rintro ⟨hpresent, huntouched⟩
    refine ⟨hpresent, ?_, ?_, ?_⟩
    · by_contra hdeclared
      obtain ⟨e, he, rfl⟩ := List.mem_map.1 hpresent
      obtain ⟨c, hc, hsource⟩ :=
        hsurveyed.claimed e he (Bool.eq_false_iff.2 hdeclared) (hclaimed e he)
      exact huntouched c hc (Or.inr hsource)
    · intro e he v hfind
      obtain ⟨c, hc, hsource⟩ := hsurveyed.found e he key v hfind
      exact huntouched c hc (Or.inr hsource)
    · intro ds unclaimed' hsurvey' c hc houtput
      cases hsurvey.symm.trans hsurvey'
      exact huntouched c hc (Or.inl houtput)

/-- What is written over nothing is what is written over the input, without the keys that
are passed over. -/
theorem written_eq {cs : List Contribution} {unclaimed : List String}
    (hsurvey : Passes (m.survey call context input) (cs, unclaimed))
    (hinput : Entries.Sorted input) (hclaimed : ∀ e ∈ input, m.Claims call e.1) :
    Value.mapping (cs.foldl Contribution.write []) =
      m.withoutPassedOver call context input
        (.mapping (cs.foldl Contribution.write input)) := by
  classical
  have hsorted := Contribution.sorted_foldl_write cs hinput
  refine congrArg Value.mapping (Entries.eq_of_lookup_eq
    (Contribution.sorted_foldl_write cs Entries.sorted_nil) (Entries.sorted_filter hsorted _) ?_)
  intro key
  rw [Entries.lookup_filter fun k => decide ¬ m.PassedOver call context input k]
  by_cases hover : m.PassedOver call context input key
  · have huntouched := ((passedOver_iff hsurvey hclaimed).1 hover).2
    rw [if_neg (by simpa using hover), Contribution.lookup_foldl_write_of_untouched _ huntouched]
    rfl
  · rw [if_pos (by simpa using hover)]
    apply Contribution.lookup_foldl_write_congr
    by_cases htouched : ∃ c ∈ cs, c.Touches key
    · exact Or.inl htouched
    · right
      cases hlookup : Entries.lookup key input with
      | none => rfl
      | some v =>
        have hpresent : key ∈ Entries.keys input :=
          List.mem_map_of_mem (Entries.mem_of_lookup hlookup)
        exact absurd ((passedOver_iff hsurvey hclaimed).2
          ⟨hpresent, fun c hc htouches => htouched ⟨c, hc, htouches⟩⟩) hover

/-- Every key that is passed over stays in what is written over the input. -/
theorem withoutPassedOver_eq_self_iff {cs : List Contribution} {unclaimed : List String}
    (hsurvey : Passes (m.survey call context input) (cs, unclaimed))
    (hinput : Entries.Sorted input) (hclaimed : ∀ e ∈ input, m.Claims call e.1) :
    m.withoutPassedOver call context input (.mapping (cs.foldl Contribution.write input)) =
        .mapping (cs.foldl Contribution.write input) ↔
      ∀ key, ¬ m.PassedOver call context input key := by
  classical
  rw [withoutPassedOver, Value.mapping.injEq, List.filter_eq_self]
  constructor
  · intro hkept key hover
    obtain ⟨e, he, rfl⟩ := List.mem_map.1 hover.present
    have hlookup : Entries.lookup e.1 (cs.foldl Contribution.write input) = some e.2 := by
      rw [Contribution.lookup_foldl_write_of_untouched _ ((passedOver_iff hsurvey hclaimed).1 hover).2]
      exact (Entries.lookup_eq_some_iff hinput).2 he
    exact of_decide_eq_true (hkept _ (Entries.mem_of_lookup hlookup)) hover
  · intro hnone e _
    exact decide_eq_true (hnone e.1)

/-- If every key is claimed, forbidding unknown keys and allowing them is the same.
Leaving them out fails in the same way, and has the same result apart from the keys that
are passed over: the result is the same if and only if there are none. -/
theorem policies_agree (hinput : Entries.Sorted input) (hclaimed : ∀ e ∈ input, m.Claims call e.1) :
    (m.withPolicy .forbid).apply call context input =
        (m.withPolicy .allow).apply call context input ∧
      (m.withPolicy .purge).apply call context input = (do
        let w ← (m.withPolicy .allow).apply call context input
        pure (m.withoutPassedOver call context input w)) ∧
      ∀ w, Passes ((m.withPolicy .allow).apply call context input) w →
        (Passes ((m.withPolicy .purge).apply call context input) w ↔
          ∀ key, ¬ m.PassedOver call context input key) := by
  have hforbid : (m.withPolicy .forbid).apply call context input =
      (m.withPolicy .allow).apply call context input := by
    rw [apply_eq_survey, apply_eq_survey, survey_withPolicy, survey_withPolicy]
    refine Run.bind_congr_of_passes ?_
    rintro ⟨cs, unclaimed⟩ hsurvey
    have hnone : unclaimed = [] := by
      refine List.eq_nil_iff_forall_not_mem.2 fun k hk => ?_
      obtain ⟨hpresent, hnot⟩ := ((surveyed hsurvey).unclaimed k).1 hk
      obtain ⟨e, he, rfl⟩ := List.mem_map.1 hpresent
      exact hnot (hclaimed e he)
    subst hnone
    rfl
  have hpurge : (m.withPolicy .purge).apply call context input = (do
      let w ← (m.withPolicy .allow).apply call context input
      pure (m.withoutPassedOver call context input w)) := by
    rw [apply_eq_survey, apply_eq_survey, survey_withPolicy, survey_withPolicy, bind_assoc]
    refine Run.bind_congr_of_passes ?_
    rintro ⟨cs, unclaimed⟩ hsurvey
    exact congrArg pure (written_eq hsurvey hinput hclaimed)
  refine ⟨hforbid, hpurge, ?_⟩
  intro w hw
  have hsame : Passes ((m.withPolicy .purge).apply call context input) w ↔
      m.withoutPassedOver call context input w = w := by
    rw [hpurge, passes_bind]
    constructor
    · rintro ⟨w', hw', hpass⟩
      cases hw.symm.trans hw'
      exact passes_pure.1 hpass
    · intro hself
      exact ⟨w, hw, passes_pure.2 hself⟩
  rw [apply_eq_survey] at hw
  obtain ⟨⟨cs, unclaimed⟩, hsurvey, hw⟩ := passes_bind.1 hw
  obtain rfl : Value.mapping (cs.foldl Contribution.write input) = w := passes_pure.1 hw
  exact hsame.trans (withoutPassedOver_eq_self_iff hsurvey hinput hclaimed)

/-- The entry `a` may be found under `b`, and is stored under `z`. -/
def renamed : MappingItems Unit where
  entries := [⟨"a", "z", ["b"], (), none, false⟩]
  patterns := []
  openRule := none
  policy := .forbid

/-- Both names of the entry. -/
def bothNames : Entries Value := [("a", .text "x"), ("b", .bool true)]

/-- The entry is found under `b`, and `a` is passed over.  It stays where unknown keys are
forbidden, and goes where they are left out. -/
theorem policies_agree_renamed :
    Passes ((renamed.withPolicy .forbid).apply (fun _ v => pure v) none bothNames)
        (.mapping [("a", .text "x"), ("z", .bool true)]) ∧
      Passes ((renamed.withPolicy .purge).apply (fun _ v => pure v) none bothNames)
        (.mapping [("z", .bool true)]) ∧
      ∃ key, renamed.PassedOver (fun _ v => pure v) none bothNames key := by
  have hsorted : Entries.Sorted bothNames := by
    change ["a", "b"].Pairwise (· < ·)
    decide
  have hclaimed : ∀ e ∈ bothNames, renamed.Claims (fun _ v => pure v) e.1 := by
    intro e he
    rcases List.mem_pair.1 he with rfl | rfl <;> exact .declared (by decide)
  have hallow : Passes ((renamed.withPolicy .allow).apply (fun _ v => pure v) none bothNames)
      (.mapping [("a", .text "x"), ("z", .bool true)]) := rfl
  have hpurge : Passes ((renamed.withPolicy .purge).apply (fun _ v => pure v) none bothNames)
      (.mapping [("z", .bool true)]) := rfl
  refine ⟨(policies_agree hsorted hclaimed).1.trans hallow, hpurge, ?_⟩
  by_contra hnone
  have hsame := ((policies_agree hsorted hclaimed).2.2 _ hallow).2 fun key hover =>
    hnone ⟨key, hover⟩
  have hresults := Value.mapping.inj
    (Except.ok.inj (Option.some.inj (hpurge.symm.trans hsame)))
  exact absurd (congrArg List.length hresults) (by decide)

end MappingItems

end Rulebook
