import Rulebook.Proofs.Sorting
import Rulebook.Proofs.Structure.Items

/-!
# The first failure

A container fails with the error of the first item that fails, and all items before it pass on
their own.  What an item reads are the values that it hands to a rule: the member that an
entry was found as, the value of a key that a pattern or the open rule claims, and the element
at an index that the key rule passes.  Whether keys are present is read by all.  So a failure
stays the same if values are replaced that neither the failing item nor an earlier one reads.
-/

namespace Rulebook

open Run

variable {γ : Type} {call : Call γ} {context : Option Context} {err : ValidationError}

/-! ## Members -/

namespace Value

/-- The member of a container that a segment leads to. -/
def member? : Value → PathSegment → Option Value
  | mapping es, .key k => Entries.lookup k es
  | list xs, .index i => xs[i]?
  | _, _ => none

/-- Mappings with the same keys, or lists of the same length, or twice the same value. -/
inductive SameShape : Value → Value → Prop where
  | refl (v : Value) : SameShape v v
  | mapping {es fs : Entries Value} (hkeys : Entries.keys es = Entries.keys fs) :
      SameShape (.mapping es) (.mapping fs)
  | list {xs ys : List Value} (hlength : xs.length = ys.length) : SameShape (.list xs) (.list ys)

/-- If the value is a mapping, its entries are in the order of their keys. -/
def KeysAscend : Value → Prop
  | mapping es => Entries.Sorted es
  | _ => True

theorem SameShape.keysAscend {v v' : Value} (h : v.SameShape v') (hv : v.KeysAscend) :
    v'.KeysAscend := by
  cases h with
  | refl => exact hv
  | mapping hkeys =>
    rw [KeysAscend, Entries.Sorted, ← hkeys]
    exact hv
  | list => trivial

end Value

theorem Entries.lookup_eq_none_of_keys {es fs : Entries Value}
    (h : Entries.keys es = Entries.keys fs) (k : String) :
    Entries.lookup k es = none ↔ Entries.lookup k fs = none := by
  rw [Entries.lookup_eq_none_iff, Entries.lookup_eq_none_iff, h]

/-! ## Items of structures -/

/-- One item comes before another: declared entries by their keys, then other keys in order,
and indices in order. -/
def Item.Before : Item γ → Item γ → Prop
  | entry e, entry f => e.key ≤ f.key
  | entry _, other _ => True
  | other k, other l => k < l
  | element i, element j => i < j
  | _, _ => False

namespace Structure

/-- The items of a container in the order in which they are checked. -/
def items (s : Structure γ) (v : Value) : List (Item γ) :=
  match v, s.mapping, s.sequence with
  | .mapping es, some m, _ => m.items es
  | .list xs, _, some _ => SequenceItems.items xs
  | _, _, _ => []

/-- Check an item on its own. -/
def visit (s : Structure γ) (call : Call γ) (context : Option Context) (v : Value) :
    Item γ → Run Unit :=
  match v, s.mapping, s.sequence with
  | .mapping es, some m, _ => m.visit call context es
  | .list xs, _, some q => q.visit call xs
  | _, _, _ => fun _ => pure ()

/-- The structure has items for containers of the kind of the value. -/
def covers (s : Structure γ) (v : Value) : Bool :=
  match v, s.mapping, s.sequence with
  | .mapping _, some _, _ => true
  | .list _, _, some _ => true
  | _, _, _ => false

/-- The members of the container that an item hands to a rule. -/
inductive Reads (s : Structure γ) (call : Call γ) (v : Value) : Item γ → PathSegment → Prop where
  | entry {es : Entries Value} {e : Entry γ} {k : String} {w : Value} (hv : v = .mapping es)
      (hfind : e.find? es = some (k, w)) : Reads s call v (.entry e) (.key k)
  | pattern {m : MappingItems γ} {k : String} {p : PatternEntry γ} (hm : s.mapping = some m)
      (hfirst : (m.patterns.find? fun p => p.pattern.accepts k) = some p) :
      Reads s call v (.other k) (.key k)
  | openRule {m : MappingItems γ} {k : String} {r : OpenRule γ} {output : Value} {c : γ}
      (hm : s.mapping = some m)
      (hfirst : (m.patterns.find? fun p => p.pattern.accepts k) = none)
      (hopen : m.openRule = some r) (hkey : Passes (r.key call (.text k)) (some output))
      (hvalues : r.values = some c) : Reads s call v (.other k) (.key k)
  | element {q : SequenceItems γ} {i : Nat} {output : Value} {c : γ} (hq : s.sequence = some q)
      (hkey : Passes (q.openRule.key call (Value.ofNat i)) (some output))
      (hvalues : q.openRule.values = some c) : Reads s call v (.element i) (.index i)

/-- A declared entry reads nothing but the member it is found as. -/
theorem Reads.eq_of_find? {s : Structure γ} {es : Entries Value} {e : Entry γ} {k : String}
    {w : Value} (hfind : e.find? es = some (k, w)) {p : PathSegment}
    (h : s.Reads call (.mapping es) (.entry e) p) : p = .key k := by
  cases h with
  | entry hv hfind' =>
    cases hv
    cases hfind.symm.trans hfind'
    rfl

/-- The items of mappings have been put in order. -/
def Made (s : Structure γ) : Prop :=
  ∀ m, s.mapping = some m → ∃ entries patterns openRule policy,
    m = MappingItems.make entries patterns openRule policy

end Structure

/-! ## Order -/

theorem MappingItems.entries_make_ascending {entries : List (Entry γ)}
    {patterns : List (PatternEntry γ)} {openRule : Option (OpenRule γ)} {policy : UnknownKeys} :
    (MappingItems.make entries patterns openRule policy).entries.Pairwise
      fun e f => e.key ≤ f.key := by
  have hsorted : (Sorting.sort (fun a b => decide (a.key ≤ b.key)) entries).Pairwise
      fun a b => decide (a.key ≤ b.key) = true := by
    apply Sorting.pairwise_sort
    · intro a b
      exact (String.le_total a.key b.key).imp decide_eq_true decide_eq_true
    · intro a b c hab hbc
      exact decide_eq_true (String.le_trans (of_decide_eq_true hab) (of_decide_eq_true hbc))
  exact hsorted.imp of_decide_eq_true

theorem MappingItems.items_ascending {m : MappingItems γ} {es : Entries Value}
    (hm : m.entries.Pairwise fun e f => e.key ≤ f.key) (hes : Entries.Sorted es) :
    (m.items es).Pairwise Item.Before := by
  rw [MappingItems.items, List.pairwise_append]
  refine ⟨List.pairwise_map.2 hm, List.pairwise_map.2 (List.Pairwise.filter _ hes), ?_⟩
  intro x hx y hy
  obtain ⟨e, -, rfl⟩ := List.mem_map.1 hx
  obtain ⟨k, -, rfl⟩ := List.mem_map.1 hy
  trivial

theorem SequenceItems.items_ascending (xs : List Value) :
    (SequenceItems.items xs : List (Item γ)).Pairwise Item.Before :=
  List.pairwise_map.2 List.pairwise_lt_range

/-! ## Two containers of one shape -/

theorem Entry.find?_congr {e : Entry γ} {es fs : Entries Value}
    (hkeys : Entries.keys es = Entries.keys fs)
    (hread : ∀ k w, e.find? es = some (k, w) → Entries.lookup k es = Entries.lookup k fs) :
    e.find? es = e.find? fs := by
  have habsent {n : String} (hn : Entries.lookup n es = none) : Entries.lookup n fs = none :=
    (Entries.lookup_eq_none_of_keys hkeys n).1 hn
  cases hfind : e.find? es with
  | some found =>
    obtain ⟨k, w⟩ := found
    obtain ⟨before, after, hnames, hbefore, hlookup⟩ := find?_eq_some_iff.1 hfind
    have hlookup' : Entries.lookup k fs = some w := (hread k w hfind).symm.trans hlookup
    have hbefore' : ∀ n ∈ before, Entries.lookup n fs = none := fun n hn => habsent (hbefore n hn)
    exact (find?_eq_some_iff.2 ⟨before, after, hnames, hbefore', hlookup'⟩).symm
  | none =>
    refine (find?_eq_none_iff.2 fun n hn => ?_).symm
    exact habsent (find?_eq_none_iff.1 hfind n hn)

theorem MappingItems.receive_congr {m : MappingItems γ} {k : String} {w w' : Value}
    (hpattern : ∀ p, (m.patterns.find? fun p => p.pattern.accepts k) = some p → w = w')
    (hopen : ∀ r output c, (m.patterns.find? fun p => p.pattern.accepts k) = none →
      m.openRule = some r → Passes (r.key call (.text k)) (some output) → r.values = some c →
        w = w') :
    (m.receive call (k, w)).dropResult = (m.receive call (k, w')).dropResult := by
  rw [receive, receive]
  dsimp only
  split
  · rfl
  · cases hfirst : m.patterns.find? fun p => p.pattern.accepts k with
    | some p => rw [hpattern p hfirst]
    | none =>
      cases hrule : m.openRule with
      | none => rfl
      | some r =>
        simp only [dropResult, bind_assoc]
        apply Run.bind_congr_of_passes
        intro o hkey
        cases o with
        | none => rfl
        | some output =>
          cases hvalues : r.values with
          | none =>
            -- The value is handed on, and the result is dropped.
            rw [OpenRule.value, OpenRule.value, hvalues]
            rfl
          | some c => rw [hopen r output c hfirst hrule hkey hvalues]

theorem SequenceItems.element_congr {q : SequenceItems γ} {i : Nat} {x x' : Value}
    (h : ∀ output c, Passes (q.openRule.key call (Value.ofNat i)) (some output) →
      q.openRule.values = some c → x = x') :
    (q.element call x i).dropResult = (q.element call x' i).dropResult := by
  rw [element, element]
  simp only [dropResult, bind_assoc]
  apply Run.bind_congr_of_passes
  intro o hkey
  cases o with
  | none => rfl
  | some output =>
    cases hvalues : q.openRule.values with
    | none =>
      rw [OpenRule.value, OpenRule.value, hvalues]
      rfl
    | some c => rw [h output c hkey hvalues]

namespace Structure

variable {s : Structure γ} {v v' : Value}

theorem items_congr (hsame : v.SameShape v') : s.items v = s.items v' := by
  obtain ⟨mapping, sequence⟩ := s
  cases hsame with
  | refl => rfl
  | @mapping es fs hkeys =>
    cases mapping with
    | none => rfl
    | some m =>
      change m.items es = m.items fs
      rw [MappingItems.items, MappingItems.items, hkeys]
  | @list xs ys hlength =>
    cases sequence with
    | none => rfl
    | some q =>
      change SequenceItems.items xs = SequenceItems.items ys
      rw [SequenceItems.items, SequenceItems.items, hlength]

theorem visit_mapping_congr {m : MappingItems γ} {sequence : Option (SequenceItems γ)}
    {es fs : Entries Value} (hes : Entries.Sorted es)
    (hkeys : Entries.keys es = Entries.keys fs) {item : Item γ}
    (hread : ∀ k, Reads ⟨some m, sequence⟩ call (.mapping es) item (.key k) →
      Entries.lookup k es = Entries.lookup k fs) :
    m.visit call context es item = m.visit call context fs item := by
  cases item with
  | entry e =>
    have hfind := Entry.find?_congr hkeys fun k w hfind => hread k (.entry rfl hfind)
    rw [MappingItems.visit, MappingItems.visit, Entry.apply, Entry.apply, hfind]
  | other k =>
    have hfs : Entries.Sorted fs := by
      rw [Entries.Sorted, ← hkeys]
      exact hes
    cases hlookup : Entries.lookup k es with
    | none =>
      have hlookup' := (Entries.lookup_eq_none_of_keys hkeys k).1 hlookup
      rw [MappingItems.visit, MappingItems.visit, hlookup, hlookup']
    | some w =>
      cases hlookup' : Entries.lookup k fs with
      | none => cases hlookup.symm.trans ((Entries.lookup_eq_none_of_keys hkeys k).2 hlookup')
      | some w' =>
        have hsame (h : Entries.lookup k es = Entries.lookup k fs) : w = w' :=
          Option.some.inj (hlookup.symm.trans (h.trans hlookup'))
        rw [MappingItems.visit_other hes (Entries.mem_of_lookup hlookup),
          MappingItems.visit_other hfs (Entries.mem_of_lookup hlookup')]
        apply MappingItems.receive_congr
        · intro p hfirst
          exact hsame (hread k (.pattern rfl hfirst))
        · intro r output c hfirst hopen hkey hvalues
          exact hsame (hread k (.openRule rfl hfirst hopen hkey hvalues))
  | element i => rfl

theorem visit_list_congr {mapping : Option (MappingItems γ)} {q : SequenceItems γ}
    {xs ys : List Value} (hlength : xs.length = ys.length) {item : Item γ}
    (hread : ∀ i, Reads ⟨mapping, some q⟩ call (.list xs) item (.index i) →
      xs[i]? = ys[i]?) : q.visit call xs item = q.visit call ys item := by
  cases item with
  | element i =>
    rw [SequenceItems.visit, SequenceItems.visit]
    cases hget : xs[i]? with
    | none =>
      have hget' : ys[i]? = none :=
        List.getElem?_eq_none (hlength ▸ List.getElem?_eq_none_iff.1 hget)
      rw [hget']
    | some x =>
      cases hget' : ys[i]? with
      | none =>
        have hnone : xs[i]? = none :=
          List.getElem?_eq_none (hlength.symm ▸ List.getElem?_eq_none_iff.1 hget')
        cases hget.symm.trans hnone
      | some x' =>
        apply SequenceItems.element_congr
        intro output c hkey hvalues
        have hsame := hread i (.element rfl hkey hvalues)
        exact Option.some.inj (hget.symm.trans (hsame.trans hget'))
  | _ => rfl

/-- Items that read the same in two containers of one shape end in the same way. -/
theorem visit_congr (hv : v.KeysAscend) (hsame : v.SameShape v') {item : Item γ}
    (hread : ∀ p, s.Reads call v item p → v.member? p = v'.member? p) :
    s.visit call context v item = s.visit call context v' item := by
  obtain ⟨mapping, sequence⟩ := s
  cases hsame with
  | refl => rfl
  | @mapping es fs hkeys =>
    cases mapping with
    | none => rfl
    | some m => exact visit_mapping_congr hv hkeys fun k => hread (.key k)
  | @list xs ys hlength =>
    cases sequence with
    | none => rfl
    | some q => exact visit_list_congr hlength fun i => hread (.index i)

end Structure

/-! ## Lists -/

namespace SequenceItems

variable {q : SequenceItems γ} {xs : List Value}

/-- A list fails with the error of the first index that fails. -/
theorem fails_apply_iff : Fails (q.apply call xs) err ↔
    ∃ before item, FailsAfter (q.visit call xs) (items xs) before item err := by
  have hitems : forM (items xs) (q.visit call xs) =
      forM xs.zipIdx fun x => (q.element call x.1 x.2).dropResult := by
    rw [items, List.range_eq_range', ← List.zipIdx_map_snd, List.map_map, List.forM_map]
    apply forM_congr
    rintro ⟨x, i⟩ hmem
    dsimp only [Function.comp_apply]
    rw [visit, List.mem_zipIdx_iff_getElem?.1 hmem]
  rw [apply, fails_bind_pure, ← fails_dropResult, dropResult_mapM, ← hitems, fails_forM]

/-- The error of an index is located under it. -/
theorem located_of_fails_visit {item : Item γ} (h : Fails (q.visit call xs item) err) :
    ∃ (i : Nat) (err' : ValidationError), item = .element i ∧ err = err'.within (.index i) := by
  cases item with
  | element i =>
    rw [visit] at h
    split at h
    · rename_i x _
      rw [fails_dropResult, element] at h
      rcases fails_bind.1 h with hkey | ⟨o, -, h⟩
      · exact (OpenRule.not_fails_key hkey).elim
      · cases o with
        | none => exact (not_fails_pure h).elim
        | some output =>
          obtain ⟨err', -, rfl⟩ := fails_under.1 h
          exact ⟨i, err', rfl, rfl⟩
    · exact (not_fails_pure h).elim
  | _ => exact (not_fails_pure h).elim

theorem passes_element_iff {x y : Value} {i : Nat} :
    Passes (q.element call x i) y ↔
      (Passes (q.openRule.key call (Value.ofNat i)) none ∧ y = x) ∨
      ∃ output, Passes (q.openRule.key call (Value.ofNat i)) (some output) ∧
        Passes (q.openRule.value call x) y := by
  rw [element, passes_bind]
  constructor
  · rintro ⟨o, hkey, h⟩
    cases o with
    | none => exact Or.inl ⟨hkey, (passes_pure.1 h).symm⟩
    | some output => exact Or.inr ⟨output, hkey, passes_under.1 h⟩
  · rintro (⟨hkey, rfl⟩ | ⟨output, hkey, h⟩)
    · exact ⟨none, hkey, passes_pure.2 rfl⟩
    · exact ⟨some output, hkey, passes_under.2 h⟩

/-- A list that passes keeps its length, and each element is the result of its own. -/
theorem passes_apply {w : Value} (h : Passes (q.apply call xs) w) :
    ∃ ys, w = .list ys ∧ ys.length = xs.length ∧
      ∀ i x y, xs[i]? = some x → ys[i]? = some y → Passes (q.element call x i) y := by
  obtain ⟨ys, hys, h⟩ := passes_bind.1 h
  have helements := hys.forall₂_mapM
  refine ⟨ys, (passes_pure.1 h).symm, by simpa using helements.length_eq.symm, ?_⟩
  intro i x y hx hy
  obtain ⟨hi, rfl⟩ := List.getElem?_eq_some_iff.1 hx
  obtain ⟨hi', rfl⟩ := List.getElem?_eq_some_iff.1 hy
  have hi'' : i < xs.zipIdx.length := by rwa [List.length_zipIdx]
  have hmember := helements.get hi'' hi'
  rwa [List.get_eq_getElem, List.getElem_zipIdx, Nat.zero_add] at hmember

end SequenceItems

/-! ## Structures -/

namespace Structure

variable {s : Structure γ} {v : Value}

/-- How a structure fails on values that it has no items for. -/
def kindFailure (s : Structure γ) : Failure :=
  match s.mapping, s.sequence with
  | some _, some _ => .notContainer
  | some _, none => .wrongKind .dict
  | none, _ => .wrongKind .list

/-- No item fails, but there are keys that no rule claims, and they are forbidden. -/
structure FailsUnknown (s : Structure γ) (call : Call γ) (context : Option Context) (v : Value)
    (keys : List String) : Prop where
  passed : ∀ item ∈ s.items v, Passes (s.visit call context v item) ()
  nonempty : keys ≠ []
  unclaimed : ∃ m es, s.mapping = some m ∧ v = .mapping es ∧ m.policy = .forbid ∧
    m.Unknown call es keys

theorem covers_congr {v' : Value} (hsame : v.SameShape v') : s.covers v = s.covers v' := by
  obtain ⟨mapping, sequence⟩ := s
  cases hsame with
  | refl => rfl
  | mapping => cases mapping <;> rfl
  | list => cases sequence <;> rfl

theorem kindFailure_ne_unknownKeys (s : Structure γ) (keys : List String) :
    s.kindFailure ≠ .unknownKeys keys := by
  rw [kindFailure]
  split <;> intro h <;> cases h

theorem apply_of_not_covers (h : s.covers v = false) :
    s.apply call context v = Run.fail s.kindFailure := by
  obtain ⟨mapping, sequence⟩ := s
  cases v <;> cases mapping <;> cases sequence <;> first | rfl | cases h

/-- A container fails with the error of the first item that fails.  If none fails, a mapping
may still fail about the keys that nothing claims. -/
theorem fails_apply_iff (hv : v.KeysAscend) (hcovers : s.covers v = true) :
    Fails (s.apply call context v) err ↔
      (∃ before item, FailsAfter (s.visit call context v) (s.items v) before item err) ∨
      ∃ keys, s.FailsUnknown call context v keys ∧ err = .here (.unknownKeys keys) := by
  obtain ⟨mapping, sequence⟩ := s
  cases v with
  | mapping es =>
    cases mapping with
    | none => cases hcovers
    | some m =>
      refine (MappingItems.fails_apply_iff hv).trans (or_congr_right ?_)
      constructor
      · rintro ⟨hpassed, hpolicy, keys, hne, hunknown, rfl⟩
        exact ⟨keys, ⟨hpassed, hne, m, es, rfl, rfl, hpolicy, hunknown⟩, rfl⟩
      · rintro ⟨keys, ⟨hpassed, hne, m', es', hm, hes, hpolicy, hunknown⟩, rfl⟩
        cases hm
        cases hes
        exact ⟨hpassed, hpolicy, keys, hne, hunknown, rfl⟩
  | list xs =>
    cases sequence with
    | none => cases hcovers
    | some q =>
      have hnot : ¬ ∃ keys, FailsUnknown ⟨mapping, some q⟩ call context (.list xs) keys ∧
          err = .here (.unknownKeys keys) := by
        rintro ⟨keys, ⟨-, -, m, es, -, hes, -⟩, -⟩
        cases hes
      rw [or_iff_left hnot]
      exact SequenceItems.fails_apply_iff
  | _ => cases hcovers

/-- No item fails about keys that nothing claims: its error is located below it, or is about a
parameter. -/
theorem not_fails_visit_unknown (hv : v.KeysAscend) {item : Item γ} {keys : List String} :
    ¬ Fails (s.visit call context v item) (.here (.unknownKeys keys)) := by
  obtain ⟨mapping, sequence⟩ := s
  intro h
  cases v with
  | mapping es =>
    cases mapping with
    | none => exact not_fails_pure h
    | some m =>
      rcases (MappingItems.fails_visit_iff hv).1 h with
        ⟨err', -, heq⟩ | ⟨e, name, -, -, heq⟩
      · cases congrArg ValidationError.path heq
      · cases heq
  | list xs =>
    cases sequence with
    | none => exact not_fails_pure h
    | some q =>
      obtain ⟨i, err', -, heq⟩ := SequenceItems.located_of_fails_visit h
      cases congrArg ValidationError.path heq
  | _ => exact not_fails_pure h

theorem items_ascending (hs : s.Made) (hv : v.KeysAscend) : (s.items v).Pairwise Item.Before := by
  obtain ⟨mapping, sequence⟩ := s
  cases v with
  | mapping es =>
    cases mapping with
    | none => exact List.Pairwise.nil
    | some m =>
      obtain ⟨entries, patterns, openRule, policy, rfl⟩ := hs m rfl
      exact MappingItems.items_ascending MappingItems.entries_make_ascending hv
  | list xs =>
    cases sequence with
    | none => exact List.Pairwise.nil
    | some q => exact SequenceItems.items_ascending xs
  | _ => exact List.Pairwise.nil

/-- A failing item keeps failing, and those before it keep passing, if nothing changes that
they read. -/
theorem failsAfter_congr (hv : v.KeysAscend) {v' : Value} (hsame : v.SameShape v')
    {before : List (Item γ)} {item : Item γ}
    (h : FailsAfter (s.visit call context v) (s.items v) before item err)
    (hread : ∀ x ∈ before ++ [item], ∀ p, s.Reads call v x p → v.member? p = v'.member? p) :
    FailsAfter (s.visit call context v') (s.items v') before item err where
  split := items_congr hsame ▸ h.split
  passed x hx := by
    rw [← visit_congr hv hsame (hread x (List.mem_append_left _ hx))]
    exact h.passed x hx
  fails := by
    rw [← visit_congr hv hsame (hread item (List.mem_append_right _ (List.mem_singleton_self _)))]
    exact h.fails

theorem covers_of_mem_items {item : Item γ} (h : item ∈ s.items v) : s.covers v = true := by
  obtain ⟨mapping, sequence⟩ := s
  cases v <;> cases mapping <;> cases sequence <;> first | rfl | cases h

/-- The error of the first item that fails is the error of every container of the same shape
that is the same where this item and those before it read. -/
theorem fails_of_failsAfter (hv : v.KeysAscend) {v' : Value} (hsame : v.SameShape v')
    {before : List (Item γ)} {item : Item γ}
    (h : FailsAfter (s.visit call context v) (s.items v) before item err)
    (hread : ∀ x ∈ before ++ [item], ∀ p, s.Reads call v x p → v.member? p = v'.member? p) :
    Fails (s.apply call context v') err := by
  obtain ⟨after, hsplit⟩ := h.split
  have hmem : item ∈ s.items v := by
    rw [hsplit]
    exact List.mem_append_right _ (List.mem_cons_self ..)
  have hcovers : s.covers v' = true := covers_congr hsame ▸ covers_of_mem_items hmem
  exact (fails_apply_iff (hsame.keysAscend hv) hcovers).2
    (Or.inl ⟨before, item, failsAfter_congr hv hsame h hread⟩)

theorem fails_unknown_iff (hv : v.KeysAscend) {keys : List String} :
    Fails (s.apply call context v) (.here (.unknownKeys keys)) ↔
      s.FailsUnknown call context v keys := by
  cases hcovers : s.covers v with
  | false =>
    rw [apply_of_not_covers hcovers, fails_fail]
    refine iff_of_false (fun h => ?_) (fun h => ?_)
    · exact s.kindFailure_ne_unknownKeys keys (congrArg ValidationError.failure h).symm
    · obtain ⟨m, es, hm, rfl, -⟩ := h.unclaimed
      simp [covers, hm] at hcovers
  | true =>
    rw [fails_apply_iff hv hcovers]
    constructor
    · rintro (⟨before, item, hfirst⟩ | ⟨keys', hunknown, heq⟩)
      · exact (not_fails_visit_unknown hv hfirst.fails).elim
      · cases heq
        exact hunknown
    · intro h
      exact Or.inr ⟨keys, h, rfl⟩

theorem passes_list {xs : List Value} {w : Value}
    (h : Passes (s.apply call context (.list xs)) w) :
    ∃ q ys, s.sequence = some q ∧ w = .list ys ∧ ys.length = xs.length ∧
      ∀ i x y, xs[i]? = some x → ys[i]? = some y →
        (Passes (q.openRule.key call (Value.ofNat i)) none ∧ y = x) ∨
        ∃ output, Passes (q.openRule.key call (Value.ofNat i)) (some output) ∧
          Passes (q.openRule.value call x) y := by
  obtain ⟨mapping, sequence⟩ := s
  cases sequence with
  | none =>
    rw [apply_of_not_covers rfl] at h
    exact (not_passes_fail h).elim
  | some q =>
    obtain ⟨ys, rfl, hlength, helements⟩ := SequenceItems.passes_apply h
    exact ⟨q, ys, rfl, rfl, hlength, fun i x y hx hy =>
      SequenceItems.passes_element_iff.1 (helements i x y hx hy)⟩

/-- The items of a container are checked in order.  A container that has items fails at the
first one that fails, those before it passing on their own, or about unknown keys.  The error
of the first item that fails is that of every container of the same shape that is the same
where this item and those before it read.  The failure about unknown keys means that no item
fails, and lists the keys that nothing claims, in order.  A list that passes keeps its length;
each element is the result of the rule for values, or stays what it is if the rule for keys
refuses its index. -/
theorem first_failure_stable (hs : s.Made) (hv : v.KeysAscend) :
    (s.items v).Pairwise Item.Before ∧
    (∀ err, s.covers v = true → Fails (s.apply call context v) err →
      (∃ before item, FailsAfter (s.visit call context v) (s.items v) before item err) ∨
      ∃ keys, err = .here (.unknownKeys keys)) ∧
    (∀ err before item v', FailsAfter (s.visit call context v) (s.items v) before item err →
      v.SameShape v' →
      (∀ x ∈ before ++ [item], ∀ p, s.Reads call v x p → v.member? p = v'.member? p) →
        Fails (s.apply call context v') err) ∧
    (∀ keys, Fails (s.apply call context v) (.here (.unknownKeys keys)) ↔
      s.FailsUnknown call context v keys) ∧
    (∀ xs w, v = .list xs → Passes (s.apply call context v) w →
      ∃ q ys, s.sequence = some q ∧ w = .list ys ∧ ys.length = xs.length ∧
        ∀ i x y, xs[i]? = some x → ys[i]? = some y →
          (Passes (q.openRule.key call (Value.ofNat i)) none ∧ y = x) ∨
          ∃ output, Passes (q.openRule.key call (Value.ofNat i)) (some output) ∧
            Passes (q.openRule.value call x) y) := by
  refine ⟨items_ascending hs hv, ?_, ?_, fun keys => fails_unknown_iff hv, ?_⟩
  · intro err hcovers h
    rcases (fails_apply_iff hv hcovers).1 h with hfirst | ⟨keys, -, heq⟩
    · exact Or.inl hfirst
    · exact Or.inr ⟨keys, heq⟩
  · intro err before item v' hfirst hsame hread
    exact fails_of_failsAfter hv hsame hfirst hread
  · rintro xs w rfl h
    exact passes_list h

/-- An entry that has to be there, under its key or one of its synonyms. -/
def demanded (key : String) (synonyms : List String) : Entry Unit where
  key
  output := key
  synonyms
  callee := ()
  default := none
  required := true

/-- A brand, a colour in either spelling and a size, with remarks under digits and no other
keys; and elements that pass the rule. -/
def strict : Structure Unit where
  mapping := some (MappingItems.make
    [demanded "size" [], demanded "colour" ["color"], demanded "brand" []]
    ((Pattern.ofSource? .estimate "[0-9]").toList.map fun pattern => ⟨pattern, none, ()⟩) none
    .forbid)
  sequence := some ⟨⟨none, some ()⟩⟩

/-- An article with a remark. -/
def article (remark brand color size : Value) : Entries Value :=
  [("1", remark), ("brand", brand), ("color", color), ("size", size)]

/-- An article with a key that no rule claims. -/
def oddArticle : Entries Value :=
  article (.bool true) (.bool true) (.bool true) (.bool true) ++ [("u", .null)]

/-- The rule that null fails and everything else passes. -/
def refuseNull : Call Unit := fun _ v => if v.isNull then Run.fail (.wrongKind .bool) else pure v

/-- The second element is not read, since the first one fails.  A colour fails under the
spelling that it is found under, after a brand that passes, whatever the size and the remark
are.  A key is not claimed, and an only element passes. -/
theorem first_failure_stable_strict :
    Fails (strict.apply refuseNull none (.list [.null, .bool false]))
        ⟨[.index 0], .wrongKind .bool⟩ ∧
      (∀ remark size, Fails (strict.apply refuseNull none
        (.mapping (article remark (.bool true) .null size))) ⟨[.key "color"], .wrongKind .bool⟩) ∧
      strict.FailsUnknown refuseNull none (.mapping oddArticle) ["u"] ∧
      ∃ q, strict.sequence = some q ∧
        Passes (q.openRule.value refuseNull (.bool true)) (.bool true) := by
  have hmade : strict.Made := by
    rintro m ⟨⟩
    exact ⟨_, _, none, .forbid, rfl⟩
  have hfails : Fails (strict.apply refuseNull none (.list [.null, .bool true]))
      ⟨[.index 0], .wrongKind .bool⟩ := rfl
  have hcolour : FailsAfter
      (strict.visit refuseNull none (.mapping (article .null (.bool true) .null .null)))
      (strict.items (.mapping (article .null (.bool true) .null .null)))
      [.entry (demanded "brand" [])] (.entry (demanded "colour" ["color"]))
      ⟨[.key "color"], .wrongKind .bool⟩ := {
    split := ⟨[.entry (demanded "size" []), .other "1"], rfl⟩
    passed := fun x hx => by
      obtain rfl := List.mem_singleton.1 hx
      rfl
    fails := rfl }
  have hunknown : Fails (strict.apply refuseNull none (.mapping oddArticle))
      (.here (.unknownKeys ["u"])) := rfl
  have hpasses : Passes (strict.apply refuseNull none (.list [.bool true])) (.list [.bool true]) :=
    rfl
  have hlist (xs : List Value) : (Value.list xs).KeysAscend := trivial
  have harticle (remark brand color size : Value) :
      (Value.mapping (article remark brand color size)).KeysAscend := by
    change ["1", "brand", "color", "size"].Pairwise (· < ·)
    decide
  have hodd : (Value.mapping oddArticle).KeysAscend := by
    change ["1", "brand", "color", "size", "u"].Pairwise (· < ·)
    decide
  refine ⟨?_, fun remark size => ?_, ?_, ?_⟩
  · obtain ⟨-, hfirst, hstable, -⟩ := first_failure_stable hmade (hlist [.null, .bool true])
    rcases hfirst _ rfl hfails with ⟨before, item, hfirst⟩ | ⟨keys, heq⟩
    · refine hstable _ before item _ hfirst (.list rfl) ?_
      obtain ⟨after, hsplit⟩ := hfirst.split
      -- The first element fails, so that nothing comes before it.
      cases before with
      | nil =>
        obtain ⟨rfl, -⟩ := List.cons.inj hsplit
        intro x hx p hread
        obtain rfl := List.mem_singleton.1 hx
        cases hread
        rfl
      | cons y before =>
        obtain ⟨rfl, -⟩ := List.cons.inj hsplit
        cases hfirst.passed _ (List.mem_cons_self ..)
    · cases heq
  · obtain ⟨-, -, hstable, -⟩ :=
      first_failure_stable hmade (harticle .null (.bool true) .null .null)
    refine hstable _ _ _ _ hcolour (.mapping rfl) ?_
    -- The brand and the colour are read, and they are the same in both articles.
    intro x hx p hread
    rcases List.mem_pair.1 hx with rfl | rfl
    · rw [Reads.eq_of_find? (k := "brand") rfl hread]
      rfl
    · rw [Reads.eq_of_find? (k := "color") rfl hread]
      rfl
  · exact ((first_failure_stable hmade hodd).2.2.2.1 _).1 hunknown
  · obtain ⟨q, ys, hq, hys, -, helements⟩ :=
      (first_failure_stable hmade (hlist _)).2.2.2.2 _ _ rfl hpasses
    cases hys
    rcases helements 0 _ _ rfl rfl with ⟨hkey, -⟩ | ⟨output, -, hvalue⟩
    · cases hq
      cases hkey
    · exact ⟨q, hq, hvalue⟩

end Structure

end Rulebook
