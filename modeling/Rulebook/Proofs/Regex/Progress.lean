import Rulebook.Proofs.Regex.Rounds

/-!
# Reading goes forward

What is left after reading is an end of what was there before.  Most readers take at least
one character; what is left then is an end of what stands behind the next character.
-/

namespace Rulebook
namespace Regex

open scoped CorePower

namespace ParseState

/-- What is left in the first state is an end of what is left in the second one. -/
def After (t s : ParseState) : Prop := t.rest <:+ s.rest

/-- What is left in the first state is an end of what stands behind the next character of the
second one. -/
def Past (t s : ParseState) : Prop := t.rest <:+ s.rest.tail

variable {s t u : ParseState}

theorem After.refl (s : ParseState) : s.After s := List.suffix_rfl

theorem After.trans (h : t.After u) (h' : u.After s) : t.After s := List.IsSuffix.trans h h'

theorem Past.after (h : t.Past s) : t.After s := h.trans (List.tail_suffix _)

theorem After.past (h : t.After u) (h' : u.Past s) : t.Past s := List.IsSuffix.trans h h'

theorem tail_suffix_tail {l m : List Char} (h : l <:+ m) : l.tail <:+ m.tail := by
  obtain ⟨front, rfl⟩ := h
  cases front with
  | nil => exact List.suffix_rfl
  | cons c front => exact (List.tail_suffix l).trans (List.suffix_append front l)

theorem Past.trans (h : t.Past u) (h' : u.After s) : t.Past s :=
  List.IsSuffix.trans h (tail_suffix_tail h')

theorem Past.length_lt (h : t.Past s) (hs : s.rest ≠ []) : t.rest.length < s.rest.length := by
  have hle := h.length_le
  have hpos := List.length_pos_iff.2 hs
  rw [List.length_tail] at hle
  omega

/-- What is read with a budget above the number of characters left goes on with a smaller one. -/
theorem Past.length_lt_of_lt_succ {n : Nat} (h : t.Past s) (hs : s.rest ≠ [])
    (hn : s.rest.length < n + 1) : t.rest.length < n :=
  Nat.lt_of_lt_of_le (h.length_lt hs) (Nat.le_of_lt_succ hn)

theorem advance_past (s : ParseState) : s.advance.Past s := by
  show s.rest.drop 1 <:+ s.rest.tail
  cases s.rest <;> exact List.suffix_rfl

theorem skipComments_suffix (fuel : Nat) (cs : List Char) : skipComments fuel cs <:+ cs := by
  induction fuel generalizing cs with
  | zero => exact List.suffix_rfl
  | succ fuel ih =>
    cases cs with
    | nil => exact List.suffix_rfl
    | cons c cs =>
      rw [skipComments]
      split
      · exact (ih cs).trans (List.suffix_cons c cs)
      · split
        · exact ((ih _).trans ((List.drop_suffix _ _).trans (List.dropWhile_suffix _))).trans
            (List.suffix_cons c cs)
        · exact List.suffix_rfl

theorem skip_after (s : ParseState) : s.skip.After s := by
  rw [skip]
  split
  · exact skipComments_suffix _ _
  · exact .refl s

theorem advanceSkip_past (s : ParseState) : s.advanceSkip.Past s :=
  (skip_after s.advance).past (advance_past s)

theorem after?_after {word : String} (h : s.after? word = some t) : t.After s := by
  rw [after?] at h
  split at h
  · cases h
    exact List.drop_suffix _ _
  · cases h

theorem after?_past {word : String} (hword : word.length ≠ 0) (h : s.after? word = some t) :
    t.Past s := by
  rw [after?] at h
  split at h
  · cases h
    obtain ⟨n, hn⟩ := Nat.exists_eq_succ_of_ne_zero hword
    rw [Past, hn, Nat.succ_eq_add_one, Nat.add_comm, ← List.drop_drop, List.drop_one]
    exact List.drop_suffix _ _
  · cases h

end ParseState

open ParseState

variable {s t : ParseState}

/-! ## Escapes -/

theorem hexDigits_after {n : Nat} {acc cs : List Char} (h : hexDigits n acc s = some (cs, t)) :
    t.After s := by
  induction n generalizing acc s with
  | zero =>
    cases h
    exact .refl _
  | succ n ih =>
    simp only [hexDigits, Option.bind_eq_bind, Option.bind_eq_some_iff] at h
    obtain ⟨c, -, h⟩ := h
    split at h
    · cases h
    · exact (ih h).trans (advanceSkip_past s).after

theorem hexBraced_after {fuel : Nat} {acc cs : List Char}
    (h : hexBraced fuel acc s = some (cs, t)) : t.After s := by
  induction fuel generalizing acc s with
  | zero => cases h
  | succ fuel ih =>
    simp only [hexBraced, Option.bind_eq_bind, Option.bind_eq_some_iff] at h
    obtain ⟨c, -, h⟩ := h
    split at h
    · cases h
      exact (advanceSkip_past s).after
    · split at h
      · cases h
      · exact (ih h).trans (advanceSkip_past s).after

theorem hexLiteral_after {letter : Char} {l : Literal} (h : hexLiteral letter s = some (l, t)) :
    t.After s := by
  rw [hexLiteral_eq] at h
  obtain ⟨c, -, h⟩ := Option.bind_eq_some_iff.1 h
  split at h
  · obtain ⟨⟨digits, u⟩, hdigits, h⟩ := Option.bind_eq_some_iff.1 h
    obtain ⟨d, -, heq⟩ := Option.map_eq_some_iff.1 h
    cases heq
    exact (hexBraced_after hdigits).trans (advanceSkip_past s).after
  · obtain ⟨⟨digits, u⟩, hdigits, h⟩ := Option.bind_eq_some_iff.1 h
    obtain ⟨d, -, heq⟩ := Option.map_eq_some_iff.1 h
    cases heq
    exact hexDigits_after hdigits

theorem propertyText_past {fuel : Nat} {acc cs : List Char}
    (h : propertyText fuel acc s = some (cs, t)) : t.Past s := by
  induction fuel generalizing acc s with
  | zero => cases h
  | succ fuel ih =>
    simp only [propertyText, Option.bind_eq_bind, Option.bind_eq_some_iff] at h
    obtain ⟨c, -, h⟩ := h
    split at h
    · cases h
      exact advance_past s
    · exact (ih h).after.past (advanceSkip_past s)

theorem propertyClass_past {negated : Bool} {k : Class}
    (h : propertyClass negated s = some (k, t)) : t.Past s := by
  rw [propertyClass_eq] at h
  obtain ⟨c, -, h⟩ := Option.bind_eq_some_iff.1 h
  split at h
  · obtain ⟨⟨cs, u⟩, htext, heq⟩ := Option.map_eq_some_iff.1 h
    cases heq
    exact (propertyText_past htext).after.past (advanceSkip_past s)
  · split at h
    · cases h
    · cases h
      exact advanceSkip_past s

theorem boundaryName_after {fuel : Nat} {acc cs : List Char}
    (h : boundaryName fuel acc s = some (cs, t)) : t.After s := by
  induction fuel generalizing acc s with
  | zero => cases h
  | succ fuel ih =>
    simp only [boundaryName, Option.bind_eq_bind, Option.bind_eq_some_iff] at h
    obtain ⟨c, -, h⟩ := h
    split at h
    · cases h
      exact (advance_past s).after
    · split at h
      · exact (ih h).trans (advanceSkip_past s).after
      · cases h

theorem wordBoundary_after {a : Assertion} (h : wordBoundary s = some (a, t)) : t.After s := by
  rw [wordBoundary_eq] at h
  split at h
  · obtain ⟨c, -, h⟩ := Option.bind_eq_some_iff.1 h
    split at h
    · obtain ⟨⟨name, u⟩, hname, h⟩ := Option.bind_eq_some_iff.1 h
      obtain ⟨b, -, heq⟩ := Option.map_eq_some_iff.1 h
      cases heq
      exact (boundaryName_after hname).trans (advanceSkip_past s).after
    · cases h
      exact .refl _
  · cases h
    exact .refl _

theorem escaped_past {e : Escaped} (h : escaped s = some (e, t)) : t.Past s := by
  obtain ⟨c, -, h⟩ := Option.bind_eq_some_iff.1 h
  split at h
  · cases h
  · split at h
    · obtain ⟨⟨l, u⟩, hread, heq⟩ := Option.map_eq_some_iff.1 h
      cases heq
      exact (hexLiteral_after hread).past (advanceSkip_past s)
    · split at h
      · obtain ⟨⟨k, u⟩, hread, heq⟩ := Option.map_eq_some_iff.1 h
        cases heq
        exact (propertyClass_past hread).after.past (advanceSkip_past s)
      · split at h
        · obtain ⟨⟨a, u⟩, hread, heq⟩ := Option.map_eq_some_iff.1 h
          cases heq
          exact (wordBoundary_after hread).past (advance_past s)
        · obtain ⟨e, -, heq⟩ := Option.map_eq_some_iff.1 h
          cases heq
          exact advance_past s

theorem escape_past {e : Escaped} (h : escape s = some (e, t)) : t.Past s := by
  rw [escape_eq] at h
  exact (escaped_past h).after.past (advance_past s)

/-! ## Bracketed classes -/

theorem asciiItem_past {k : Class} (h : asciiItem s = some (k, t)) : t.Past s := by
  rw [asciiItem_eq] at h
  obtain ⟨inside, hopen, h⟩ := Option.bind_eq_some_iff.1 h
  obtain ⟨done, hdone, h⟩ := Option.bind_eq_some_iff.1 h
  obtain ⟨kind, -, heq⟩ := Option.map_eq_some_iff.1 h
  cases heq
  have hspan (cs : List Char) : (cs.span (· != ':')).2 <:+ cs := by
    rw [List.span_eq_takeWhile_dropWhile]
    exact List.dropWhile_suffix _
  have hcaret : (behindCaret inside).2.After inside := by
    rw [behindCaret]
    split
    · rename_i hcaret
      exact after?_after hcaret
    · exact .refl _
  exact After.past ((after?_after hdone).trans ((hspan _).trans hcaret))
    (after?_past (by decide) hopen)

theorem classItem_past {k : Class} (h : classItem s = some (k, t)) : t.Past s := by
  rw [classItem_eq] at h
  obtain ⟨c, -, h⟩ := Option.bind_eq_some_iff.1 h
  split at h
  · obtain ⟨⟨e, u⟩, hescape, h⟩ := Option.bind_eq_some_iff.1 h
    obtain ⟨k, -, heq⟩ := Option.map_eq_some_iff.1 h
    cases heq
    exact escape_past hescape
  · cases h
    exact advance_past s

theorem rangeFrom_after {first k : Class} (h : rangeFrom first s = some (k, t)) : t.After s := by
  obtain ⟨c, -, h⟩ := Option.bind_eq_some_iff.1 h
  split at h
  · cases h
    exact .refl _
  · obtain ⟨⟨last, u⟩, hlast, h⟩ := Option.bind_eq_some_iff.1 h
    have hafter : u.After s := (classItem_past hlast).after.trans (advanceSkip_past s).after
    dsimp only at h
    split at h
    · split at h <;> cases h
      exact hafter
    · cases h

theorem classRange_past {k : Class} (h : classRange s = some (k, t)) : t.Past s := by
  rw [classRange_eq] at h
  obtain ⟨⟨first, u⟩, hfirst, h⟩ := Option.bind_eq_some_iff.1 h
  exact ((rangeFrom_after h).trans (skip_after u)).past (classItem_past hfirst)

theorem leadingHyphens_after {fuel : Nat} {acc items : List Class}
    (h : leadingHyphens fuel acc s = some (items, t)) : t.After s := by
  induction fuel generalizing acc s with
  | zero =>
    cases h
    exact .refl _
  | succ fuel ih =>
    rw [leadingHyphens_succ] at h
    obtain ⟨c, -, h⟩ := Option.bind_eq_some_iff.1 h
    split at h
    · exact (ih h).trans (advanceSkip_past s).after
    · cases h
      exact .refl _

theorem classOperation?_past {op : ClassOperation} (h : classOperation? s = some (op, t)) :
    t.Past s := by
  simp only [classOperation?, Option.or_eq_some_iff, Option.map_eq_some_iff] at h
  rcases h with ⟨u, hu, heq⟩ | ⟨-, ⟨u, hu, heq⟩ | ⟨-, u, hu, heq⟩⟩ <;>
  · cases heq
    exact after?_past (by decide) hu

theorem classStart_after (s : ParseState) (c : Char) : (classStart s c).After s := by
  rw [classStart]
  split
  · exact (advanceSkip_past s).after
  · exact .refl s

theorem bracketedFrom_past_of {fuel : Nat} {negated : Bool} {items : List Class} {k : Class}
    (hbody : ∀ items left s t k, classBody fuel items left s = some (k, t) → t.Past s.skip)
    (h : bracketedFrom fuel negated items s = some (k, t)) : t.Past s := by
  obtain ⟨c, -, h⟩ := Option.bind_eq_some_iff.1 h
  split at h
  · split at h
    · cases h
    · obtain ⟨⟨k, v⟩, hread, heq⟩ := Option.map_eq_some_iff.1 h
      cases heq
      exact ((hbody _ _ _ _ _ hread).after.trans (skip_after _)).past (advanceSkip_past s)
  · obtain ⟨⟨k, v⟩, hread, heq⟩ := Option.map_eq_some_iff.1 h
    cases heq
    exact (hbody _ _ _ _ _ hread).trans (skip_after s)

theorem itemsRound_past {body : List Class → Option (Class × ClassOperation) → Parse Class}
    {nested : Parse Class} {items : List Class} {left : Option (Class × ClassOperation)}
    {k : Class}
    (hbody : ∀ {items left s t k}, body items left s = some (k, t) → t.After s)
    (hnested : ∀ {s t k}, nested s = some (k, t) → t.Past s)
    (h : itemsRound body nested items left s = some (k, t)) : t.Past s := by
  obtain ⟨c, -, h⟩ := Option.bind_eq_some_iff.1 h
  split at h
  · split at h
    · rename_i hitem
      exact (hbody h).past (asciiItem_past hitem)
    · obtain ⟨r, hitem, h⟩ := Option.bind_eq_some_iff.1 h
      exact (hbody h).past (hnested hitem)
  · split at h
    · cases h
      exact advance_past _
    · split at h
      · rename_i hop
        exact (hbody h).past (classOperation?_past hop)
      · obtain ⟨r, hitem, h⟩ := Option.bind_eq_some_iff.1 h
        exact (hbody h).past (classRange_past hitem)

/-- A class is read past what is skipped behind its opening bracket, and the items of a class
past what is skipped before them. -/
theorem brackets_past (fuel : Nat) :
    (∀ s t k, bracketed fuel s = some (k, t) → t.Past s.advanceSkip) ∧
      ∀ items left s t k, classBody fuel items left s = some (k, t) → t.Past s.skip := by
  induction fuel with
  | zero =>
    refine ⟨fun s t k h => ?_, fun items left s t k h => ?_⟩
    · cases h
    · cases h
  | succ fuel ih =>
    obtain ⟨hbracketed, hbody⟩ := ih
    constructor
    · intro s t k h
      rw [bracketed_succ] at h
      obtain ⟨c, -, h⟩ := Option.bind_eq_some_iff.1 h
      obtain ⟨⟨items, u⟩, hhyphens, h⟩ := Option.bind_eq_some_iff.1 h
      exact (bracketedFrom_past_of hbody h).trans
        ((leadingHyphens_after hhyphens).trans (classStart_after _ c))
    · intro items left s t k h
      rw [classBody_succ] at h
      exact itemsRound_past (fun h => (hbody _ _ _ _ _ h).after.trans (skip_after _))
        (fun h => (hbracketed _ _ _ h).after.past (advanceSkip_past _)) h

theorem bracketed_past {fuel : Nat} {k : Class} (h : bracketed fuel s = some (k, t)) :
    t.Past s.advanceSkip :=
  (brackets_past fuel).1 s t k h

theorem classBody_past {fuel : Nat} {items : List Class} {left : Option (Class × ClassOperation)}
    {k : Class} (h : classBody fuel items left s = some (k, t)) : t.Past s.skip :=
  (brackets_past fuel).2 items left s t k h

theorem bracketedFrom_past {fuel : Nat} {negated : Bool} {items : List Class} {k : Class}
    (h : bracketedFrom fuel negated items s = some (k, t)) : t.Past s :=
  bracketedFrom_past_of (fun _ _ _ _ _ => classBody_past) h

/-! ## Repetitions -/

theorem countDigits_after (fuel : Nat) (acc : List Char) (s : ParseState) :
    (countDigits fuel acc s).2.After s := by
  induction fuel generalizing acc s with
  | zero => exact .refl s
  | succ fuel ih =>
    rw [countDigits]
    split
    · split
      · exact (ih _ _).trans (advanceSkip_past s).after
      · exact .refl s
    · exact .refl s

theorem skipWhite_after (s : ParseState) : (skipWhite s).After s := List.dropWhile_suffix _

theorem count_after (s : ParseState) : (count s).2.After s := by
  rw [count]
  exact (skip_after _).trans ((skipWhite_after _).trans
    ((countDigits_after ((skipWhite s).rest.length + 1) [] _).trans (skipWhite_after s)))

theorem countMost_after {least : Nat} {bounds : Nat × Option Nat}
    (h : countMost least s = some (bounds, t)) : t.After s := by
  obtain ⟨c, -, h⟩ := Option.bind_eq_some_iff.1 h
  split at h
  · cases h
    exact .refl s
  · obtain ⟨most, -, heq⟩ := Option.map_eq_some_iff.1 h
    cases heq
    exact count_after s

theorem countRange_after {bounds : Nat × Option Nat} (h : countRange s = some (bounds, t)) :
    t.After s := by
  obtain ⟨c, -, h⟩ := Option.bind_eq_some_iff.1 h
  obtain ⟨least, -, h⟩ := Option.bind_eq_some_iff.1 h
  split at h
  · exact (countMost_after h).trans ((advanceSkip_past _).after.trans (count_after s))
  · cases h
    exact count_after s

theorem countEnd_past {bounds bounds' : Nat × Option Nat}
    (h : countEnd bounds s = some (bounds', t)) : t.Past s := by
  obtain ⟨c, -, h⟩ := Option.bind_eq_some_iff.1 h
  split at h
  · cases h
    split
    · exact (advance_past _).after.past (advanceSkip_past s)
    · exact advanceSkip_past s
  · cases h

theorem countedBounds_past {bounds : Nat × Option Nat} (h : countedBounds s = some (bounds, t)) :
    t.Past s := by
  rw [countedBounds_eq] at h
  split at h
  · cases h
  · obtain ⟨⟨bounds', u⟩, hrange, hend⟩ := Option.bind_eq_some_iff.1 h
    exact ((countEnd_past hend).after.trans (countRange_after hrange)).past (advanceSkip_past s)

theorem repetitionBounds_past {c : Char} {bounds : Nat × Option Nat}
    (h : repetitionBounds c s = some (bounds, t)) : t.Past s := by
  rw [repetitionBounds] at h
  split at h
  · exact countedBounds_past h
  · cases h
    split
    · exact (advance_past _).after.past (advance_past s)
    · exact advance_past s

/-! ## Groups and sequences -/

/-- A colon or a closing parenthesis is left behind flags. -/
theorem flagChanges_rest_ne_nil {fuel : Nat} {acc changes : FlagChanges} {negated dangling : Bool}
    (h : flagChanges fuel acc negated dangling s = some (changes, t)) : t.rest ≠ [] := by
  induction fuel generalizing acc negated dangling s with
  | zero => cases h
  | succ fuel ih =>
    simp only [flagChanges, Option.bind_eq_bind, Option.bind_eq_some_iff] at h
    obtain ⟨c, hnext, h⟩ := h
    split at h
    · split at h
      · cases h
      · cases h
        exact List.ne_nil_of_mem (List.mem_of_head? hnext)
    · split at h
      · split at h
        · cases h
        · exact ih h
      · obtain ⟨flag, -, h⟩ := Option.bind_eq_some_iff.1 h
        split at h
        · cases h
        · exact ih h

theorem flagChanges_after {fuel : Nat} {acc changes : FlagChanges} {negated dangling : Bool}
    (h : flagChanges fuel acc negated dangling s = some (changes, t)) : t.After s := by
  induction fuel generalizing acc negated dangling s with
  | zero => cases h
  | succ fuel ih =>
    simp only [flagChanges, Option.bind_eq_bind, Option.bind_eq_some_iff] at h
    obtain ⟨c, -, h⟩ := h
    split at h
    · split at h
      · cases h
      · cases h
        exact .refl _
    · split at h
      · split at h
        · cases h
        · exact (ih h).trans (advance_past s).after
      · obtain ⟨flag, -, h⟩ := Option.bind_eq_some_iff.1 h
        split at h
        · cases h
        · exact (ih h).trans (advance_past s).after

theorem groupName_after {name : String} (h : groupName s = some (name, t)) : t.After s := by
  rw [groupName_eq] at h
  split at h
  · cases h
  · obtain ⟨name, -, heq⟩ := Option.map_eq_some_iff.1 h
    cases heq
    exact (List.tail_suffix _).trans (List.dropWhile_suffix _)

theorem flagged_after {o : Opening} (h : flagged s = some (o, t)) : t.After s := by
  obtain ⟨⟨changes, u⟩, hflags, h⟩ := Option.bind_eq_some_iff.1 h
  have hafter := flagChanges_after hflags
  split at h
  · cases h
    exact (advance_past u).after.trans hafter
  · split at h
    · cases h
    · cases h
      exact (advance_past u).after.trans hafter

theorem opening_past {o : Opening} (h : opening s = some (o, t)) : t.Past s := by
  rw [opening_eq, opened] at h
  refine After.past ?_ (advanceSkip_past s)
  split at h
  · cases h
  · split at h
    · rename_i inside hnamed
      obtain ⟨⟨name, u⟩, hname, heq⟩ := Option.map_eq_some_iff.1 h
      cases heq
      refine (groupName_after hname).trans ?_
      rcases Option.or_eq_some_iff.1 hnamed with hafter | ⟨-, hafter⟩
      · exact after?_after hafter
      · exact after?_after hafter
    · split at h
      · cases h
        exact .refl _
      · rename_i inside hmark
        exact (flagged_after h).trans (after?_after hmark)

theorem primitive_past {tree : Tree} (h : primitive s = some (tree, t)) : t.Past s := by
  rw [primitive_eq] at h
  obtain ⟨c, -, h⟩ := Option.bind_eq_some_iff.1 h
  split at h
  · obtain ⟨⟨e, u⟩, hescape, heq⟩ := Option.map_eq_some_iff.1 h
    cases heq
    exact escape_past hescape
  · cases h
    exact advance_past s

section

variable {read : List Tree → List Tree → Parse Tree} {items branches : List Tree}
  {r : Tree × ParseState}

/-- How a round of the branches comes to a result: it is the last one, or a further one reads on
past the next character. -/
inductive Continues (read : List Tree → List Tree → Parse Tree) (items branches : List Tree)
    (s : ParseState) (r : Tree × ParseState) : Prop where
  | done (hnext : s.next? = none ∨ s.next? = some ')') (hr : r = (branchesTree items branches, s))
  | onward (items' branches' : List Tree) (t : ParseState) (ht : t.Past s)
      (hread : read items' branches' t = some r)

theorem repetitionRound_onward {c : Char} (h : repetitionRound read branches c s items = some r) :
    ∃ items' t, t.Past s ∧ read items' branches t = some r := by
  cases items with
  | nil => cases h
  | cons item items =>
    rw [repetitionRound] at h
    split at h
    · obtain ⟨bounds, hbounds, h⟩ := Option.bind_eq_some_iff.1 h
      exact ⟨_, bounds.2, repetitionBounds_past hbounds, h⟩
    · cases h

variable (hread : ∀ {items branches r s}, read items branches s = some r → r.2.After s)
include hread

theorem groupRound_onward {o : Opening × ParseState}
    (h : groupRound read items branches s o = some r) :
    ∃ items' t, t.After o.2 ∧ read items' branches t = some r := by
  obtain ⟨⟨changes⟩ | ⟨changes⟩, u⟩ := o
  · exact ⟨_, entered changes u, .refl u, h⟩
  · obtain ⟨⟨inner, v⟩, hinner, h⟩ := Option.bind_eq_some_iff.1 h
    have hinside : v.After (entered changes u) := hread hinner
    split at h
    · exact ⟨_, behindGroup s v, (advance_past v).after.trans hinside, h⟩
    · cases h

theorem groupRound_after {o : Opening × ParseState}
    (h : groupRound read items branches s o = some r) : r.2.After o.2 := by
  obtain ⟨items', t, ht, h⟩ := groupRound_onward hread h
  exact (hread h).trans ht

theorem branchesRound_continues (h : branchesRound read items branches s = some r) :
    Continues read items branches s r := by
  rw [branchesRound] at h
  split at h
  · rename_i hnext
    cases h
    exact .done (Or.inl hnext) rfl
  · rename_i c hnext
    split at h
    · rename_i hc
      cases h
      exact .done (Or.inr (hc ▸ hnext)) rfl
    · split at h
      · exact .onward _ _ _ (advance_past s) h
      · split at h
        · obtain ⟨o, hopening, h⟩ := Option.bind_eq_some_iff.1 h
          obtain ⟨items', t, ht, h⟩ := groupRound_onward hread h
          exact .onward _ _ t (ht.past (opening_past hopening)) h
        · split at h
          · obtain ⟨k, hclass, h⟩ := Option.bind_eq_some_iff.1 h
            exact .onward _ _ k.2 ((bracketed_past hclass).after.past (advanceSkip_past s)) h
          · split at h
            · obtain ⟨items', t, ht, h⟩ := repetitionRound_onward h
              exact .onward _ _ t ht h
            · obtain ⟨tree, hprimitive, h⟩ := Option.bind_eq_some_iff.1 h
              exact .onward _ _ tree.2 (primitive_past hprimitive) h

end

theorem readBranches_after {fuel : Nat} {items branches : List Tree} {r : Tree × ParseState}
    (h : readBranches fuel items branches s = some r) : r.2.After s := by
  induction fuel generalizing items branches r s with
  | zero => cases h
  | succ fuel ih =>
    rw [readBranches_succ] at h
    refine After.trans ?_ (skip_after s)
    cases branchesRound_continues ih h with
    | done _ hr => exact hr ▸ .refl s.skip
    | onward _ _ t ht hread => exact (ih hread).trans ht.after

/-- The reader ends where nothing is left, or before a closing parenthesis. -/
theorem readBranches_next? {fuel : Nat} {items branches : List Tree} {r : Tree × ParseState}
    (h : readBranches fuel items branches s = some r) :
    r.2.next? = none ∨ r.2.next? = some ')' := by
  induction fuel generalizing items branches r s with
  | zero => cases h
  | succ fuel ih =>
    rw [readBranches_succ] at h
    cases branchesRound_continues readBranches_after h with
    | done hnext hr => exact hr ▸ hnext
    | onward _ _ _ _ hread => exact ih hread

/-! ## Budgets -/

section

variable {read read' : List Tree → List Tree → Parse Tree} {items branches : List Tree}
  {r : Tree × ParseState}
  (hread : ∀ {items branches s r}, read items branches s = some r → read' items branches s = some r)
include hread

theorem groupRound_mono {o : Opening × ParseState}
    (h : groupRound read items branches s o = some r) :
    groupRound read' items branches s o = some r := by
  obtain ⟨⟨changes⟩ | ⟨changes⟩, u⟩ := o
  · exact hread h
  · obtain ⟨inner, hinner, h⟩ := Option.bind_eq_some_iff.1 h
    refine Option.bind_eq_some_iff.2 ⟨inner, hread hinner, ?_⟩
    split at h
    · rename_i hclose
      rw [if_pos hclose]
      exact hread h
    · cases h

theorem repetitionRound_mono {c : Char} (h : repetitionRound read branches c s items = some r) :
    repetitionRound read' branches c s items = some r := by
  cases items with
  | nil => cases h
  | cons item items =>
    rw [repetitionRound] at h ⊢
    split at h
    · rename_i hitem
      obtain ⟨bounds, hbounds, h⟩ := Option.bind_eq_some_iff.1 h
      rw [if_pos hitem]
      exact Option.bind_eq_some_iff.2 ⟨bounds, hbounds, hread h⟩
    · cases h

theorem branchesRound_mono (h : branchesRound read items branches s = some r) :
    branchesRound read' items branches s = some r := by
  rw [branchesRound] at h ⊢
  cases hnext : s.next? with
  | none =>
    rw [hnext] at h
    exact h
  | some c =>
    rw [hnext] at h
    dsimp only at h ⊢
    split
    · rwa [if_pos ‹_›] at h
    · rw [if_neg ‹_›] at h
      split
      · rw [if_pos ‹_›] at h
        exact hread h
      · rw [if_neg ‹_›] at h
        split
        · rw [if_pos ‹_›] at h
          obtain ⟨o, hopening, h⟩ := Option.bind_eq_some_iff.1 h
          exact Option.bind_eq_some_iff.2 ⟨o, hopening, groupRound_mono hread h⟩
        · rw [if_neg ‹_›] at h
          split
          · rw [if_pos ‹_›] at h
            obtain ⟨k, hclass, h⟩ := Option.bind_eq_some_iff.1 h
            exact Option.bind_eq_some_iff.2 ⟨k, hclass, hread h⟩
          · rw [if_neg ‹_›] at h
            split
            · rw [if_pos ‹_›] at h
              exact repetitionRound_mono hread h
            · rw [if_neg ‹_›] at h
              obtain ⟨tree, hprimitive, h⟩ := Option.bind_eq_some_iff.1 h
              exact Option.bind_eq_some_iff.2 ⟨tree, hprimitive, hread h⟩

end

/-- What is read does not change when there are more rounds. -/
theorem readBranches_mono {fuel fuel' : Nat} {items branches : List Tree}
    {r : Tree × ParseState} (hle : fuel ≤ fuel')
    (h : readBranches fuel items branches s = some r) :
    readBranches fuel' items branches s = some r := by
  induction fuel generalizing fuel' items branches s r with
  | zero => cases h
  | succ fuel ih =>
    obtain ⟨fuel', rfl⟩ := Nat.exists_eq_succ_of_ne_zero (Nat.ne_zero_of_lt hle)
    rw [readBranches_succ] at h ⊢
    exact branchesRound_mono (fun hread => ih (Nat.le_of_succ_le_succ hle) hread) h
end Regex
end Rulebook
