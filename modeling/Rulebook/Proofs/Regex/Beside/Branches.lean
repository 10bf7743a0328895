import Rulebook.Proofs.Regex.Beside.Classes

/-!
# Branches with a closing parenthesis behind

The branches of a source read the same whether or not a closing parenthesis stands behind the
source: the reader of the source ends where it has nothing left, or at a parenthesis that
closes no group, and the other reader ends there as well.

A reader of the source that is refused because the source ends in a group may go on into the
parenthesis behind the source, which then closes that group.  At most the dollar sign is left
for the groups around it, so that no parenthesis closes the outermost one.
-/

namespace Rulebook
namespace Regex

open ParseState
open scoped CorePower

variable {s s' t : ParseState} {fuel fuel' : Nat}

/-! ## Repetitions -/

theorem countDigits_beside (h : s.Beside s') (hfuel : s.rest.length < fuel)
    (hfuel' : s'.rest.length < fuel') (acc : List Char) :
    (countDigits fuel acc s).1 = (countDigits fuel' acc s').1 ∧
      (countDigits fuel acc s).2.Beside (countDigits fuel' acc s').2 := by
  induction fuel generalizing fuel' acc s s' with
  | zero => exact absurd hfuel (Nat.not_lt_zero _)
  | succ fuel ih =>
    obtain ⟨fuel', rfl⟩ := Nat.exists_eq_succ_of_ne_zero (Nat.ne_zero_of_lt hfuel')
    rw [countDigits, countDigits]
    cases h.ahead with
    | both c hnext hnext' hs hs' =>
      rw [hnext, hnext']
      dsimp only
      split
      · exact ih (h.advanceSkip hs) ((advanceSkip_past s).length_lt_of_lt_succ hs hfuel)
          ((advanceSkip_past s').length_lt_of_lt_succ hs' hfuel') _
      · exact ⟨rfl, h⟩
    | neither hnext hnext' =>
      rw [hnext, hnext']
      exact ⟨rfl, h⟩
    | closing hnext hnext' =>
      rw [hnext, hnext']
      exact ⟨rfl, h⟩

theorem skipWhite_beside (h : s.Beside s') : (skipWhite s).Beside (skipWhite s') := by
  cases h with
  | comment h =>
    refine .comment ?_
    rw [skipWhite, h]
    rfl
  | tail =>
    refine beside_rest (Or.inl ?_)
    rw [closed, dropWhile_append_closing]
    split
    · rename_i hempty
      rw [List.isEmpty_iff.1 hempty]
      rfl
    · rfl

theorem count_beside (h : s.Beside s') :
    (count s).1 = (count s').1 ∧ (count s).2.Beside (count s').2 := by
  obtain ⟨hdigits, hstate⟩ := countDigits_beside (skipWhite_beside h) (Nat.lt_succ_self _)
    (Nat.lt_succ_self _) []
  exact ⟨hdigits, (skipWhite_beside hstate).skip⟩

theorem countMost_together (h : s.Beside s') (least : Nat) :
    Together (Left closing) (countMost least s) (countMost least s') := by
  refine .next_after h (fun c _ _ => ?_) fun _ _ => countMost_after
  obtain ⟨hdigits, hstate⟩ := count_beside h
  rw [← hdigits]
  split
  · exact .read h
  · cases countValue? (count s).1 with
    | none => exact .neither
    | some most => exact .read hstate

theorem countRange_together (h : s.Beside s') :
    Together (Left closing) (countRange s) (countRange s') := by
  obtain ⟨hdigits, hstate⟩ := count_beside h
  rw [countRange, countRange, ← hdigits]
  refine .next hstate (fun c hs _ => ?_) fun _ hs' => .after hs' fun bounds t ht => ?_
  · cases countValue? (count s).1 with
    | none => exact .neither
    | some least =>
      rw [Option.bind_some, Option.bind_some]
      split
      · exact countMost_together (hstate.advanceSkip hs) least
      · exact .read hstate
  · obtain ⟨least, -, ht⟩ := Option.bind_eq_some_iff.1 ht
    rw [if_neg (by decide)] at ht
    cases ht
    exact .refl _

/-- The mark that makes a repetition lazy is passed. -/
theorem mark_beside (h : s.Beside s') :
    Beside (if s.next? = some '?' then s.advance else s)
      (if s'.next? = some '?' then s'.advance else s') := by
  cases h.ahead with
  | both c hnext hnext' hs =>
    rw [hnext, hnext']
    split
    · exact h.advance hs
    · exact h
  | neither hnext hnext' =>
    rw [hnext, hnext']
    exact h
  | closing hnext hnext' =>
    rw [hnext, hnext']
    exact h

theorem countEnd_alike (h : s.Beside s') (bounds : Nat × Option Nat) :
    Alike (countEnd bounds s) (countEnd bounds s') := by
  refine Together.next h (fun c hs _ => ?_) fun _ _ => ?_
  · split
    · exact .read (mark_beside (h.advanceSkip hs))
    · exact .neither
  · rw [if_neg fun hbrace => absurd hbrace.1 (by decide)]
    exact .neither

theorem countedBounds_together (h : s.Beside s') (hs : s.rest ≠ []) :
    Together (Left ['$']) (countedBounds s) (countedBounds s') := by
  rw [countedBounds_eq, countedBounds_eq]
  cases (h.advanceSkip hs).ahead with
  | both c _ _ hinside hinside' =>
    rw [if_neg (mt List.isEmpty_iff.1 hinside), if_neg (mt List.isEmpty_iff.1 hinside')]
    exact (countRange_together (h.advanceSkip hs)).bind
      (fun bounds t t' _ _ ht => (countEnd_alike ht bounds).of_alike)
      fun r hleft r' hr' => hleft.past (countEnd_past (t := r'.2) hr')
  | neither _ _ hinside hinside' =>
    rw [hinside, hinside']
    exact .neither
  | closing _ _ hinside hinside' =>
    rw [hinside, List.isEmpty_nil, if_pos rfl]
    refine .past hinside' fun bounds t ht => ?_
    split at ht
    · cases ht
    · obtain ⟨r, hrange, hend⟩ := Option.bind_eq_some_iff.1 ht
      exact (countEnd_past hend).trans (countRange_after hrange)

theorem repetitionBounds_together (h : s.Beside s') (hs : s.rest ≠ []) (c : Char) :
    Together (Left ['$']) (repetitionBounds c s) (repetitionBounds c s') := by
  rw [repetitionBounds, repetitionBounds]
  split
  · exact countedBounds_together h hs
  · exact .read (mark_beside (h.advance hs))

/-! ## Groups -/

theorem flagChanges_together (h : s.Beside s') (hfuel : s.rest.length < fuel)
    (hfuel' : s'.rest.length < fuel') (acc : FlagChanges) (negated dangling : Bool) :
    Together (Left closing) (flagChanges fuel acc negated dangling s)
      (flagChanges fuel' acc negated dangling s') := by
  induction fuel generalizing fuel' acc negated dangling s s' with
  | zero => exact absurd hfuel (Nat.not_lt_zero _)
  | succ fuel ih =>
    obtain ⟨fuel', rfl⟩ := Nat.exists_eq_succ_of_ne_zero (Nat.ne_zero_of_lt hfuel')
    have hafter (changes : FlagChanges) (t : ParseState)
        (hread : flagChanges (fuel' + 1) acc negated dangling s' = some (changes, t)) :
        t.After s' := flagChanges_after hread
    refine .next_after h (fun c hs hs' => ?_) hafter
    have hrest (acc negated dangling) :=
      ih (h.advance hs) ((advance_past s).length_lt_of_lt_succ hs hfuel)
        ((advance_past s').length_lt_of_lt_succ hs' hfuel') acc negated dangling
    split
    · split
      · exact .neither
      · exact .read h
    · split
      · split
        · exact .neither
        · exact hrest _ _ _
      · cases flagOfLetter? c with
        | none => exact .neither
        | some flag =>
          simp only [Option.bind_eq_bind, Option.bind_some]
          split
          · exact .neither
          · exact hrest _ _ _

theorem flagged_together (h : s.Beside s') : Together (Left ['$']) (flagged s) (flagged s') := by
  refine (flagChanges_together h (Nat.lt_succ_self _) (Nat.lt_succ_self _) [] false false).bind
    (fun changes t t' hflags _ ht => ?_) fun r hleft r' hr' => ?_
  · dsimp only
    cases ht.ahead with
    | both c hnext hnext' hs =>
      rw [hnext, hnext']
      split
      · exact .read (ht.advance hs)
      · split
        · exact .neither
        · exact .read (ht.advance hs)
    | neither _ _ hs => exact absurd hs (flagChanges_rest_ne_nil hflags)
    | closing _ _ hs => exact absurd hs (flagChanges_rest_ne_nil hflags)
  · split at hr'
    · cases hr'
      exact hleft.past (advance_past r.2)
    · split at hr'
      · cases hr'
      · cases hr'
        exact hleft.past (advance_past r.2)

theorem groupName_closed (s : ParseState) :
    groupName s.closed = (groupName s).map closedResult := by
  rw [groupName_eq, groupName_eq]
  simp only [closed, dropWhile_append_closing]
  cases hdrop : s.rest.dropWhile (· != '>') with
  | nil => rfl
  | cons c cs =>
    have hne : s.rest.dropWhile (· != '>') ≠ [] := hdrop ▸ List.cons_ne_nil c cs
    rw [takeWhile_append_closing hne]
    cases admissibleName? s.names (s.rest.takeWhile (· != '>')) <;> rfl

theorem looksAround_closed (s : ParseState) : looksAround s.closed = looksAround s := by
  rw [looksAround, looksAround, beginsWith_closed _ (by decide), beginsWith_closed _ (by decide),
    beginsWith_closed _ (by decide), beginsWith_closed _ (by decide)]

theorem opened_of_rest_nil (hs : s.rest = []) : opened s = some (.group [], s) := by
  simp [opened, looksAround, beginsWith, after?, hs]

theorem opened_together (h : s.Beside s') : Together (Left ['$']) (opened s) (opened s') := by
  cases h with
  | comment hs =>
    rw [opened_of_rest_nil hs]
    exact .read (.comment hs)
  | tail =>
    rw [opened, opened, looksAround_closed, after?_closed _ (by decide),
      after?_closed _ (by decide), after?_closed _ (by decide), ← Option.map_or]
    split
    · exact .neither
    · cases (s.after? "?P<").or (s.after? "?<") with
      | some t =>
        rw [Option.map_some]
        dsimp only
        rw [groupName_closed]
        exact .map_alike (fun _ => Opening.group []) .of_closed
      | none =>
        cases s.after? "?" with
        | none => exact .read .tail
        | some t => exact flagged_together .tail

theorem opening_together (h : s.Beside s') (hs : s.rest ≠ []) :
    Together (Left ['$']) (opening s) (opening s') := by
  rw [opening_eq, opening_eq]
  exact opened_together (h.advanceSkip hs)

theorem Beside.ignoringBlanks (h : s.Beside s') (b : Bool) :
    Beside { s with ignoreBlanks := b } { s' with ignoreBlanks := b } := by
  cases h with
  | tail => exact .tail
  | comment h => exact .comment h

theorem entered_beside (h : s.Beside s') (changes : FlagChanges) :
    (entered changes s).Beside (entered changes s') := by
  rw [entered, entered, h.ignoreBlanks_eq]
  exact Beside.ignoringBlanks h _

theorem behindGroup_beside {t' : ParseState} (h : s.Beside s') (ht : t.Beside t')
    (hne : t.rest ≠ []) : (behindGroup s t).Beside (behindGroup s' t') := by
  rw [behindGroup, behindGroup, h.ignoreBlanks_eq]
  exact Beside.ignoringBlanks (ht.advance hne) _

/-! ## Branches -/

theorem primitive_together (h : s.Beside s') (hs : s.rest ≠ []) :
    Together (fun r => Left ['$'] r ∨ Dangles r.2) (primitive s) (primitive s') := by
  rw [primitive_eq, primitive_eq]
  refine .next h (fun c _ _ => ?_) fun hnil _ => absurd hnil hs
  split
  · refine (escape_together h hs).map Escaped.tree fun r hleft => ?_
    rcases hleft with hleft | ⟨-, hdangles⟩
    · exact Or.inl hleft
    · exact Or.inr hdangles
  · exact .read (h.advance hs)

/-- A brace that dangles is refused as soon as it is read. -/
theorem readBranches_of_dangles (h : Dangles s) (items branches : List Tree) :
    readBranches fuel items branches s = none := by
  cases fuel with
  | zero => rfl
  | succ fuel =>
    have hbounds : repetitionBounds '\x7b' s = none := by
      rw [repetitionBounds, if_pos rfl]
      exact h.refused
    have hround : repetitionRound (readBranches fuel) branches '\x7b' s items = none := by
      cases items with
      | nil => rfl
      | cons item items =>
        rw [repetitionRound, hbounds]
        split <;> rfl
    rw [readBranches_succ, skip_of_next? h.brace (by decide) (by decide), branchesRound, h.brace]
    exact hround

section

variable {read read' : List Tree → List Tree → Parse Tree} {items branches : List Tree}
  (hread : ∀ items branches {t t'}, t.Beside t' → t.rest.length < s.rest.length →
    t'.rest.length < s'.rest.length →
      Together (Left ['$']) (read items branches t) (read' items branches t'))
  (hafter : ∀ {items branches r t}, read items branches t = some r → r.2.After t)
  (hafter' : ∀ {items branches r t}, read' items branches t = some r → r.2.After t)
include hread hafter hafter'

/-- What a parenthesis opens is read to its end before the closing one is looked for. -/
theorem groupRound_together (h : s.Beside s') {o : Opening} {t t' : ParseState} (ht : t.Beside t')
    (hlt : t.rest.length < s.rest.length) (hlt' : t'.rest.length < s'.rest.length) :
    Together (Left ['$']) (groupRound read items branches s (o, t))
      (groupRound read' items branches s' (o, t')) := by
  cases o with
  | flags changes => exact hread _ _ (entered_beside ht changes) hlt hlt'
  | group changes =>
    refine (hread [] [] (entered_beside ht changes) hlt hlt').bind
      (fun inner u u' hu hu' hbeside => ?_) fun r hleft r' hr' => ?_
    · dsimp only
      have hle : u.rest.length ≤ t.rest.length := (hafter hu).length_le
      have hle' : u'.rest.length ≤ t'.rest.length := (hafter' hu').length_le
      cases hbeside.ahead with
      | both c hnext hnext' hs =>
        rw [hnext, hnext']
        split
        · have hadvance : (behindGroup s u).rest.length ≤ u.rest.length :=
            (advance_past u).after.length_le
          have hadvance' : (behindGroup s' u').rest.length ≤ u'.rest.length :=
            (advance_past u').after.length_le
          exact hread _ _ (behindGroup_beside h hbeside hs) (by omega) (by omega)
        · exact .neither
      | neither hnext hnext' =>
        rw [hnext, hnext']
        exact .neither
      -- the parenthesis behind the source closes this group, and only `$` is left behind it
      | closing hnext hnext' _ hs' =>
        rw [hnext, hnext', if_neg (by simp), if_pos rfl]
        refine .past hs' fun tree v hv => ?_
        have hinside : v.After (behindGroup s' u') := hafter' hv
        exact After.past hinside (advance_past u')
    · split at hr'
      · obtain ⟨tree, v⟩ := r'
        have hinside : v.After (behindGroup s' r.2) := hafter' hr'
        exact hleft.after (After.past hinside (advance_past r.2)).after
      · cases hr'

theorem branchesRound_together (h : s.Beside s')
    (hdangles : ∀ {items branches t}, Dangles t → read' items branches t = none) :
    Together (Left ['$']) (branchesRound read items branches s)
      (branchesRound read' items branches s') := by
  rw [branchesRound, branchesRound]
  cases h.ahead with
  | both c hnext hnext' hs hs' =>
    rw [hnext, hnext']
    dsimp only
    split
    · exact .read h
    · split
      · exact hread _ _ (h.advance hs) ((advance_past s).length_lt hs)
          ((advance_past s').length_lt hs')
      · split
        · refine (opening_together h hs).bind (fun o t t' ho ho' ht => ?_) fun r hleft r' hr' => ?_
          · exact groupRound_together hread hafter hafter' h ht ((opening_past ho).length_lt hs)
              ((opening_past ho').length_lt hs')
          · exact hleft.after (groupRound_after hafter' hr')
        · split
          · refine (bracketed_together h hs (by omega) (by omega)).bind
              (fun k t t' hk hk' ht => ?_) fun r hleft r' hr' => ?_
            · have hpast := (bracketed_past hk).after.past (advanceSkip_past s)
              have hpast' := (bracketed_past hk').after.past (advanceSkip_past s')
              exact hread _ _ ht (hpast.length_lt hs) (hpast'.length_lt hs')
            · exact hleft.after (hafter' hr')
          · split
            · cases items with
              | nil => exact .neither
              | cons item items =>
                rw [repetitionRound, repetitionRound]
                split
                · refine (repetitionBounds_together h hs c).bind
                    (fun bounds t t' ht ht' hbeside => ?_) fun r hleft r' hr' => ?_
                  · exact hread _ _ hbeside ((repetitionBounds_past ht).length_lt hs)
                      ((repetitionBounds_past ht').length_lt hs')
                  · exact hleft.after (hafter' hr')
                · exact .neither
            · refine (primitive_together h hs).bind (fun tree t t' ht ht' hbeside => ?_)
                fun r hleft r' hr' => ?_
              · exact hread _ _ hbeside ((primitive_past ht).length_lt hs)
                  ((primitive_past ht').length_lt hs')
              -- a word boundary may have left a brace that no repetition begins with
              · rcases hleft with hleft | hbrace
                · exact hleft.after (hafter' hr')
                · rw [hdangles hbrace] at hr'
                  cases hr'
  | neither hnext hnext' =>
    rw [hnext, hnext']
    exact .read h
  | closing hnext hnext' =>
    rw [hnext, hnext']
    exact .read h

end

/-- The readers of a source and of the source with a closing parenthesis behind it go side by
side. -/
theorem readBranches_together (h : s.Beside s') (hfuel : s.rest.length < fuel)
    (hfuel' : s'.rest.length < fuel') (items branches : List Tree) :
    Together (Left ['$']) (readBranches fuel items branches s)
      (readBranches fuel' items branches s') := by
  induction fuel generalizing fuel' items branches s s' with
  | zero => exact absurd hfuel (Nat.not_lt_zero _)
  | succ fuel ih =>
    obtain ⟨fuel', rfl⟩ := Nat.exists_eq_succ_of_ne_zero (Nat.ne_zero_of_lt hfuel')
    have hle := (skip_after s).length_le
    have hle' := (skip_after s').length_le
    rw [readBranches_succ, readBranches_succ]
    exact branchesRound_together
      (fun items branches _ _ ht hlt hlt' => ih ht (by omega) (by omega) items branches)
      readBranches_after readBranches_after h.skip
      fun hdangles => readBranches_of_dangles hdangles _ _

end Regex
end Rulebook
