import Rulebook.Proofs.Regex.Beside.States

/-!
# Escapes and classes with a closing parenthesis behind

Escapes and bracketed classes read the same whether or not a closing parenthesis stands behind
the source.  Where the source ends within one, the reader of the source is refused; the other
one may take the parenthesis for a part of the escape or of the class, but then there is no
parenthesis left to close the group.

There is one escape that needs more care.  Behind `\b` a brace may begin the name of a
boundary, and the reader decides by what follows the brace.  At the end of the source there is
nothing to decide by, and the reader is refused; with a closing parenthesis behind, the brace
is left to a repetition, which is refused as soon as it is read.
-/

namespace Rulebook
namespace Regex

open ParseState
open scoped CorePower

variable {α β : Type} {s s' t : ParseState}

/-! ## Escapes -/

theorem hexDigits_alike (h : s.Beside s') (n : Nat) (acc : List Char) :
    Alike (hexDigits n acc s) (hexDigits n acc s') := by
  induction n generalizing acc s s' with
  | zero => exact .read h
  | succ n ih =>
    simp only [hexDigits, Option.bind_eq_bind]
    refine Together.next h (fun c hs _ => ?_) fun _ _ => .neither
    split
    · exact .neither
    · exact ih (h.advanceSkip hs) _

theorem hexBraced_alike {fuel fuel' : Nat} (h : s.Beside s') (hfuel : s.rest.length < fuel)
    (hfuel' : s'.rest.length < fuel') (acc : List Char) :
    Alike (hexBraced fuel acc s) (hexBraced fuel' acc s') := by
  induction fuel generalizing fuel' acc s s' with
  | zero => exact absurd hfuel (Nat.not_lt_zero _)
  | succ fuel ih =>
    obtain ⟨fuel', rfl⟩ := Nat.exists_eq_succ_of_ne_zero (Nat.ne_zero_of_lt hfuel')
    simp only [hexBraced, Option.bind_eq_bind]
    refine Together.next h (fun c hs hs' => ?_) fun _ _ => .neither
    split
    · exact .read (h.advanceSkip hs)
    · split
      · exact .neither
      · exact ih (h.advanceSkip hs) ((advanceSkip_past s).length_lt_of_lt_succ hs hfuel)
          ((advanceSkip_past s').length_lt_of_lt_succ hs' hfuel') _

theorem fixedLiteral_of_rest_nil (letter : Char) (hs : s.rest = []) :
    fixedLiteral letter s = none := by
  have hdigits (n : Nat) : hexDigits (n + 1) [] s = none := by
    simp only [hexDigits, next?, hs]
    rfl
  rw [fixedLiteral]
  split
  · rw [hdigits]
    rfl
  · split <;> rw [hdigits] <;> rfl

theorem hexLiteral_alike (h : s.Beside s') (letter : Char) :
    Alike (hexLiteral letter s) (hexLiteral letter s') := by
  have hfixed : Alike (fixedLiteral letter s) (fixedLiteral letter s') :=
    .bind_map (fun digits => charOfCode? (hexValue digits)) (Literal.mk · (letter = 'x'))
      (hexDigits_alike h _ [])
  rw [hexLiteral_eq, hexLiteral_eq]
  refine Together.next h (fun c hs _ => ?_) fun hs _ => ?_
  · split
    · exact .bind_map
        (fun digits => if digits.isEmpty then none else charOfCode? (hexValue digits))
        (Literal.mk · false)
        (hexBraced_alike (h.advanceSkip hs) (Nat.lt_succ_self _) (Nat.lt_succ_self _) [])
    · exact hfixed
  · rw [fixedLiteral_of_rest_nil letter hs] at hfixed
    exact hfixed

theorem propertyText_together {fuel fuel' : Nat} (h : s.Beside s') (hfuel : s.rest.length < fuel)
    (hfuel' : s'.rest.length < fuel') (acc : List Char) :
    Together (Left ['$']) (propertyText fuel acc s) (propertyText fuel' acc s') := by
  induction fuel generalizing fuel' acc s s' with
  | zero => exact absurd hfuel (Nat.not_lt_zero _)
  | succ fuel ih =>
    obtain ⟨fuel', rfl⟩ := Nat.exists_eq_succ_of_ne_zero (Nat.ne_zero_of_lt hfuel')
    have hpast (cs : List Char) (t : ParseState)
        (hread : propertyText (fuel' + 1) acc s' = some (cs, t)) : t.Past s' :=
      propertyText_past hread
    refine .next_past h (fun c hs hs' => ?_) hpast
    split
    · exact .read (h.advance hs)
    · exact ih (h.advanceSkip hs) ((advanceSkip_past s).length_lt_of_lt_succ hs hfuel)
        ((advanceSkip_past s').length_lt_of_lt_succ hs' hfuel') _

theorem propertyClass_together (h : s.Beside s') (negated : Bool) :
    Together (Left ['$']) (propertyClass negated s) (propertyClass negated s') := by
  rw [propertyClass_eq, propertyClass_eq]
  refine .next_past h (fun c hs _ => ?_)
    fun _ _ hread => propertyClass_past ((propertyClass_eq negated s').trans hread)
  split
  · exact (propertyText_together (h.advanceSkip hs) (Nat.lt_succ_self _)
      (Nat.lt_succ_self _) []).map (fun cs => Class.property (propertyQuery cs) negated)
      fun _ hleft => hleft
  · split
    · exact .neither
    · exact .read (h.advanceSkip hs)

theorem boundaryName_alike {fuel fuel' : Nat} (h : s.Beside s') (hfuel : s.rest.length < fuel)
    (hfuel' : s'.rest.length < fuel') (acc : List Char) :
    Alike (boundaryName fuel acc s) (boundaryName fuel' acc s') := by
  induction fuel generalizing fuel' acc s s' with
  | zero => exact absurd hfuel (Nat.not_lt_zero _)
  | succ fuel ih =>
    obtain ⟨fuel', rfl⟩ := Nat.exists_eq_succ_of_ne_zero (Nat.ne_zero_of_lt hfuel')
    simp only [boundaryName, Option.bind_eq_bind]
    refine Together.next h (fun c hs hs' => ?_) fun _ _ => .neither
    split
    · exact .read (h.advance hs)
    · split
      · exact ih (h.advanceSkip hs) ((advanceSkip_past s).length_lt_of_lt_succ hs hfuel)
          ((advanceSkip_past s').length_lt_of_lt_succ hs' hfuel') _
      · exact .neither

theorem count_of_next? {c : Char} (hnext : s.next? = some c) (hwhite : isWhiteSpace c = false)
    (hmark : c ≠ '#') (hdigit : c.isDigit = false) : count s = ([], s) := by
  obtain ⟨cs, hrest⟩ := List.head?_eq_some_iff.1 hnext
  have hskip : skipWhite s = s := by
    rw [skipWhite, hrest, List.dropWhile_cons_of_neg (ne_true_of_eq_false hwhite), ← hrest]
  have hdigits : countDigits (s.rest.length + 1) [] s = ([], s) := by
    rw [countDigits, hnext]
    dsimp only
    rw [hdigit, if_neg Bool.false_ne_true, List.reverse_nil]
  rw [count]
  dsimp only
  rw [hskip, hdigits]
  dsimp only
  rw [hskip, skip_of_next? hnext hwhite hmark]

/-- A brace that begins no repetition comes next. -/
structure Dangles (s : ParseState) : Prop where
  brace : s.next? = some '\x7b'
  refused : countedBounds s = none

/-- A brace that belongs to the name of no boundary dangles before the closing parenthesis. -/
theorem wordBoundary_together (h : s.Beside s') :
    Together (fun r => Dangles r.2) (wordBoundary s) (wordBoundary s') := by
  rw [wordBoundary_eq, wordBoundary_eq]
  cases h.ahead with
  | both c hnext hnext' hs =>
    rw [hnext, hnext']
    split
    · rename_i hbrace
      cases (h.advanceSkip hs).ahead with
      | both d hinside hinside' =>
        rw [hinside, hinside', Option.bind_some, Option.bind_some]
        split
        · exact .of_alike (.bind_map (fun name => boundaryOf? (String.ofList name)) id
            (boundaryName_alike (h.advanceSkip hs) (Nat.lt_succ_self _) (Nat.lt_succ_self _) []))
        · exact .read h
      | neither hinside hinside' =>
        rw [hinside, hinside']
        exact .neither
      -- the source ends behind the brace, and the parenthesis begins no name
      | closing hinside hinside' =>
        rw [hinside, hinside', Option.bind_some, if_neg (by decide)]
        refine .refused fun r hr => ?_
        cases hr
        refine ⟨hnext'.trans hbrace, ?_⟩
        have hcount : count s'.advanceSkip = ([], s'.advanceSkip) :=
          count_of_next? hinside' (by decide) (by decide) (by decide)
        have hrange : countRange s'.advanceSkip = none := by
          rw [countRange, hcount, hinside']
          rfl
        rw [countedBounds_eq, hrange]
        split <;> rfl
    · exact .read h
  | neither hnext hnext' =>
    rw [hnext, hnext']
    exact .read h
  | closing hnext hnext' =>
    rw [hnext, hnext']
    exact .read h

/-- What an escape may leave that the source ends in: a part of `$`, or behind an assertion a brace
that dangles. -/
def LeftOfEscape (r : Escaped × ParseState) : Prop :=
  Left ['$'] r ∨ r.1.member? = none ∧ Dangles r.2

theorem escaped_together (h : s.Beside s') :
    Together LeftOfEscape (escaped s) (escaped s') := by
  cases h.ahead with
  | both c hnext hnext' hs =>
    rw [escaped, escaped, hnext, hnext', Option.bind_some, Option.bind_some]
    split
    · exact .neither
    · split
      · exact .map_alike Escaped.literal (hexLiteral_alike (h.advanceSkip hs) c)
      · split
        · exact (propertyClass_together (h.advanceSkip hs) _).map Escaped.class fun _ => Or.inl
        · split
          · exact (wordBoundary_together (h.advance hs)).map Escaped.assertion
              fun _ hdangles => Or.inr ⟨rfl, hdangles⟩
          · cases letterEscape? c with
            | none => exact .neither
            | some e => exact .read (h.advance hs)
  | neither hnext hnext' =>
    rw [escaped, escaped, hnext, hnext']
    exact .neither
  | closing hnext _ _ hs' =>
    have hpast := Together.past (y := escaped s') hs' fun _ _ => escaped_past
    rw [escaped, hnext]
    exact hpast.mono fun _ => Or.inl

theorem escape_together (h : s.Beside s') (hs : s.rest ≠ []) :
    Together LeftOfEscape (escape s) (escape s') := by
  rw [escape_eq, escape_eq]
  exact escaped_together (h.advance hs)

/-! ## Classes -/

theorem classOperation?_closed (s : ParseState) :
    classOperation? s.closed = (classOperation? s).map closedResult := by
  rw [classOperation?, classOperation?, after?_closed _ (by decide), after?_closed _ (by decide),
    after?_closed _ (by decide)]
  simp only [Option.map_or, Option.map_map]
  rfl

theorem asciiName_closed (negated : Bool) (s : ParseState) :
    asciiName negated s.closed = (asciiName negated s).map closedResult := by
  simp only [asciiName, List.span_eq_takeWhile_dropWhile, closed, dropWhile_append_closing]
  split
  · rename_i hempty
    rw [List.isEmpty_iff.1 hempty]
    rfl
  · rename_i hfull
    rw [takeWhile_append_closing (mt List.isEmpty_iff.2 hfull)]
    have hclosed := after?_closed { s with rest := s.rest.dropWhile (· != ':') }
      (show ')' ∉ ":]".toList by decide)
    rw [closed] at hclosed
    rw [hclosed]
    rcases ParseState.after? { s with rest := s.rest.dropWhile (· != ':') } ":]" with _ | t
    · rfl
    · rw [Option.map_some, Option.bind_some, Option.bind_some, Option.map_map]
      rfl

theorem behindCaret_closed (s : ParseState) :
    behindCaret s.closed = closedResult (behindCaret s) := by
  rw [behindCaret, behindCaret, after?_closed _ (by decide)]
  cases s.after? "^" <;> rfl

theorem asciiItem_closed (s : ParseState) :
    asciiItem s.closed = (asciiItem s).map closedResult := by
  rw [asciiItem_eq, asciiItem_eq, after?_closed _ (by decide)]
  cases s.after? "[:" with
  | none => rfl
  | some t =>
    rw [Option.map_some, Option.bind_some, Option.bind_some, behindCaret_closed]
    exact asciiName_closed _ _

theorem behindMark_append_closing {cs : List Char} {d : Char} (hwhite : isWhiteSpace d = false)
    (hmark : d ≠ '#') (hparen : d ≠ ')') :
    (behindMark (cs ++ closing)).head?.or (cs ++ closing).head? = some d ↔
      (behindMark cs).head?.or cs.head? = some d := by
  have hkept (hhead : cs.head? = some d) : (cs.dropWhile isWhiteSpace).head? = some d := by
    obtain ⟨more, rfl⟩ := List.head?_eq_some_iff.1 hhead
    rw [List.dropWhile_cons_of_neg (ne_true_of_eq_false hwhite), List.head?_cons]
  rw [behindMark, behindMark, dropWhile_append_closing]
  cases hdrop : cs.dropWhile isWhiteSpace with
  | nil =>
    have hcs : cs.head? ≠ some d := fun hhead => by
      rw [hdrop] at hkept
      cases hkept hhead
    simp [closing, isWhiteSpace, hparen.symm, hcs]
  | cons c more =>
    rw [hdrop, List.head?_cons, Option.some.injEq] at hkept
    simp only [List.isEmpty_cons, Bool.false_eq_true, if_false, List.cons_append, List.head?_cons,
      Option.some.injEq, List.tail_cons]
    split
    · rename_i hc
      have hcs : cs.head? ≠ some d := fun hhead => hmark ((hkept hhead).symm.trans hc)
      rw [dropWhile_append_closing]
      cases more.dropWhile isWhiteSpace with
      | nil => simp [closing, isWhiteSpace, hparen.symm, hcs]
      | cons e more => simp
    · simp

/-- Which character stands behind the next one makes a difference to the reader of a class only if
it is neither blank nor the closing parenthesis. -/
theorem peekSkip?_closed (hs : s.rest ≠ []) {d : Char} (hwhite : isWhiteSpace d = false)
    (hmark : d ≠ '#') (hparen : d ≠ ')') :
    s.closed.peekSkip? = some d ↔ s.peekSkip? = some d := by
  have hpos := List.length_pos_iff.2 hs
  rw [peekSkip?_eq, peekSkip?_eq]
  simp only [closed, List.drop_append_of_le_length hpos]
  split
  · exact behindMark_append_closing hwhite hmark hparen
  · exact head?_append_closing hparen

theorem endsItem_closed (hs : s.rest ≠ []) (c : Char) : endsItem s.closed c = endsItem s c := by
  rw [endsItem, endsItem, Bool.eq_iff_iff]
  simp only [Bool.or_eq_true, beq_iff_eq,
    peekSkip?_closed hs (show isWhiteSpace ']' = false by decide) (by decide) (by decide),
    peekSkip?_closed hs (show isWhiteSpace '-' = false by decide) (by decide) (by decide)]

theorem classItem_together (h : s.Beside s') :
    Together (Left ['$']) (classItem s) (classItem s') := by
  rw [classItem_eq, classItem_eq]
  refine .next_past h (fun c hs _ => ?_)
    fun _ _ hread => classItem_past ((classItem_eq s').trans hread)
  split
  · refine (escape_together h hs).bind (fun e t t' _ _ ht => ?_) fun r hleft r' hr' => ?_
    · dsimp only
      cases e.member? with
      | none => exact .neither
      | some k => exact .read ht
    · obtain ⟨k, hk, rfl⟩ := Option.map_eq_some_iff.1 hr'
      rcases hleft with hleft | ⟨hnone, -⟩
      · exact hleft
      · rw [hnone] at hk
        cases hk
  · exact .read (h.advance hs)

theorem rangeFrom_together (h : s.Beside s') (first : Class) :
    Together (Left closing) (rangeFrom first s) (rangeFrom first s') := by
  refine .next_after h (fun c hs _ => ?_) fun _ _ => rangeFrom_after
  obtain rfl := h.eq_closed hs
  rw [endsItem_closed hs]
  split
  · exact .read h
  · refine (classItem_together (h.advanceSkip hs)).bind (fun last t t' _ _ ht => ?_)
      fun r hleft r' hr' => ?_
    · dsimp only
      split
      · split
        · exact .read ht
        · exact .neither
      · exact .neither
    · split at hr'
      · split at hr'
        · cases hr'
          exact Left.closing hleft
        · cases hr'
      · cases hr'

theorem classRange_together (h : s.Beside s') :
    Together (Left closing) (classRange s) (classRange s') := by
  rw [classRange_eq, classRange_eq]
  refine (classItem_together h).bind (fun first t t' _ _ ht => rangeFrom_together ht.skip first)
    fun r hleft r' hr' => ?_
  have hafter := (rangeFrom_after (k := r'.1) (t := r'.2) hr').trans (skip_after r.2)
  exact (hleft.after hafter).closing

theorem leadingHyphens_together {fuel fuel' : Nat} (h : s.Beside s')
    (hfuel : s.rest.length < fuel) (hfuel' : s'.rest.length < fuel') (acc : List Class) :
    Together (Left closing) (leadingHyphens fuel acc s) (leadingHyphens fuel' acc s') := by
  induction fuel generalizing fuel' acc s s' with
  | zero => exact absurd hfuel (Nat.not_lt_zero _)
  | succ fuel ih =>
    obtain ⟨fuel', rfl⟩ := Nat.exists_eq_succ_of_ne_zero (Nat.ne_zero_of_lt hfuel')
    rw [leadingHyphens_succ, leadingHyphens_succ]
    refine .next_after h (fun c hs hs' => ?_)
      fun _ _ hread => leadingHyphens_after ((leadingHyphens_succ acc s').trans hread)
    split
    · exact ih (h.advanceSkip hs) ((advanceSkip_past s).length_lt_of_lt_succ hs hfuel)
        ((advanceSkip_past s').length_lt_of_lt_succ hs' hfuel') _
    · exact .read h

/-- The rounds that follow this one have fewer characters left. -/
theorem itemsRound_together
    {body body' : List Class → Option (Class × ClassOperation) → Parse Class}
    {nested nested' : Parse Class} (h : s.Beside s')
    (hbody : ∀ items left {t t'}, t.Beside t' → t.rest.length < s.rest.length →
      t'.rest.length < s'.rest.length →
        Together (Left ['$']) (body items left t) (body' items left t'))
    (hbody' : ∀ {items left t u k}, body' items left t = some (k, u) → u.Past t.skip)
    (hnested : s.rest ≠ [] → Together (Left ['$']) (nested s) (nested' s'))
    (hpast : ∀ {t u k}, nested t = some (k, u) → u.Past t)
    (hpast' : ∀ {t u k}, nested' t = some (k, u) → u.Past t)
    (items : List Class) (left : Option (Class × ClassOperation)) :
    Together (Left ['$']) (itemsRound body nested items left s)
      (itemsRound body' nested' items left s') := by
  have hafter {items left t u k} (hread : body' items left t = some (k, u)) : u.After t :=
    (hbody' hread).after.trans (skip_after t)
  refine .next_past h (fun c hs hs' => ?_) fun _ _ => itemsRound_past hafter hpast'
  obtain rfl := h.eq_closed hs
  split
  · have hclosed := asciiItem_closed s
    rw [hclosed]
    cases hitem : asciiItem s with
    | none =>
      refine (hnested hs).bind (fun k t t' hk hk' ht => ?_) fun r hleft r' hr' => ?_
      · exact hbody _ _ ht ((hpast hk).length_lt hs) ((hpast' hk').length_lt hs')
      · exact hleft.after (hafter (k := r'.1) (u := r'.2) hr')
    | some r =>
      rw [hitem] at hclosed
      exact hbody _ _ .tail ((asciiItem_past hitem).length_lt hs)
        ((asciiItem_past hclosed).length_lt hs')
  · split
    · exact .read (h.advance hs)
    · have hclosed := classOperation?_closed s
      rw [hclosed]
      cases hop : classOperation? s with
      | none =>
        -- a range may end before the parenthesis, which the next round takes for an item
        refine (classRange_together h).bind (fun k t t' hk hk' ht => ?_) fun r hleft r' hr' => ?_
        · exact hbody _ _ ht ((classRange_past hk).length_lt hs)
            ((classRange_past hk').length_lt hs')
        · exact hleft.past ((hbody' (k := r'.1) (u := r'.2) hr').trans (skip_after r.2))
      | some r =>
        rw [hop] at hclosed
        exact hbody _ _ .tail ((classOperation?_past hop).length_lt hs)
          ((classOperation?_past hclosed).length_lt hs')

/-- The items of a class have at most as many characters left as the reader has now. -/
theorem bracketedFrom_together {fuel fuel' : Nat} (h : s.Beside s')
    (hbody : ∀ items {t t'}, t.Beside t' → t.rest.length ≤ s.rest.length →
      t'.rest.length ≤ s'.rest.length →
      Together (Left ['$']) (classBody fuel items none t) (classBody fuel' items none t'))
    (negated : Bool) (items : List Class) :
    Together (Left ['$']) (bracketedFrom fuel negated items s)
      (bracketedFrom fuel' negated items s') := by
  refine .next_past h (fun c hs _ => ?_) fun _ _ => bracketedFrom_past
  split
  · have hread := hbody [.literal ⟨']', false⟩] (h.advanceSkip hs)
      (advanceSkip_past s).after.length_le (advanceSkip_past s').after.length_le
    have hbehind := hread.map (Q := Left ['$']) (Class.bracketed negated) fun _ hleft => hleft
    cases (h.advanceSkip hs).ahead with
    | both d _ _ hinside hinside' =>
      rw [if_neg (mt List.isEmpty_iff.1 hinside), if_neg (mt List.isEmpty_iff.1 hinside')]
      exact hbehind
    | neither _ _ hinside hinside' =>
      rw [hinside, hinside']
      exact .neither
    | closing _ _ hinside hinside' =>
      rw [hinside, List.isEmpty_nil, if_pos rfl, if_neg (by rw [hinside']; decide)]
      refine .past hinside' fun k t ht => ?_
      obtain ⟨⟨k, u⟩, hread, heq⟩ := Option.map_eq_some_iff.1 ht
      cases heq
      exact (classBody_past hread).trans (skip_after _)
  · exact (hbody items h (Nat.le_refl _) (Nat.le_refl _)).map (Class.bracketed negated)
      fun _ hleft => hleft

theorem classStart_beside (h : s.Beside s') (hs : s.rest ≠ []) (c : Char) :
    (classStart s c).Beside (classStart s' c) := by
  rw [classStart, classStart]
  split
  · exact h.advanceSkip hs
  · exact h

/-- A class that begins needs twice as many rounds as characters are left, and one more for its
items. -/
theorem brackets_together (fuel : Nat) :
    (∀ fuel' s s', s.Beside s' → s.rest ≠ [] → 2 * s.rest.length ≤ fuel →
      2 * s'.rest.length ≤ fuel' →
        Together (Left ['$']) (bracketed fuel s) (bracketed fuel' s')) ∧
      ∀ fuel' items left s s', s.Beside s' → 2 * s.rest.length < fuel →
        2 * s'.rest.length < fuel' →
          Together (Left ['$']) (classBody fuel items left s) (classBody fuel' items left s') := by
  induction fuel with
  | zero =>
    refine ⟨fun _ s _ _ hs hfuel _ => ?_, fun _ _ _ _ _ _ hfuel _ => ?_⟩
    · have hpos := List.length_pos_iff.2 hs
      omega
    · exact absurd hfuel (Nat.not_lt_zero _)
  | succ fuel ih =>
    obtain ⟨hbracketed, hbody⟩ := ih
    constructor
    · intro fuel' s s' h hs hfuel hfuel'
      obtain rfl := h.eq_closed hs
      have hs' : s.closed.rest ≠ [] := List.append_ne_nil_of_left_ne_nil hs _
      have hlt := (advanceSkip_past s).length_lt hs
      have hlt' := (advanceSkip_past s.closed).length_lt hs'
      obtain ⟨fuel', rfl⟩ := Nat.exists_eq_succ_of_ne_zero (n := fuel') (by omega)
      rw [bracketed_succ, bracketed_succ]
      refine .next_past (h.advanceSkip hs) (fun c hinside _ => ?_)
        fun _ _ hread => bracketed_past ((bracketed_succ s.closed).trans hread)
      have hstart := classStart_beside (h.advanceSkip hs) hinside c
      refine (leadingHyphens_together hstart (Nat.lt_succ_self _) (Nat.lt_succ_self _) []).bind
        (fun items t t' ht ht' hbeside => ?_) fun r hleft r' hr' => ?_
      · have hle := ((leadingHyphens_after ht).trans (classStart_after _ c)).length_le
        have hle' := ((leadingHyphens_after ht').trans (classStart_after _ c)).length_le
        exact bracketedFrom_together hbeside
          (fun items _ _ hu hu' hu'' => hbody fuel' _ _ _ _ hu (by omega) (by omega)) _ items
      · exact hleft.past (bracketedFrom_past (k := r'.1) (t := r'.2) hr')
    · intro fuel' items left s s' h hfuel hfuel'
      obtain ⟨fuel', rfl⟩ := Nat.exists_eq_succ_of_ne_zero (Nat.ne_zero_of_lt hfuel')
      have hle := (skip_after s).length_le
      have hle' := (skip_after s').length_le
      rw [classBody_succ, classBody_succ]
      exact itemsRound_together h.skip
        (fun items left _ _ ht hlt hlt' => hbody fuel' items left _ _ ht (by omega) (by omega))
        (fun hread => classBody_past hread)
        (fun hs => hbracketed fuel' _ _ h.skip hs (by omega) (by omega))
        (fun hread => (bracketed_past hread).after.past (advanceSkip_past _))
        (fun hread => (bracketed_past hread).after.past (advanceSkip_past _)) items left

theorem bracketed_together {fuel fuel' : Nat} (h : s.Beside s') (hs : s.rest ≠ [])
    (hfuel : 2 * s.rest.length ≤ fuel) (hfuel' : 2 * s'.rest.length ≤ fuel') :
    Together (Left ['$']) (bracketed fuel s) (bracketed fuel' s') :=
  (brackets_together fuel).1 fuel' s s' h hs hfuel hfuel'

end Regex
end Rulebook
