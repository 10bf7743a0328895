import Rulebook.Proofs.Regex.Progress

/-!
# Reading with a closing parenthesis behind

A source is read by itself and with `)$` put behind it, and the two readers go side by side.
What is left of the second one is what is left of the first one with `)$` behind it, up to
where the first one has nothing left.  There the second one finds the parenthesis, unless the
source has left a comment open, which swallows it.

So a reader that succeeds on the source gives the same on both sides.  One that is refused,
because the source ends too early, may go on into the parenthesis; what is left then is a part
of `)$`, and for most readers not even the parenthesis is left.
-/

namespace Rulebook
namespace Regex

open scoped CorePower

/-- What stands behind the source. -/
def closing : List Char := [')', '$']

namespace ParseState

/-- The state with what stands behind the source. -/
def closed (s : ParseState) : ParseState := { s with rest := s.rest ++ closing }

/-- The first state is that of a reader of the source, and the second one that of a reader of the
source and what stands behind it. -/
inductive Beside (s : ParseState) : ParseState → Prop where
  | tail : Beside s s.closed
  /-- An open comment has swallowed what stands behind the source. -/
  | comment (h : s.rest = []) : Beside s s

/-- What comes next in states that are side by side. -/
inductive Ahead (s s' : ParseState) : Prop where
  | both (c : Char) (h : s.next? = some c) (h' : s'.next? = some c) (hs : s.rest ≠ [])
      (hs' : s'.rest ≠ [])
  | neither (h : s.next? = none) (h' : s'.next? = none) (hs : s.rest = []) (hs' : s'.rest = [])
  | closing (h : s.next? = none) (h' : s'.next? = some ')') (hs : s.rest = [])
      (hs' : s'.rest = closing)

variable {s s' t : ParseState}

theorem Beside.ahead (h : s.Beside s') : Ahead s s' := by
  cases h with
  | comment h =>
    have hnext : s.next? = none := by rw [next?, h, List.head?_nil]
    exact .neither hnext hnext h h
  | tail =>
    cases hrest : s.rest with
    | nil =>
      refine .closing ?_ ?_ hrest ?_
      · rw [next?, hrest, List.head?_nil]
      · rw [next?, closed, hrest]
        rfl
      · rw [closed, hrest, List.nil_append]
    | cons c cs =>
      refine .both c ?_ ?_ ?_ ?_
      · rw [next?, hrest, List.head?_cons]
      · rw [next?, closed, hrest]
        rfl
      · rw [hrest]
        exact List.cons_ne_nil c cs
      · rw [closed, hrest]
        exact List.cons_ne_nil c _

theorem Beside.eq_closed (h : s.Beside s') (hs : s.rest ≠ []) : s' = s.closed := by
  cases h with
  | tail => rfl
  | comment h => exact absurd h hs

theorem Beside.ignoreBlanks_eq (h : s.Beside s') : s'.ignoreBlanks = s.ignoreBlanks := by
  cases h <;> rfl

theorem Beside.advance (h : s.Beside s') (hs : s.rest ≠ []) : s.advance.Beside s'.advance := by
  have hpos := List.length_pos_iff.2 hs
  have hadvance : s.closed.advance = s.advance.closed := by
    simp only [ParseState.advance, closed, List.drop_append_of_le_length hpos]
  rw [h.eq_closed hs, hadvance]
  exact .tail

theorem dropWhile_append_closing (p : Char → Bool) (cs : List Char) :
    (cs ++ Regex.closing).dropWhile p =
      if (cs.dropWhile p).isEmpty then Regex.closing.dropWhile p
      else cs.dropWhile p ++ Regex.closing :=
  List.dropWhile_append

/-- What is skipped of a text does not depend on what stands behind it, unless the text ends in a
comment. -/
theorem skipComments_append_closing {fuel fuel' : Nat} {cs : List Char} (h : cs.length ≤ fuel)
    (h' : cs.length ≤ fuel') :
    skipComments fuel' (cs ++ Regex.closing) = skipComments fuel cs ++ Regex.closing ∨
      skipComments fuel cs = [] ∧ skipComments fuel' (cs ++ Regex.closing) = [] := by
  induction fuel generalizing cs fuel' with
  | zero =>
    obtain rfl := List.eq_nil_of_length_eq_zero (Nat.le_zero.1 h)
    left
    cases fuel' <;> rfl
  | succ fuel ih =>
    cases cs with
    | nil =>
      left
      cases fuel' <;> rfl
    | cons c cs =>
      obtain ⟨fuel', rfl⟩ := Nat.exists_eq_succ_of_ne_zero (Nat.ne_zero_of_lt h')
      rw [List.length_cons] at h h'
      rw [List.cons_append, Nat.succ_eq_add_one, skipComments, skipComments]
      split
      · exact ih (by omega) (by omega)
      · split
        · rw [dropWhile_append_closing]
          split
          · rename_i hempty
            rw [List.isEmpty_iff.1 hempty]
            right
            constructor
            · cases fuel <;> rfl
            · cases fuel' <;> rfl
          · rename_i hfull
            have hle := (List.dropWhile_suffix (l := cs) (· != '\n')).length_le
            have hpos := List.length_pos_iff.2 (mt List.isEmpty_iff.2 hfull)
            rw [List.drop_append_of_le_length hpos]
            refine ih ?_ ?_
            · rw [List.length_drop]
              omega
            · rw [List.length_drop]
              omega
        · left
          rfl

theorem beside_rest {cs cs' : List Char}
    (h : cs' = cs ++ Regex.closing ∨ cs = [] ∧ cs' = []) :
    Beside { s with rest := cs } { s with rest := cs' } := by
  rcases h with rfl | ⟨rfl, rfl⟩
  · exact .tail
  · exact .comment rfl

theorem Beside.skip (h : s.Beside s') : s.skip.Beside s'.skip := by
  cases h with
  | comment h => exact .comment (List.suffix_nil.1 (h ▸ skip_after s))
  | tail =>
    have hsame : s.closed.ignoreBlanks = s.ignoreBlanks := rfl
    rw [ParseState.skip, ParseState.skip, hsame]
    split
    · refine beside_rest (skipComments_append_closing (Nat.le_succ _) ?_)
      rw [closed, List.length_append]
      omega
    · exact .tail

theorem Beside.advanceSkip (h : s.Beside s') (hs : s.rest ≠ []) :
    s.advanceSkip.Beside s'.advanceSkip := (h.advance hs).skip

end ParseState

open ParseState

variable {α β : Type} {s s' : ParseState} {P : α × ParseState → Prop} {Q : β × ParseState → Prop}

/-! ## Results side by side -/

/-- The results of two readers that go side by side: both have read the same, or the first one is
refused, and what the second one has read, if it has read anything, has a property. -/
inductive Together (P : α × ParseState → Prop) :
    Option (α × ParseState) → Option (α × ParseState) → Prop where
  | read {a : α} {t t' : ParseState} (h : t.Beside t') : Together P (some (a, t)) (some (a, t'))
  | refused {y : Option (α × ParseState)} (h : ∀ r, y = some r → P r) : Together P none y

/-- Both readers have read the same, or both are refused. -/
abbrev Alike (x y : Option (α × ParseState)) : Prop := Together (fun _ => False) x y

/-- What is left is a part of the characters. -/
def Left (cs : List Char) (r : α × ParseState) : Prop := r.2.rest <:+ cs

theorem Left.after {cs : List Char} {r : α × ParseState} {r' : β × ParseState} (h : Left cs r)
    (h' : r'.2.After r.2) : Left cs r' := List.IsSuffix.trans h' h

theorem Left.past {r : α × ParseState} {r' : β × ParseState} (h : Left closing r)
    (h' : r'.2.Past r.2) : Left ['$'] r' :=
  List.IsSuffix.trans h' (tail_suffix_tail (m := closing) h)

theorem Left.next?_ne {r : α × ParseState} (h : Left ['$'] r) : r.2.next? ≠ some ')' := by
  intro hnext
  exact absurd (h.mem (List.mem_of_head? hnext)) (by decide)

theorem Left.closing {r : α × ParseState} (h : Left ['$'] r) : Left closing r :=
  h.trans (List.suffix_cons ')' ['$'])

namespace Together

variable {x y : Option (α × ParseState)}

theorem neither : Together P none none := .refused fun _ h => nomatch h

theorem mono {P' : α × ParseState → Prop} (h : Together P x y) (hP : ∀ r, P r → P' r) :
    Together P' x y := by
  cases h with
  | read h => exact .read h
  | refused h => exact .refused fun r hr => hP r (h r hr)

theorem of_alike (h : Alike x y) : Together P x y := h.mono fun _ => False.elim

theorem bind {f g : α × ParseState → Option (β × ParseState)} (h : Together P x y)
    (hread : ∀ a t t', x = some (a, t) → y = some (a, t') → t.Beside t' →
      Together Q (f (a, t)) (g (a, t')))
    (hrefused : ∀ r, P r → ∀ r', g r = some r' → Q r') :
    Together Q (x.bind f) (y.bind g) := by
  cases h with
  | read h => exact hread _ _ _ rfl rfl h
  | refused h =>
    refine .refused fun r' hr' => ?_
    obtain ⟨r, hr, hg⟩ := Option.bind_eq_some_iff.1 hr'
    exact hrefused r (h r hr) r' hg

theorem map (f : α → β) (h : Together P x y) (hP : ∀ r, P r → Q (f r.1, r.2)) :
    Together Q (x.map fun r => (f r.1, r.2)) (y.map fun r => (f r.1, r.2)) := by
  cases h with
  | read h => exact .read h
  | refused h =>
    refine .refused fun r' hr' => ?_
    obtain ⟨r, hr, rfl⟩ := Option.map_eq_some_iff.1 hr'
    exact hP r (h r hr)

theorem map_alike (f : α → β) (h : Alike x y) :
    Together Q (x.map fun r => (f r.1, r.2)) (y.map fun r => (f r.1, r.2)) :=
  h.map f fun _ => False.elim

/-- What was read stands for something or for nothing, on both sides alike. -/
theorem bind_map {γ : Type} (f : α → Option γ) (g : γ → β) (h : Alike x y) :
    Alike (x.bind fun r => (f r.1).map fun c => (g c, r.2))
      (y.bind fun r => (f r.1).map fun c => (g c, r.2)) := by
  refine h.bind (fun a t t' _ _ ht => ?_) fun _ => False.elim
  dsimp only
  cases f a with
  | none => exact .neither
  | some c => exact .read ht

theorem after (hs' : s'.rest = closing) (h : ∀ a t, y = some (a, t) → t.After s') :
    Together (Left closing) none y := by
  refine .refused fun r hr => ?_
  have hafter := h r.1 r.2 hr
  rwa [After, hs'] at hafter

/-- A reader that goes past the closing parenthesis leaves at most the dollar sign. -/
theorem past (hs' : s'.rest = closing) (h : ∀ a t, y = some (a, t) → t.Past s') :
    Together (Left ['$']) none y := by
  refine .refused fun r hr => ?_
  have hpast := h r.1 r.2 hr
  rwa [Past, hs'] at hpast

/-- Readers that look at the next character first. -/
theorem next {f g : Char → Option (α × ParseState)} (h : s.Beside s')
    (hboth : ∀ c, s.rest ≠ [] → s'.rest ≠ [] → Together P (f c) (g c))
    (hclosing : s.rest = [] → s'.rest = closing → Together P none (g ')')) :
    Together P (s.next?.bind f) (s'.next?.bind g) := by
  cases h.ahead with
  | both c hnext hnext' hs hs' =>
    rw [hnext, hnext']
    exact hboth c hs hs'
  | neither hnext hnext' =>
    rw [hnext, hnext']
    exact .neither
  | closing hnext hnext' hs hs' =>
    rw [hnext, hnext']
    exact hclosing hs hs'

theorem next_after {f g : Char → Option (α × ParseState)} (h : s.Beside s')
    (hboth : ∀ c, s.rest ≠ [] → s'.rest ≠ [] → Together (Left closing) (f c) (g c))
    (hafter : ∀ a t, s'.next?.bind g = some (a, t) → t.After s') :
    Together (Left closing) (s.next?.bind f) (s'.next?.bind g) := by
  refine next h hboth fun _ hs' => after hs' fun a t ht => hafter a t ?_
  rwa [next?, hs']

theorem next_past {f g : Char → Option (α × ParseState)} (h : s.Beside s')
    (hboth : ∀ c, s.rest ≠ [] → s'.rest ≠ [] → Together (Left ['$']) (f c) (g c))
    (hpast : ∀ a t, s'.next?.bind g = some (a, t) → t.Past s') :
    Together (Left ['$']) (s.next?.bind f) (s'.next?.bind g) := by
  refine next h hboth fun _ hs' => past hs' fun a t ht => hpast a t ?_
  rwa [next?, hs']

end Together

theorem skip_of_next? {c : Char} (hnext : s.next? = some c) (hwhite : isWhiteSpace c = false)
    (hmark : c ≠ '#') : s.skip = s := by
  obtain ⟨cs, hrest⟩ := List.head?_eq_some_iff.1 hnext
  rw [ParseState.skip]
  split
  · rw [hrest, skipComments, hwhite, if_neg Bool.false_ne_true, if_neg hmark, ← hrest]
  · rfl

/-! ## What stands behind a text -/

/-- A word without a closing parenthesis comes next in a text, or it does not come next either
when a closing parenthesis stands behind the text. -/
theorem prefix_append_closing {word cs : List Char} (hword : ')' ∉ word) :
    word <+: cs ++ closing ↔ word <+: cs := by
  refine ⟨fun h => ?_, fun h => h.trans (List.prefix_append cs closing)⟩
  rcases List.prefix_or_prefix_of_prefix h (List.prefix_append cs closing) with h' | ⟨more, rfl⟩
  · exact h'
  · cases more with
    | nil => simp
    | cons c more =>
      obtain ⟨tail, htail⟩ := (List.prefix_append_right_inj cs).1 h
      obtain ⟨rfl, -⟩ := List.cons.inj htail
      exact absurd (List.mem_append_right cs List.mem_cons_self) hword

theorem beginsWith_closed (s : ParseState) {word : String} (hword : ')' ∉ word.toList) :
    s.closed.beginsWith word = s.beginsWith word := by
  rw [beginsWith, beginsWith, Bool.eq_iff_iff, List.isPrefixOf_iff_prefix,
    List.isPrefixOf_iff_prefix]
  exact prefix_append_closing hword

theorem after?_closed (s : ParseState) {word : String} (hword : ')' ∉ word.toList) :
    s.closed.after? word = (s.after? word).map closed := by
  have hbegins := beginsWith_closed s hword
  rw [beginsWith, beginsWith] at hbegins
  rw [after?, after?, hbegins]
  split
  · rename_i hprefix
    have hlength := (List.isPrefixOf_iff_prefix.1 hprefix).length_le
    rw [String.length_toList] at hlength
    simp only [closed, Option.map_some, List.drop_append_of_le_length hlength]
  · rfl

/-- A result of the reader of the source together with what stands behind the source. -/
def closedResult (r : α × ParseState) : α × ParseState := (r.1, r.2.closed)

theorem Together.of_closed {x : Option (α × ParseState)} : Alike x (x.map closedResult) := by
  cases x with
  | none => exact .neither
  | some r => exact .read .tail


theorem takeWhile_append_closing {p : Char → Bool} {cs : List Char} (h : cs.dropWhile p ≠ []) :
    (cs ++ closing).takeWhile p = cs.takeWhile p := by
  rw [List.takeWhile_append, if_neg]
  intro hlength
  have hsum := congrArg List.length (List.takeWhile_append_dropWhile (p := p) (l := cs))
  rw [List.length_append] at hsum
  exact h (List.eq_nil_of_length_eq_zero (by omega))

theorem head?_append_closing {cs : List Char} {d : Char} (hparen : d ≠ ')') :
    (cs ++ closing).head? = some d ↔ cs.head? = some d := by
  cases cs with
  | nil => simp [closing, hparen.symm]
  | cons c cs => exact Iff.rfl

end Regex
end Rulebook
