import Mathlib.Data.List.TakeDrop
import Rulebook.Regex.Parser

/-!
# Readers round by round

The readers of classes and of branches go round until they come to an end, and some of the
smaller readers have several parts that read on from each other.  Here each round and each
part is a function of its own, whose reader for the rounds that follow is a parameter, and
the readers are shown to be made of them.
-/

namespace Rulebook
namespace Regex

open scoped CorePower

variable {s : ParseState} {fuel : Nat}

/-! ## Escapes -/

/-- A character by its code in braces, the first of which was passed. -/
def bracedLiteral : Parse Literal := fun s =>
  (hexBraced (s.rest.length + 1) [] s).bind fun r =>
    (if r.1.isEmpty then none else charOfCode? (hexValue r.1)).map fun c => (⟨c, false⟩, r.2)

/-- A character by its code, which has as many digits as the letter says. -/
def fixedLiteral (letter : Char) : Parse Literal := fun s =>
  (hexDigits (if letter = 'x' then 2 else if letter = 'u' then 4 else 8) [] s).bind fun r =>
    (charOfCode? (hexValue r.1)).map fun c => (⟨c, letter = 'x'⟩, r.2)

theorem hexLiteral_eq (letter : Char) (s : ParseState) :
    hexLiteral letter s =
      s.next?.bind fun c =>
        if c = '\x7b' then bracedLiteral s.advanceSkip else fixedLiteral letter s := by
  rw [hexLiteral]
  split
  · rename_i hnext
    rw [hnext]
    rfl
  · rename_i hnext
    rw [hnext, Option.bind_some, if_pos rfl, bracedLiteral]
    dsimp only
    refine congrArg _ (funext fun r => ?_)
    split
    · rfl
    · cases charOfCode? (hexValue r.1) <;> rfl
  · rename_i c hc hnext
    rw [hnext, Option.bind_some, if_neg hc, fixedLiteral]
    simp only [Option.bind_eq_bind, Option.map_eq_bind]
    rfl

/-- A property in braces, the first of which was passed. -/
def bracedProperty (negated : Bool) : Parse Class := fun s =>
  (propertyText (s.rest.length + 1) [] s).map fun r => (.property (propertyQuery r.1) negated, r.2)

theorem propertyClass_eq (negated : Bool) (s : ParseState) :
    propertyClass negated s =
      s.next?.bind fun c =>
        if c = '\x7b' then bracedProperty negated s.advanceSkip
        else if c = '\\' then none
        else some (.property (.named (String.singleton c)) negated, s.advanceSkip) := by
  rw [propertyClass]
  split
  · rename_i hnext
    rw [hnext]
    rfl
  · rename_i hnext
    rw [hnext, Option.bind_some, if_pos rfl, bracedProperty]
    simp only [Option.bind_eq_bind, Option.map_eq_bind]
    rfl
  · rename_i c hc hnext
    rw [hnext, Option.bind_some, if_neg hc]

/-- The word boundary with a name. -/
def boundaryOf? : String → Option Assertion
  | "start" => some .wordStart
  | "end" => some .wordEnd
  | "start-half" => some .wordStartHalf
  | "end-half" => some .wordEndHalf
  | _ => none

/-- A word boundary by its name in braces, the first of which was passed. -/
def namedBoundary : Parse Assertion := fun s =>
  (boundaryName (s.rest.length + 1) [] s).bind fun r =>
    (boundaryOf? (String.ofList r.1)).map fun a => (a, r.2)

theorem wordBoundary_eq (s : ParseState) :
    wordBoundary s =
      if s.next? = some '\x7b' then
        s.advanceSkip.next?.bind fun c =>
          if isBoundaryChar c then namedBoundary s.advanceSkip else some (.wordBoundary, s)
      else some (.wordBoundary, s) := by
  rw [wordBoundary]
  split
  · dsimp only
    cases s.advanceSkip.next? with
    | none => rfl
    | some c =>
      rw [Option.bind_some]
      dsimp only
      cases isBoundaryChar c with
      | false => rfl
      | true =>
        rw [if_neg (by decide), if_pos rfl, namedBoundary]
        rcases boundaryName (s.advanceSkip.rest.length + 1) [] s.advanceSkip with _ | ⟨name, t⟩
        · rfl
        · rw [Option.bind_some]
          dsimp only
          generalize String.ofList name = name
          unfold boundaryOf?
          split <;> simp_all
  · rfl

/-- What an escape of one letter stands for. -/
def letterEscape? (c : Char) : Option Escaped :=
  if isEscapable c then some (.literal ⟨c, false⟩)
  else
    match controlChar? c, assertionLetter? c, letterClass? c with
    | some k, _, _ => some (.literal ⟨k, false⟩)
    | _, some a, _ => some (.assertion a)
    | _, _, some k => some (.class k)
    | none, none, none => none

/-- What an escape stands for, by what follows its backslash. -/
def escaped : Parse Escaped := fun s =>
  s.next?.bind fun c =>
    if c.isDigit then none
    else if c = 'x' ∨ c = 'u' ∨ c = 'U' then
      (hexLiteral c s.advanceSkip).map fun r => (.literal r.1, r.2)
    else if c = 'p' ∨ c = 'P' then
      (propertyClass (c = 'P') s.advanceSkip).map fun r => (.class r.1, r.2)
    else if c = 'b' then (wordBoundary s.advance).map fun r => (.assertion r.1, r.2)
    else (letterEscape? c).map fun e => (e, s.advance)

theorem escape_eq (s : ParseState) : escape s = escaped s.advance := by
  rw [escape, escaped]
  dsimp only
  cases s.advance.next? with
  | none => rfl
  | some c =>
    rw [Option.bind_some]
    dsimp only
    rw [letterEscape?]
    split
    · rfl
    · split
      · rfl
      · split
        · rfl
        · split
          · rfl
          · cases isEscapable c with
            | true => rfl
            | false =>
              cases controlChar? c <;> cases assertionLetter? c <;> cases letterClass? c <;> rfl

/-! ## Classes -/

/-- What an escape stands for in a class. -/
def Escaped.member? : Escaped → Option Class
  | .literal l => some (.literal l)
  | .class c => some c
  | .assertion _ => none

theorem classItem_eq (s : ParseState) :
    classItem s =
      s.next?.bind fun c =>
        if c = '\\' then (escape s).bind fun r => r.1.member?.map fun k => (k, r.2)
        else some (.literal ⟨c, false⟩, s.advance) := by
  rw [classItem]
  split
  · rename_i hnext
    rw [hnext]
    rfl
  · rename_i hnext
    rw [hnext, Option.bind_some, if_pos rfl]
    rcases escape s with _ | ⟨_ | _ | _, t⟩ <;> rfl
  · rename_i c hc hnext
    rw [hnext, Option.bind_some, if_neg hc]

/-- The state behind a caret, if there is one. -/
def behindCaret (s : ParseState) : Bool × ParseState :=
  match s.after? "^" with
  | some t => (true, t)
  | none => (false, s)

/-- The name of a named class of ASCII characters and what closes it. -/
def asciiName (negated : Bool) : Parse Class := fun s =>
  let (name, rest) := s.rest.span (· != ':')
  (ParseState.after? { s with rest } ":]").bind fun t =>
    (asciiClass? (String.ofList name)).map fun kind => (.ascii kind negated, t)

theorem asciiItem_eq (s : ParseState) :
    asciiItem s =
      (s.after? "[:").bind fun t => asciiName (behindCaret t).1 (behindCaret t).2 := by
  rw [asciiItem]
  simp only [Option.bind_eq_bind, asciiName]
  cases s.after? "[:" with
  | none => rfl
  | some t =>
    simp only [Option.bind_some, behindCaret, Option.map_eq_bind]
    rfl

/-- What stands behind white space and the mark of a comment. -/
def behindMark (cs : List Char) : List Char :=
  if (cs.dropWhile isWhiteSpace).head? = some '#' then
    (cs.dropWhile isWhiteSpace).tail.dropWhile isWhiteSpace
  else cs.dropWhile isWhiteSpace

theorem peekSkip?_eq (s : ParseState) :
    s.peekSkip? =
      if s.ignoreBlanks then (behindMark (s.rest.drop 1)).head?.or (s.rest.drop 1).head?
      else (s.rest.drop 1).head? := by
  rw [ParseState.peekSkip?, behindMark]
  dsimp only
  split
  · split
    · rename_i hrest
      rw [hrest]
      rfl
    · rename_i hrest
      rw [if_neg]
      intro hhead
      obtain ⟨cs, hcs⟩ := List.head?_eq_some_iff.1 hhead
      exact hrest cs hcs
  · rfl

/-- Whether the next character begins no range: it is no hyphen, or the hyphen means itself. -/
def endsItem (s : ParseState) (c : Char) : Bool :=
  c != '-' || s.peekSkip? == some ']' || s.peekSkip? == some '-'

/-- A range from an item that was read, or the item alone. -/
def rangeFrom (first : Class) : Parse Class := fun s =>
  s.next?.bind fun c =>
    if endsItem s c then some (first, s)
    else
      (classItem s.advanceSkip).bind fun r =>
        match first, r.1 with
        | .literal a, .literal b => if a.char ≤ b.char then some (.range a b, r.2) else none
        | _, _ => none

theorem classRange_eq (s : ParseState) :
    classRange s = (classItem s).bind fun r => rangeFrom r.1 r.2.skip := rfl

theorem leadingHyphens_succ (acc : List Class) (s : ParseState) :
    leadingHyphens (fuel + 1) acc s =
      s.next?.bind fun c =>
        if c = '-' then leadingHyphens fuel (.literal ⟨'-', false⟩ :: acc) s.advanceSkip
        else some (acc, s) := by
  rw [leadingHyphens]
  dsimp only
  split
  · rename_i hnext
    rw [hnext]
    rfl
  · rename_i hnext
    rw [hnext, Option.bind_some, if_pos rfl]
  · rename_i c hc hnext
    rw [hnext, Option.bind_some, if_neg hc]

/-- A class from the items that stand at its beginning. -/
def bracketedFrom (fuel : Nat) (negated : Bool) (items : List Class) : Parse Class := fun s =>
  s.next?.bind fun c =>
    if items.isEmpty && c == ']' then
      if s.advanceSkip.rest.isEmpty then none
      else
        (classBody fuel [.literal ⟨']', false⟩] none s.advanceSkip).map fun r =>
          (.bracketed negated r.1, r.2)
    else (classBody fuel items none s).map fun r => (.bracketed negated r.1, r.2)

/-- The state behind the caret that stands before the items of a class. -/
def classStart (s : ParseState) (c : Char) : ParseState := if c == '^' then s.advanceSkip else s

theorem bracketed_succ (s : ParseState) :
    bracketed (fuel + 1) s =
      s.advanceSkip.next?.bind fun c =>
        (leadingHyphens ((classStart s.advanceSkip c).rest.length + 1) []
          (classStart s.advanceSkip c)).bind fun r => bracketedFrom fuel (c == '^') r.1 r.2 := by
  rw [bracketed]
  dsimp only
  cases s.advanceSkip.next? with
  | none => rfl
  | some c =>
    simp only [Option.bind_eq_bind, Option.bind_some]
    refine congrArg _ (funext fun r => ?_)
    rw [bracketedFrom]
    refine congrArg _ (funext fun d => ?_)
    split <;> rfl

/-- One round of the items of a class. -/
def itemsRound (body : List Class → Option (Class × ClassOperation) → Parse Class)
    (nested : Parse Class) (items : List Class) (left : Option (Class × ClassOperation)) :
    Parse Class := fun s =>
  s.next?.bind fun c =>
    if c = '[' then
      match asciiItem s with
      | some r => body (r.1 :: items) left r.2
      | none => (nested s).bind fun r => body (r.1 :: items) left r.2
    else if c = ']' then some (joinOperation left (Class.ofItems items.reverse), s.advance)
    else
      match classOperation? s with
      | some r => body [] (some (joinOperation left (Class.ofItems items.reverse), r.1)) r.2
      | none => (classRange s).bind fun r => body (r.1 :: items) left r.2

theorem classBody_succ (items : List Class) (left : Option (Class × ClassOperation))
    (s : ParseState) :
    classBody (fuel + 1) items left s =
      itemsRound (classBody fuel) (bracketed fuel) items left s.skip := by
  rw [classBody, itemsRound]
  dsimp only
  generalize s.skip = s
  split
  · rename_i hnext
    rw [hnext]
    rfl
  · rename_i hnext
    rw [hnext, Option.bind_some, if_pos rfl]
    cases asciiItem s with
    | some r => rfl
    | none => cases bracketed fuel s <;> rfl
  · rename_i hnext
    rw [hnext, Option.bind_some, if_neg (by decide), if_pos rfl]
  · rename_i c hopen hclose hnext
    rw [hnext, Option.bind_some, if_neg hopen, if_neg hclose]
    cases classOperation? s with
    | some r => rfl
    | none => cases classRange s <;> rfl

/-! ## Repetitions -/

/-- The greatest count of a repetition, which may be missing. -/
def countMost (least : Nat) : Parse (Nat × Option Nat) := fun s =>
  s.next?.bind fun c =>
    if c = '\x7d' then some ((least, none), s)
    else (countValue? (count s).1).map fun most => ((least, some most), (count s).2)

/-- The counts of a repetition, up to the brace that has to follow. -/
def countRange : Parse (Nat × Option Nat) := fun s =>
  (count s).2.next?.bind fun c =>
    (countValue? (count s).1).bind fun least =>
      if c = ',' then countMost least (count s).2.advanceSkip
      else some ((least, some least), (count s).2)

/-- What stands behind the counts of a repetition: a brace and perhaps a mark.  The least count is
not above the greatest one. -/
def countEnd (bounds : Nat × Option Nat) : Parse (Nat × Option Nat) := fun s =>
  s.next?.bind fun c =>
    if c = '\x7d' ∧ bounds.2.all (bounds.1 ≤ ·) then
      some (bounds, if s.advanceSkip.next? = some '?' then s.advanceSkip.advance else s.advanceSkip)
    else none

theorem countedBounds_eq (s : ParseState) :
    countedBounds s =
      if s.advanceSkip.rest.isEmpty then none
      else (countRange s.advanceSkip).bind fun r => countEnd r.1 r.2 := by
  rw [countedBounds]
  dsimp only
  split
  · rfl
  · rw [countRange]
    cases (count s.advanceSkip).2.next? with
    | none => rfl
    | some c =>
      simp only [Option.bind_eq_bind, Option.bind_some]
      by_cases hc : c = ','
      · simp only [if_pos hc, countMost]
        cases (count s.advanceSkip).2.advanceSkip.next? with
        | none => cases countValue? (count s.advanceSkip).1 <;> rfl
        | some d =>
          simp only [Option.bind_some]
          cases countValue? (count s.advanceSkip).1 with
          | none => by_cases hd : d = '\x7d' <;> simp only [hd, if_true, if_false] <;> rfl
          | some least =>
            by_cases hd : d = '\x7d'
            · simp [hd, countEnd]
            · simp only [if_neg hd, Option.bind_some]
              cases countValue? (count (count s.advanceSkip).2.advanceSkip).1 with
              | none => rfl
              | some most => simp [countEnd, ← ite_and]
      · simp only [if_neg hc]
        cases countValue? (count s.advanceSkip).1 with
        | none => rfl
        | some least => simp [countEnd]

/-! ## Groups and branches -/

/-- The name of a group with its characters, which other groups may have. -/
def admissibleName? (names : List String) : List Char → Option String
  | [] => none
  | first :: more =>
      if isNameChar true first && more.all (isNameChar false) &&
          !names.contains (String.ofList (first :: more)) then
        some (String.ofList (first :: more))
      else none

theorem groupName_eq (s : ParseState) :
    groupName s =
      if (s.rest.dropWhile (· != '>')).isEmpty then none
      else
        (admissibleName? s.names (s.rest.takeWhile (· != '>'))).map fun name =>
          (name, { s with
            rest := (s.rest.dropWhile (· != '>')).tail
            names := name :: s.names }) := by
  have hhead := List.head?_dropWhile_not (· != '>') s.rest
  simp only [groupName, List.span_eq_takeWhile_dropWhile]
  cases hdrop : s.rest.dropWhile (· != '>') with
  | nil => cases s.rest.takeWhile (· != '>') <;> rfl
  | cons c cs =>
    rw [hdrop] at hhead
    obtain rfl : c = '>' := by simpa using hhead
    cases s.rest.takeWhile (· != '>') with
    | nil => rfl
    | cons first more =>
      simp only [admissibleName?, List.isEmpty_cons, List.tail_cons]
      split <;> rfl

/-- Whether a look around the position would be opened, which is not part of the syntax. -/
def looksAround (s : ParseState) : Bool :=
  s.beginsWith "?=" || s.beginsWith "?!" || s.beginsWith "?<=" || s.beginsWith "?<!"

/-- What flags behind a question mark open. -/
def flagged : Parse Opening := fun s =>
  (flagChanges (s.rest.length + 1) [] false false s).bind fun r =>
    if r.2.next? = some ':' then some (.group r.1, r.2.advance)
    else if r.1.isEmpty then none
    else some (.flags r.1, r.2.advance)

/-- What a parenthesis opens, by what stands behind it. -/
def opened : Parse Opening := fun s =>
  if looksAround s then none
  else
    match (s.after? "?P<").or (s.after? "?<") with
    | some t => (groupName t).map fun r => (.group [], r.2)
    | none =>
        match s.after? "?" with
        | none => some (.group [], s)
        | some t => flagged t

theorem opening_eq (s : ParseState) : opening s = opened s.advanceSkip := by
  rw [opening, opened, looksAround]
  dsimp only
  split
  · rfl
  · rfl

/-- The state in which what a group holds is read. -/
def entered (changes : FlagChanges) (s : ParseState) : ParseState :=
  { s with ignoreBlanks := setting .ignoreBlanks changes s.ignoreBlanks }

/-- The state behind a group that was opened in the first state and closes in the second. -/
def behindGroup (s after : ParseState) : ParseState :=
  { after.advance with ignoreBlanks := s.ignoreBlanks }

/-- What a parenthesis opens, and what stands behind it. -/
def groupRound (read : List Tree → List Tree → Parse Tree) (items branches : List Tree)
    (s : ParseState) : Opening × ParseState → Option (Tree × ParseState)
  | (.flags changes, t) => read (.flags changes :: items) branches (entered changes t)
  | (.group changes, t) =>
      (read [] [] (entered changes t)).bind fun r =>
        if r.2.next? = some ')' then
          read (.group changes r.1 :: items) branches (behindGroup s r.2)
        else none

/-- What an escape stands for outside of classes. -/
def Escaped.tree : Escaped → Tree
  | .literal l => .literal l
  | .class c => .class c
  | .assertion a => .assertion a

/-- What a character stands for outside of classes. -/
def plainTree (c : Char) : Tree :=
  if c = '.' then .dot
  else if c = '^' then .assertion .lineStart
  else if c = '$' then .assertion .lineEnd
  else .literal ⟨c, false⟩

theorem primitive_eq (s : ParseState) :
    primitive s =
      s.next?.bind fun c =>
        if c = '\\' then (escape s).map fun r => (r.1.tree, r.2)
        else some (plainTree c, s.advance) := by
  rw [primitive]
  split
  · rename_i hnext
    rw [hnext]
    rfl
  · rename_i hnext
    rw [hnext, Option.bind_some, if_pos rfl]
    rcases escape s with _ | ⟨_ | _ | _, t⟩ <;> rfl
  · rename_i hnext
    rw [hnext]
    rfl
  · rename_i hnext
    rw [hnext]
    rfl
  · rename_i hnext
    rw [hnext]
    rfl
  · rename_i c hescape hdot hstart hend hnext
    rw [hnext, Option.bind_some, if_neg hescape, plainTree, if_neg hdot, if_neg hstart,
      if_neg hend]

/-- Whether a character repeats what stands before it. -/
def isRepetition (c : Char) : Prop := c = '?' ∨ c = '*' ∨ c = '+' ∨ c = '\x7b'

instance (c : Char) : Decidable (isRepetition c) := inferInstanceAs (Decidable (_ ∨ _ ∨ _ ∨ _))

/-- A repetition of the last item, and what stands behind it. -/
def repetitionRound (read : List Tree → List Tree → Parse Tree) (branches : List Tree) (c : Char)
    (s : ParseState) : List Tree → Option (Tree × ParseState)
  | [] => none
  | item :: items =>
      if isRepeatable item then
        (repetitionBounds c s).bind fun r =>
          read (.repetition item r.1.1 r.1.2 :: items) branches r.2
      else none

/-- The tree of the branches that were read. -/
def branchesTree (items branches : List Tree) : Tree :=
  Tree.ofBranches (Tree.ofSequence items.reverse :: branches).reverse

/-- One round of the branches of an alternation. -/
def branchesRound (read : List Tree → List Tree → Parse Tree) (items branches : List Tree) :
    Parse Tree := fun s =>
  match s.next? with
  | none => some (branchesTree items branches, s)
  | some c =>
      if c = ')' then some (branchesTree items branches, s)
      else if c = '|' then read [] (Tree.ofSequence items.reverse :: branches) s.advance
      else if c = '(' then (opening s).bind (groupRound read items branches s)
      else if c = '[' then
        (bracketed (2 * s.rest.length + 2) s).bind fun r => read (.class r.1 :: items) branches r.2
      else if isRepetition c then repetitionRound read branches c s items
      else (primitive s).bind fun r => read (r.1 :: items) branches r.2

theorem readBranches_succ (items branches : List Tree) (s : ParseState) :
    readBranches (fuel + 1) items branches s =
      branchesRound (readBranches fuel) items branches s.skip := by
  rw [readBranches, branchesRound]
  dsimp only
  generalize s.skip = s
  split
  · rename_i hnext
    rw [hnext]
    rfl
  · rename_i hnext
    rw [hnext]
    rfl
  · rename_i hnext
    rw [hnext]
    rfl
  · rename_i hnext
    rw [hnext]
    show _ = (opening s).bind (groupRound (readBranches fuel) items branches s)
    cases opening s with
    | none => rfl
    | some r =>
      obtain ⟨⟨changes⟩ | ⟨changes⟩, t⟩ := r
      · rfl
      · simp only [Option.bind_some, groupRound, entered]
        split
        · rename_i hinner
          rw [hinner]
          rfl
        · rename_i hinner
          rw [hinner]
          rfl
  · rename_i hnext
    rw [hnext]
    show _ = (bracketed (2 * s.rest.length + 2) s).bind _
    cases bracketed (2 * s.rest.length + 2) s <;> rfl
  · rename_i c hclose hbar hgroup hclass hnext
    rw [hnext]
    simp only [if_neg hclose, if_neg hbar, if_neg hgroup, if_neg hclass]
    by_cases hc : isRepetition c
    · rw [if_pos hc, if_pos (show _ ∨ _ ∨ _ ∨ _ from hc)]
      cases items with
      | nil => rfl
      | cons item items =>
        dsimp only [repetitionRound]
        split
        · cases repetitionBounds c s <;> rfl
        · rfl
    · rw [if_neg hc, if_neg (show ¬(_ ∨ _ ∨ _ ∨ _) from hc)]
      cases primitive s <;> rfl

end Regex
end Rulebook
