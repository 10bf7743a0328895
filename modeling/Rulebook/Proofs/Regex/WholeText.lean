import Rulebook.Proofs.Evaluation.Passing
import Rulebook.Proofs.Regex.Beside.Branches
import Rulebook.Proofs.Regex.Language

/-!
# Patterns and whole texts

A pattern is put between anchors as text.  For most sources this does what is meant: the
pattern is accepted if its source is a regular expression, and it matches the texts that the
expression matches from beginning to end.

Two kinds of sources interfere with the anchors.  One closes a group that it has not opened:
then it closes the group around itself, and what follows stands outside of it.  The other one
ends in a comment, which swallows the parenthesis behind it, so that the group stays open.  The
anchors also take room: they nest two levels deep, and have a size of their own.

Which size is admitted depends on how expressions are measured; the statements hold of every
measure that adds up along sequences.  A source that asks for a property without a list of its
characters is no regular expression here.
-/

namespace Rulebook
namespace Regex

open ParseState
open scoped CorePower

/-- The source closes a group that it has not opened. -/
def LeavesGroup (source : List Char) : Prop :=
  ∃ r, readBranches (2 * source.length + 2) [] [] ⟨source, false, []⟩ = some r ∧
    r.2.next? = some ')'

instance (source : List Char) : Decidable (LeavesGroup source) :=
  decidable_of_iff
    ((readBranches (2 * source.length + 2) [] [] ⟨source, false, []⟩).any
      fun r => r.2.next? == some ')')
    (by simp [LeavesGroup, Option.any_eq_true])

/-- The source is a regular expression, and is still one with `)$` behind it: it leaves a comment
open, which swallows what a pattern puts behind its source. -/
def EndsInComment (source : List Char) : Prop :=
  (Tree.parse? source).isSome ∧ (Tree.parse? (source ++ closing)).isSome

/-- The source is a regular expression, and leaves room for so many further levels and for such a
further size. -/
def Denotes (m : Measure) (source : List Char) (levels size : Nat) (e : Expr) : Prop :=
  ∃ t flags, Tree.parse? source = some t ∧ t.expr? {} = some (e, flags) ∧
    t.depth + levels ≤ nestLimit ∧ m.size e + size ≤ sizeLimit

/-- The size of the anchors. -/
def Measure.anchors (m : Measure) : Nat := m.size (.look .textStart) + m.size (.look .textEnd)

variable {m : Measure} {source : List Char} {t : Tree} {e : Expr} {text : List Char} {i j : Nat}

/-! ## Reading between the anchors -/

/-- The tree of a pattern. -/
def anchoredTree (t : Tree) : Tree :=
  .concat [.assertion .lineStart, .group [] t, .assertion .lineEnd]

theorem depth_anchoredTree (t : Tree) : (anchoredTree t).depth = t.depth + 2 := by
  simp [anchoredTree, Tree.depth, Tree.depthList]

theorem parse?_eq_some_iff :
    Tree.parse? source = some t ↔
      ∃ s, readBranches (2 * source.length + 2) [] [] ⟨source, false, []⟩ = some (t, s) ∧
        s.rest = [] ∧ t.depth ≤ nestLimit := by
  rw [Tree.parse?]
  cases readBranches (2 * source.length + 2) [] [] ⟨source, false, []⟩ with
  | none => simp
  | some r =>
    simp only [Option.some.injEq, Option.ite_none_right_eq_some, Bool.and_eq_true, List.isEmpty_iff,
      decide_eq_true_eq]
    constructor
    · rintro ⟨⟨hrest, hdepth⟩, rfl⟩
      exact ⟨r.2, rfl, hrest, hdepth⟩
    · rintro ⟨s, rfl, hrest, hdepth⟩
      exact ⟨⟨hrest, hdepth⟩, rfl⟩

/-- The anchors before a source are read, and then the group that holds the source. -/
theorem readBranches_anchored (source : List Char) (fuel : Nat) :
    readBranches (fuel + 2) [] [] ⟨'^' :: '(' :: '?' :: ':' :: source, false, []⟩ =
      groupRound (readBranches fuel) [.assertion .lineStart] []
        ⟨'(' :: '?' :: ':' :: source, false, []⟩ (.group [], ⟨source, false, []⟩) := by
  have hstart : readBranches (fuel + 2) [] [] ⟨'^' :: '(' :: '?' :: ':' :: source, false, []⟩ =
      readBranches (fuel + 1) [.assertion .lineStart] []
        ⟨'(' :: '?' :: ':' :: source, false, []⟩ := by
    rw [readBranches_succ]
    rfl
  rw [hstart, readBranches_succ]
  rfl

/-- The anchor behind the group is read, and nothing is left. -/
theorem readBranches_dollar (items : List Tree) (names : List String) (fuel : Nat) :
    readBranches (fuel + 2) items [] ⟨['$'], false, names⟩ =
      some (branchesTree (.assertion .lineEnd :: items) [], ⟨[], false, names⟩) := by
  rw [readBranches_succ]
  rfl

/-- A pattern is read if the group around the source is closed by the parenthesis behind it. -/
theorem parse?_anchored_iff {tree : Tree}
    (hclose : ∀ r, readBranches (2 * source.length + 12) [] [] ⟨source ++ closing, false, []⟩ =
      some r → r.2.next? = some ')' → r.2.rest = closing) :
    Tree.parse? ('^' :: '(' :: '?' :: ':' :: (source ++ closing)) = some tree ↔
      ∃ r, readBranches (2 * source.length + 12) [] [] ⟨source ++ closing, false, []⟩ = some r ∧
        r.2.rest = closing ∧ r.1.depth + 2 ≤ nestLimit ∧ tree = anchoredTree r.1 := by
  have hfuel : 2 * ('^' :: '(' :: '?' :: ':' :: (source ++ closing)).length + 2 =
      2 * source.length + 12 + 2 := by
    simp only [closing, List.length_cons, List.length_append, List.length_nil]
    omega
  have hdollar {s : ParseState} {r : Tree × ParseState} (hrest : r.2.rest = closing)
      (hs : s.ignoreBlanks = false) :
      readBranches (2 * source.length + 12) [.group [] r.1, .assertion .lineStart] []
        (behindGroup s r.2) = some (anchoredTree r.1, ⟨[], false, r.2.names⟩) := by
    rw [behindGroup, advance, hrest, hs]
    exact readBranches_dollar _ r.2.names (2 * source.length + 10)
  rw [parse?_eq_some_iff, hfuel, readBranches_anchored]
  constructor
  · rintro ⟨s, hread, -, hdepth⟩
    obtain ⟨r, hr, hread⟩ := Option.bind_eq_some_iff.1 hread
    split at hread
    · rename_i hnext
      have hrest := hclose r hr hnext
      rw [hdollar hrest rfl] at hread
      cases hread
      exact ⟨r, hr, hrest, depth_anchoredTree r.1 ▸ hdepth, rfl⟩
    · cases hread
  · rintro ⟨r, hr, hrest, hdepth, rfl⟩
    refine ⟨⟨[], false, r.2.names⟩, Option.bind_eq_some_iff.2 ⟨r, hr, ?_⟩, rfl,
      depth_anchoredTree r.1 ▸ hdepth⟩
    have hnext : r.2.next? = some ')' := by rw [next?, hrest]; rfl
    rw [if_pos hnext]
    exact hdollar hrest rfl

/-- How the readers of a source, and of the source with what a pattern puts behind it, end if the
source closes no group of its own. -/
inductive Ends (source : List Char) (fuel : Nat) : Prop where
  /-- The source by itself is refused, and no parenthesis is left behind it. -/
  | refused (halone : readBranches (2 * source.length + 2) [] [] ⟨source, false, []⟩ = none)
      (hleft : ∀ r, readBranches fuel [] [] ⟨source ++ closing, false, []⟩ = some r →
        Left ['$'] r)
  | closes (t : Tree) (s : ParseState) (hrest : s.rest = [])
      (halone : readBranches (2 * source.length + 2) [] [] ⟨source, false, []⟩ = some (t, s))
      (hclosed : readBranches fuel [] [] ⟨source ++ closing, false, []⟩ = some (t, s.closed))
  | swallows (t : Tree) (s : ParseState) (hrest : s.rest = [])
      (halone : readBranches (2 * source.length + 2) [] [] ⟨source, false, []⟩ = some (t, s))
      (hclosed : readBranches fuel [] [] ⟨source ++ closing, false, []⟩ = some (t, s))

theorem ends_of_not_leavesGroup (h : ¬ LeavesGroup source) {fuel : Nat}
    (hfuel : source.length + 2 < fuel) : Ends source fuel := by
  have htogether : Together (Left ['$'])
      (readBranches (2 * source.length + 2) [] [] ⟨source, false, []⟩)
      (readBranches fuel [] [] ⟨source ++ closing, false, []⟩) := by
    refine readBranches_together .tail ?_ ?_ [] []
    · dsimp only
      omega
    · exact lt_of_eq_of_lt List.length_append hfuel
  generalize halone : readBranches (2 * source.length + 2) [] [] ⟨source, false, []⟩ = x,
    hclosed : readBranches fuel [] [] ⟨source ++ closing, false, []⟩ = y at htogether
  cases htogether with
  | refused hleft => exact .refused halone fun r hr => hleft r (hclosed ▸ hr)
  | @read t s s' hbeside =>
    -- the reader ends only before a parenthesis, which would be one of no group, or at the end
    have hrest : s.rest = [] := by
      rcases readBranches_next? halone with hnext | hnext
      · exact List.head?_eq_none_iff.1 hnext
      · exact absurd ⟨_, halone, hnext⟩ h
    cases hbeside with
    | tail => exact .closes t s hrest halone hclosed
    | comment => exact .swallows t s hrest halone hclosed

theorem closed_rest_ne_nil (s : ParseState) : s.closed.rest ≠ [] :=
  List.append_ne_nil_of_right_ne_nil _ (List.cons_ne_nil _ _)

theorem closed_ne {s : ParseState} (hrest : s.rest = []) : s.closed ≠ s :=
  fun hsame => closed_rest_ne_nil s (hsame.symm ▸ hrest)

/-- A source that ends in a comment is read to the end of what stands behind it. -/
theorem endsInComment_iff (h : ¬ LeavesGroup source) {s : ParseState}
    (hread : readBranches (2 * source.length + 2) [] [] ⟨source, false, []⟩ = some (t, s))
    (hrest : s.rest = []) (hdepth : t.depth ≤ nestLimit) :
    EndsInComment source ↔
      readBranches (2 * source.length + 12) [] [] ⟨source ++ closing, false, []⟩ =
        some (t, s) := by
  have hlength : (source ++ closing).length = source.length + 2 := List.length_append
  have hmore {r : Tree × ParseState} (hr : readBranches (2 * (source ++ closing).length + 2) [] []
      ⟨source ++ closing, false, []⟩ = some r) :
      readBranches (2 * source.length + 12) [] [] ⟨source ++ closing, false, []⟩ = some r :=
    readBranches_mono (by omega) hr
  have hvalid : (Tree.parse? source).isSome :=
    Option.isSome_of_mem (parse?_eq_some_iff.2 ⟨s, hread, hrest, hdepth⟩)
  rw [EndsInComment, and_iff_right hvalid, Option.isSome_iff_exists]
  cases ends_of_not_leavesGroup h
    (show source.length + 2 < 2 * (source ++ closing).length + 2 by omega) with
  | refused halone =>
    rw [halone] at hread
    cases hread
  | closes t' s' _ halone hclosed =>
    cases halone.symm.trans hread
    refine iff_of_false ?_ fun hsame => ?_
    · rintro ⟨tree, hparse⟩
      obtain ⟨u, hu, hrest', -⟩ := parse?_eq_some_iff.1 hparse
      cases hclosed.symm.trans hu
      exact closed_rest_ne_nil s hrest'
    · exact closed_ne hrest
        (congrArg Prod.snd (Option.some.inj ((hmore hclosed).symm.trans hsame)))
  | swallows t' s' _ halone hclosed =>
    cases halone.symm.trans hread
    exact iff_of_true ⟨t, parse?_eq_some_iff.2 ⟨s, hclosed, hrest, hdepth⟩⟩ (hmore hclosed)

/-- A source that closes no group of its own is read between the anchors if it is an expression
that leaves room for them and does not swallow the second one. -/
theorem parse?_between_anchors {tree : Tree} (h : ¬ LeavesGroup source) :
    Tree.parse? ('^' :: '(' :: '?' :: ':' :: (source ++ closing)) = some tree ↔
      ∃ t, Tree.parse? source = some t ∧ ¬ EndsInComment source ∧ t.depth + 2 ≤ nestLimit ∧
        tree = anchoredTree t := by
  cases ends_of_not_leavesGroup h
    (show source.length + 2 < 2 * source.length + 12 by omega) with
  | refused halone hleft =>
    rw [parse?_anchored_iff fun r hr hnext => absurd hnext (hleft r hr).next?_ne]
    refine iff_of_false ?_ ?_
    · rintro ⟨r, hr, hrest, -⟩
      exact absurd (hrest ▸ (hleft r hr).length_le) (by decide)
    · rintro ⟨t, hparse, -⟩
      obtain ⟨s, hread, -⟩ := parse?_eq_some_iff.1 hparse
      rw [halone] at hread
      cases hread
  | closes t s hrest halone hclosed =>
    have hclosing : s.closed.rest = closing := by rw [closed, hrest, List.nil_append]
    rw [parse?_anchored_iff fun r hr _ => by cases hclosed.symm.trans hr; exact hclosing]
    constructor
    · rintro ⟨r, hr, -, hdepth, rfl⟩
      cases hclosed.symm.trans hr
      have hle : t.depth ≤ nestLimit := Nat.le_of_add_right_le hdepth
      refine ⟨t, parse?_eq_some_iff.2 ⟨s, halone, hrest, hle⟩, fun hcomment => ?_, hdepth, rfl⟩
      have hsame := (endsInComment_iff h halone hrest hle).1 hcomment
      exact closed_ne hrest (congrArg Prod.snd (Option.some.inj (hclosed.symm.trans hsame)))
    · rintro ⟨t', hparse, -, hdepth, rfl⟩
      obtain ⟨s', hread, -⟩ := parse?_eq_some_iff.1 hparse
      cases halone.symm.trans hread
      exact ⟨_, hclosed, hclosing, hdepth, rfl⟩
  | swallows t s hrest halone hclosed =>
    rw [parse?_anchored_iff fun r hr hnext => ?_]
    · refine iff_of_false ?_ ?_
      · rintro ⟨r, hr, hrest', -⟩
        cases hclosed.symm.trans hr
        rw [hrest] at hrest'
        cases hrest'
      · rintro ⟨t', hparse, hcomment, -⟩
        obtain ⟨s', hread, -, hdepth⟩ := parse?_eq_some_iff.1 hparse
        cases halone.symm.trans hread
        exact hcomment ((endsInComment_iff h halone hrest hdepth).2 hclosed)
    · cases hclosed.symm.trans hr
      rw [next?, hrest] at hnext
      cases hnext

/-! ## Matching between the anchors -/

/-- The expression of a pattern. -/
def anchoredExpr (e : Expr) : Expr :=
  .seq (.look .textStart) (.seq e (.seq (.look .textEnd) .empty))

theorem expr?_anchoredTree (t : Tree) :
    (anchoredTree t).expr? {} = (t.expr? {}).map fun r => (anchoredExpr r.1, {}) := by
  have hgroup : (Tree.group [] t).expr? {} = (t.expr? {}).map fun r => (r.1, {}) := by
    rw [Tree.expr?, Flags.changeAll, List.foldl_nil]
    cases t.expr? {} <;> rfl
  rw [anchoredTree, Tree.expr?, Tree.sequence?, Tree.expr?]
  dsimp only
  rw [Tree.sequence?, hgroup]
  cases t.expr? {} <;> rfl

theorem Measure.size_anchoredExpr (m : Measure) (e : Expr) :
    m.size (anchoredExpr e) = m.size e + m.anchors := by
  simp only [anchoredExpr, m.size_seq, m.size_empty, anchors]
  omega

theorem matches_textStart_iff : (Expr.look .textStart).Matches text i j ↔ i = 0 ∧ j = 0 := by
  simp only [Expr.Matches, Look.holds]
  constructor
  · rintro ⟨rfl, hle, hnone⟩
    cases i with
    | zero => exact ⟨rfl, rfl⟩
    | succ i =>
      have hbefore : text[i]? = none := Option.isNone_iff_eq_none.1 hnone
      exact absurd (List.getElem?_eq_none_iff.1 hbefore) (by omega)
  · rintro ⟨rfl, rfl⟩
    exact ⟨rfl, Nat.zero_le _, rfl⟩

theorem matches_textEnd_iff :
    (Expr.look .textEnd).Matches text i j ↔ i = text.length ∧ j = text.length := by
  simp only [Expr.Matches, Look.holds, Option.isNone_iff_eq_none, List.getElem?_eq_none_iff]
  omega

/-- A search for the expression between anchors finds the whole text or nothing. -/
theorem search_anchoredExpr_iff (e : Expr) (text : List Char) :
    (anchoredExpr e).search text = true ↔ e.MatchesWhole text := by
  simp only [Expr.search_iff, anchoredExpr, Expr.MatchesWhole]
  constructor
  · rintro ⟨_, _, -, _, hstart, _, hmatch, _, hend, -⟩
    obtain ⟨-, rfl⟩ := matches_textStart_iff.1 hstart
    obtain ⟨rfl, -⟩ := matches_textEnd_iff.1 hend
    exact hmatch
  · intro hmatch
    exact ⟨0, text.length, Nat.zero_le _, 0, matches_textStart_iff.2 ⟨rfl, rfl⟩, text.length,
      hmatch, text.length, matches_textEnd_iff.2 ⟨rfl, rfl⟩, rfl⟩

theorem Denotes.of_le {levels levels' size size' : Nat} (h : Denotes m source levels size e)
    (hlevels : levels' ≤ levels) (hsize : size' ≤ size) : Denotes m source levels' size' e := by
  obtain ⟨t, flags, hparse, hexpr, hdepth, hroom⟩ := h
  exact ⟨t, flags, hparse, hexpr, by omega, by omega⟩

/-- A source that is a regular expression by itself closes no group of its own. -/
theorem Denotes.not_leavesGroup {levels size : Nat} (h : Denotes m source levels size e) :
    ¬ LeavesGroup source := by
  rintro ⟨r, hread, hnext⟩
  obtain ⟨t, -, hparse, -⟩ := h
  obtain ⟨s, hread', hrest, -⟩ := parse?_eq_some_iff.1 hparse
  cases hread.symm.trans hread'
  rw [next?, hrest] at hnext
  cases hnext

end Regex

open Regex Run

namespace Pattern

theorem ofSource?_eq_some_iff {m : Measure} {source : String} {p : Pattern}
    (h : ¬ LeavesGroup source.toList) :
    ofSource? m source = some p ↔
      ∃ e, Denotes m source.toList 2 m.anchors e ∧ ¬ EndsInComment source.toList ∧
        p = ⟨source, anchoredExpr e⟩ := by
  have hanchored : anchored source = '^' :: '(' :: '?' :: ':' :: (source.toList ++ closing) := rfl
  rw [ofSource?, hanchored, Option.bind_eq_some_iff]
  constructor
  · rintro ⟨⟨anchoredE, flags⟩, htree, hsize⟩
    obtain ⟨tree, htree, hexpr⟩ := Option.bind_eq_some_iff.1 htree
    obtain ⟨t, hparse, hcomment, hdepth, rfl⟩ := (parse?_between_anchors h).1 htree
    rw [expr?_anchoredTree] at hexpr
    obtain ⟨⟨e, flags'⟩, hinner, heq⟩ := Option.map_eq_some_iff.1 hexpr
    cases heq
    dsimp only at hsize
    rw [m.size_anchoredExpr] at hsize
    obtain ⟨hroom, heq⟩ := Option.ite_none_right_eq_some.1 hsize
    cases heq
    exact ⟨e, ⟨t, flags', hparse, hinner, hdepth, hroom⟩, hcomment, rfl⟩
  · rintro ⟨e, ⟨t, flags, hparse, hexpr, hdepth, hsize⟩, hcomment, rfl⟩
    refine ⟨(anchoredExpr e, {}), Option.bind_eq_some_iff.2 ⟨anchoredTree t, ?_, ?_⟩, ?_⟩
    · exact (parse?_between_anchors h).2 ⟨t, hparse, hcomment, hdepth, rfl⟩
    · rw [expr?_anchoredTree, hexpr]
      rfl
    · dsimp only
      rw [if_pos (m.size_anchoredExpr e ▸ hsize)]

/-- A pattern is accepted, and its source closes no group but its own ones, exactly if the source
is a regular expression that leaves room for the anchors and ends in no comment.  Unless its
source closes a group that it has not opened, a pattern that was accepted matches a text exactly
if the expression of the source by itself matches the text from beginning to end; so the step of a
rule with the pattern passes such texts only, and an entry with the pattern is found for such keys
only. -/
theorem matches_whole_texts (m : Measure) (source : String) :
    ((∃ p, ofSource? m source = some p) ∧ ¬ LeavesGroup source.toList ↔
        (∃ e, Denotes m source.toList 2 m.anchors e) ∧ ¬ EndsInComment source.toList) ∧
      ∀ p, ofSource? m source = some p → LeavesGroup source.toList ∨
        p.source = source ∧ ∃ e, Denotes m source.toList 0 0 e ∧
          (∀ text, p.accepts text = true ↔ e.MatchesWhole text.toList) ∧
          (∀ context v flow, Passes ((Check.pattern p).apply context v) flow ↔
            flow = .next v ∧ ∃ text, v = .text text ∧ e.MatchesWhole text.toList) ∧
          ∀ {γ : Type} (items : MappingItems γ) (key : String) (q : PatternEntry γ),
            items.patterns.find? (fun q => q.pattern.accepts key) = some q → q.pattern = p →
              e.MatchesWhole key.toList := by
  refine ⟨⟨?_, ?_⟩, fun p hp => or_iff_not_imp_left.2 fun h => ?_⟩
  · rintro ⟨⟨p, hp⟩, h⟩
    obtain ⟨e, he, hcomment, -⟩ := (ofSource?_eq_some_iff h).1 hp
    exact ⟨⟨e, he⟩, hcomment⟩
  · rintro ⟨⟨e, he⟩, hcomment⟩
    have h := he.not_leavesGroup
    exact ⟨⟨_, (ofSource?_eq_some_iff h).2 ⟨e, he, hcomment, rfl⟩⟩, h⟩
  · obtain ⟨e, he, -, rfl⟩ := (ofSource?_eq_some_iff h).1 hp
    have haccepts (text : String) :
        accepts ⟨source, anchoredExpr e⟩ text = true ↔ e.MatchesWhole text.toList :=
      search_anchoredExpr_iff e text.toList
    refine ⟨rfl, e, he.of_le (Nat.zero_le _) (Nat.zero_le _), haccepts, fun context v flow => ?_,
      fun items key q hq hpattern => ?_⟩
    · refine passes_demand.trans (and_comm.trans (and_congr_right fun _ => ?_))
      cases v with
      | text t =>
        refine (haccepts t).trans ⟨fun hmatch => ⟨t, rfl, hmatch⟩, ?_⟩
        rintro ⟨_, ⟨⟩, hmatch⟩
        exact hmatch
      | _ => simp
    · have hkey := List.find?_some hq
      rw [hpattern] at hkey
      exact (haccepts key).1 hkey

/-- A source that is no regular expression leaves its group, and matches a text by its first
character. -/
example :
    LeavesGroup "a)|(?:b".toList ∧ (Tree.parse? "a)|(?:b".toList).isNone ∧
      (ofSource? .estimate "a)|(?:b").any (·.accepts "ax") := by
  decide +kernel

/-- A regular expression ends in a comment, and is refused as a pattern. -/
example :
    (Tree.parse? "(?x)a # letter".toList).isSome ∧
      (ofSource? .estimate "(?x)a # letter").isNone := by
  decide +kernel

end Pattern

end Rulebook
