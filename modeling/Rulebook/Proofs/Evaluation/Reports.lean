import Mathlib.Data.List.Basic
import Rulebook.Proofs.Evaluation.Failing
import Rulebook.Proofs.Evaluation.Testing
import Rulebook.Proofs.Json.Double

/-!
# Reports of combinators

A choice among branches that fails reports what became of each branch: in the first line their
number, and then, from a line of its own on, the number of the branch and its outcome.  Failures
may have lines of their own, those of further choices among them, and all but the first are
indented.  So a newline starts the next branch if and only if it is not indented, and whoever
splits a report there and takes the indentation back has the outcomes of all branches again, letter
for letter and whatever they are made of.
-/

namespace Rulebook

/-! ## Indentation -/

/-- The characters with two spaces after each newline. -/
def indent (cs : List Char) : List Char :=
  cs.flatMap fun c => if c = '\n' then ['\n', ' ', ' '] else [c]

theorem toList_indentLines (s : String) : (indentLines s).toList = indent s.toList :=
  String.toList_ofList

/-- The characters without the two spaces after each newline. -/
def outdent : List Char → List Char
  | '\n' :: ' ' :: ' ' :: rest => '\n' :: outdent rest
  | c :: rest => c :: outdent rest
  | [] => []

theorem outdent_cons {c : Char} (hc : c ≠ '\n') (cs : List Char) :
    outdent (c :: cs) = c :: outdent cs := by
  rw [outdent]
  rintro rest rfl
  exact absurd rfl hc

theorem indent_cons (c : Char) (cs : List Char) :
    indent (c :: cs) = (if c = '\n' then ['\n', ' ', ' '] else [c]) ++ indent cs :=
  List.flatMap_cons

/-- Indentation can be taken back. -/
theorem outdent_indent (cs : List Char) : outdent (indent cs) = cs := by
  induction cs with
  | nil => rfl
  | cons c cs ih =>
    rw [indent_cons]
    by_cases hc : c = '\n'
    · rw [if_pos hc, hc]
      exact congrArg _ ih
    · rw [if_neg hc, List.singleton_append, outdent_cons hc, ih]

/-- Two spaces follow each newline. -/
def Indented : List Char → Prop
  | [] => True
  | c :: rest => (c = '\n' → [' ', ' '] <+: rest) ∧ Indented rest

theorem indented_indent (cs : List Char) : Indented (indent cs) := by
  induction cs with
  | nil => trivial
  | cons c cs ih =>
    rw [indent_cons]
    by_cases hc : c = '\n'
    · rw [if_pos hc]
      have hspaces : [' ', ' '] <+: [' ', ' '] ++ indent cs := List.prefix_append _ _
      exact ⟨fun _ => hspaces, by simp, by simp, ih⟩
    · rw [if_neg hc]
      exact ⟨fun h => absurd h hc, ih⟩

theorem indented_of_not_mem {cs : List Char} (h : '\n' ∉ cs) : Indented cs := by
  induction cs with
  | nil => trivial
  | cons c cs ih =>
    rw [List.mem_cons, not_or] at h
    exact ⟨fun hc => absurd hc.symm h.1, ih h.2⟩

theorem Indented.append {cs ds : List Char} (hcs : Indented cs) (hds : Indented ds) :
    Indented (cs ++ ds) := by
  induction cs with
  | nil => exact hds
  | cons c cs ih => exact ⟨fun hc => (hcs.1 hc).trans (List.prefix_append _ _), ih hcs.2⟩

/-! ## Groups of lines -/

/-- The groups of lines of a text: it is split at the newlines that are not followed by two
spaces. -/
def lineGroups : List Char → List (List Char)
  | [] => [[]]
  | c :: rest =>
      if c = '\n' ∧ ¬ [' ', ' '] <+: rest then [] :: lineGroups rest
      else (lineGroups rest).modifyHead (c :: ·)

/-- Text with indented lines belongs to one group. -/
theorem lineGroups_append {cs : List Char} (h : Indented cs) (rest : List Char) :
    lineGroups (cs ++ rest) = (lineGroups rest).modifyHead (cs ++ ·) := by
  induction cs with
  | nil => exact (congrFun List.modifyHead_id _).symm
  | cons c cs ih =>
    have hinside : ¬ (c = '\n' ∧ ¬ [' ', ' '] <+: cs ++ rest) := by
      rintro ⟨hc, hspaces⟩
      exact hspaces ((h.1 hc).trans (List.prefix_append _ _))
    rw [List.cons_append, lineGroups, if_neg hinside, ih h.2, List.modifyHead_modifyHead]
    rfl

/-- A newline before anything but two spaces starts a group. -/
theorem lineGroups_newline {cs : List Char} (h : ¬ [' ', ' '] <+: cs) :
    lineGroups ('\n' :: cs) = [] :: lineGroups cs := by
  rw [lineGroups, if_pos ⟨rfl, h⟩]

/-! ## Numbered reports -/

/-- The lines about a branch: its number, and a text that is indented. -/
def branchLines (number : Nat) (text : String) : List Char :=
  (toString number).toList ++ ": ".toList ++ indent text.toList

theorem not_newline_mem_number (n : Nat) : '\n' ∉ (toString n).toList := by
  rw [Json.toList_digits]
  intro h
  cases isDigit_of_mem_digits h

theorem indented_branchLines (n : Nat) (s : String) : Indented (branchLines n s) := by
  have hprefix : Indented ((toString n).toList ++ ": ".toList) := by
    apply indented_of_not_mem
    rw [List.mem_append, not_or]
    exact ⟨not_newline_mem_number n, by decide⟩
  exact hprefix.append (indented_indent _)

theorem not_spaces_prefix_branchLines (n : Nat) (s : String) (rest : List Char) :
    ¬ [' ', ' '] <+: branchLines n s ++ rest := by
  rw [branchLines, Json.toList_digits]
  cases hdigits : Nat.toDigits 10 n with
  | nil => exact absurd hdigits Nat.toDigits_ne_nil
  | cons d ds =>
    have hd : d.isDigit = true := isDigit_of_mem_digits (hdigits ▸ List.mem_cons_self ..)
    intro h
    rw [List.cons_append, List.cons_append, List.cons_append, List.cons_prefix_cons] at h
    rw [← h.1] at hd
    cases hd

theorem toList_numbered_cons (first : Nat) (s : String) (rest : List String) :
    (numbered first (indentLines s :: rest)).toList =
      '\n' :: (branchLines first s ++ (numbered (first + 1) rest).toList) := by
  simp [numbered, branchLines, toList_indentLines]

/-- Each of the numbered reports makes up a group. -/
theorem lineGroups_numbered (first : Nat) (texts : List String) :
    lineGroups (numbered first (texts.map indentLines)).toList =
      [] :: (texts.zipIdx first).map fun p => branchLines p.2 p.1 := by
  induction texts generalizing first with
  | nil => rfl
  | cons s texts ih =>
    rw [List.map_cons, toList_numbered_cons,
      lineGroups_newline (not_spaces_prefix_branchLines first s _),
      lineGroups_append (indented_branchLines first s), ih, List.modifyHead_cons, List.append_nil,
      List.zipIdx_cons, List.map_cons]

/-- The first line of the report of a combinator. -/
def heading (wording : String) (branches : Nat) : String :=
  wording ++ toString branches ++ " rules:"

/-- A report is split into its first line and the lines about each branch. -/
theorem lineGroups_report {wording : String} (hwording : '\n' ∉ wording.toList)
    (texts : List String) :
    lineGroups (heading wording texts.length ++ numbered 1 (texts.map indentLines)).toList =
      (heading wording texts.length).toList ::
        (texts.zipIdx 1).map fun p => branchLines p.2 p.1 := by
  have hheading : Indented (heading wording texts.length).toList := by
    apply indented_of_not_mem
    simp only [heading, String.toList_append, List.mem_append, not_or]
    exact ⟨⟨hwording, not_newline_mem_number _⟩, by decide⟩
  rw [String.toList_append, lineGroups_append hheading, lineGroups_numbered, List.modifyHead_cons,
    List.append_nil]

/-! ## Reading reports -/

/-- What the lines about a branch say of it. -/
def readBranch (lines : List Char) : String :=
  String.ofList (outdent ((lines.dropWhile (· ≠ ':')).drop 2))

/-- What a report says of the branches: nothing of those that passed, and the failures of the
others. -/
def readReport (report : String) : List (Option String) :=
  (lineGroups report.toList).tail.map fun lines =>
    let text := readBranch lines
    if text = "ok" then none else some text

theorem readBranch_branchLines (n : Nat) (s : String) : readBranch (branchLines n s) = s := by
  have hnumber : ∀ c ∈ (toString n).toList, decide (c ≠ ':') = true := by
    intro c hc
    rw [Json.toList_digits] at hc
    rw [decide_eq_true_iff]
    rintro rfl
    cases isDigit_of_mem_digits hc
  have hrest : ((branchLines n s).dropWhile (· ≠ ':')).drop 2 = indent s.toList := by
    rw [branchLines, List.append_assoc, List.dropWhile_append_of_pos hnumber]
    rfl
  rw [readBranch, hrest, outdent_indent, String.ofList_toList]

/-- A failure is not taken for a branch that passed. -/
theorem report_ne_ok (e : ValidationError) : e.report ≠ "ok" := by
  intro h
  have hhead := congrArg (fun s => s.toList.head?) h
  simp [ValidationError.report, ValidationError.render] at hhead

/-! ## Choices among branches -/

/-- The two ways to choose among branches. -/
inductive Choice where
  | anyOf
  | oneOf

namespace Choice

/-- The step that chooses among branches. -/
def step {γ : Type} (choice : Choice) (branches : List γ) : Step γ :=
  match choice with
  | anyOf => .anyOf branches
  | oneOf => .oneOf branches

/-- How its report begins. -/
def wording : Choice → String
  | anyOf => "must satisfy any of "
  | oneOf => "must satisfy exactly one of "

end Choice

/-- The outcomes of branches, in their order. -/
def Outcomes {γ : Type} (call : Call γ) (v : Value) (branches : List γ)
    (outcomes : List (Except ValidationError Value)) : Prop :=
  List.Forall₂ (fun b o => (call b v).run = some o) branches outcomes

/-- What the report of a choice says of the outcome of a branch. -/
def outcomeText (o : Except ValidationError Value) : String := (outcomeReport o).getD "ok"

/-- The error is the report of a choice with these outcomes.  It is at the value itself. -/
structure Reports (choice : Choice) (e : ValidationError)
    (outcomes : List (Except ValidationError Value)) : Prop where
  path : e.path = []
  groups : lineGroups e.failure.detail.toList =
    (heading choice.wording outcomes.length).toList ::
      (outcomes.zipIdx 1).map fun p => branchLines p.2 (outcomeText p.1)
  read : readReport e.failure.detail = outcomes.map outcomeReport

section

open Run

variable {γ : Type} {call : Call γ} {context : Option Context} {v : Value} {branches : List γ}
  {e : ValidationError} {outcomes : List (Except ValidationError Value)}

theorem outcomeReport_eq (o : Except ValidationError Value) :
    outcomeReport o = if outcomeText o = "ok" then none else some (outcomeText o) := by
  cases o with
  | ok w => rfl
  | error e => exact (if_neg (report_ne_ok e)).symm

theorem Reports.of_detail {choice : Choice} {f : Failure}
    (hdetail : f.detail = heading choice.wording outcomes.length ++
      numbered 1 ((outcomes.map outcomeText).map indentLines)) : Reports choice (.here f) outcomes := by
  have hwording : '\n' ∉ choice.wording.toList := by
    cases choice <;> decide
  have hgroups : lineGroups f.detail.toList = (heading choice.wording outcomes.length).toList ::
      (outcomes.zipIdx 1).map fun p => branchLines p.2 (outcomeText p.1) := by
    have hsplit := lineGroups_report hwording (outcomes.map outcomeText)
    rw [List.length_map, ← hdetail, List.zipIdx_map, List.map_map] at hsplit
    exact hsplit
  have hread : readReport f.detail = outcomes.map outcomeReport := by
    rw [readReport, hgroups, List.tail_cons, List.map_map]
    calc (outcomes.zipIdx 1).map _
      _ = ((outcomes.zipIdx 1).map Prod.fst).map outcomeReport := by
        rw [List.map_map]
        refine List.map_congr_left fun p _ => ?_
        simp only [Function.comp_apply, readBranch_branchLines, outcomeReport_eq]
      _ = outcomes.map outcomeReport := by
        rw [List.zipIdx_map_fst]
  exact ⟨rfl, hgroups, hread⟩

/-- A choice of the first branch that passes fails if all branches fail. -/
theorem outcomes_of_fails_firstOf {reports : List String}
    (h : Fails (firstOf call v branches reports) e) : ∃ errors : List ValidationError,
      Outcomes call v branches (errors.map Except.error) ∧
        e = .here (.noneOf (reports ++ errors.map ValidationError.report)) := by
  induction branches generalizing reports with
  | nil =>
    refine ⟨[], .nil, ?_⟩
    rw [List.map_nil, List.append_nil]
    exact fails_fail.1 h
  | cons b branches ih =>
    rcases fails_bind.1 h with hattempt | ⟨outcome, hb, h⟩
    · exact (not_fails_attempt hattempt).elim
    · rw [passes_attempt] at hb
      cases outcome with
      | ok w => exact (not_fails_pure h).elim
      | error e' =>
        obtain ⟨errors, houtcomes, rfl⟩ := ih h
        refine ⟨e' :: errors, .cons hb houtcomes, ?_⟩
        rw [List.append_assoc]
        rfl

theorem outcomes_of_fails_onlyOf (h : Fails (onlyOf call v branches) e) :
    ∃ outcomes, Outcomes call v branches outcomes ∧
      e = .here (.notOneOf (outcomes.map outcomeReport)) := by
  rcases fails_bind.1 h with hbranches | ⟨outcomes, hbranches, h⟩
  · obtain ⟨b, -, hb⟩ := hbranches.mem_mapM
    exact (not_fails_attempt hb).elim
  · refine ⟨outcomes, hbranches.forall₂_mapM.imp fun b o hb => passes_attempt.1 hb, ?_⟩
    split at h
    · exact (not_fails_pure h).elim
    · exact fails_fail.1 h

theorem detail_noneOf (reports : List String) : (Failure.noneOf reports).detail =
    heading Choice.anyOf.wording reports.length ++ numbered 1 (reports.map indentLines) := rfl

theorem detail_notOneOf (reports : List (Option String)) : (Failure.notOneOf reports).detail =
    heading Choice.oneOf.wording reports.length ++
      numbered 1 (reports.map fun r => (r.map indentLines).getD "ok") := rfl

theorem indentLines_outcomeText (o : Except ValidationError Value) :
    indentLines (outcomeText o) = ((outcomeReport o).map indentLines).getD "ok" := by
  cases o with
  | ok w =>
    have hok : indent "ok".toList = "ok".toList := by
      decide
    rw [← String.toList_inj, toList_indentLines]
    exact hok
  | error e => rfl

/-- A choice that fails reports the outcomes of its branches. -/
theorem reports_of_fails {choice : Choice}
    (h : Fails ((choice.step branches).apply call context v) e) :
    ∃ outcomes, Outcomes call v branches outcomes ∧ Reports choice e outcomes := by
  cases choice with
  | anyOf =>
    obtain ⟨errors, houtcomes, rfl⟩ := outcomes_of_fails_firstOf (fails_bind_pure.1 h)
    have htexts : (errors.map Except.error).map outcomeText =
        errors.map ValidationError.report := by
      rw [List.map_map]
      rfl
    refine ⟨_, houtcomes, .of_detail ?_⟩
    rw [List.nil_append, detail_noneOf, htexts, List.length_map, List.length_map]
  | oneOf =>
    obtain ⟨outcomes, houtcomes, rfl⟩ := outcomes_of_fails_onlyOf (fails_bind_pure.1 h)
    have htexts : (outcomes.map outcomeReport).map (fun r => (r.map indentLines).getD "ok") =
        (outcomes.map outcomeText).map indentLines := by
      rw [List.map_map, List.map_map]
      exact List.map_congr_left fun o _ => (indentLines_outcomeText o).symm
    refine ⟨outcomes, houtcomes, .of_detail ?_⟩
    rw [detail_notOneOf, htexts, List.length_map]

/-- Branches have one list of outcomes. -/
theorem Outcomes.unique {outcomes' : List (Except ValidationError Value)}
    (h : Outcomes call v branches outcomes) (h' : Outcomes call v branches outcomes') :
    outcomes = outcomes' :=
  List.right_unique_forall₂' (fun _ _ _ hb hb' => Option.some.inj (hb.symm.trans hb')) h h'

/-- What a choice reports about a branch that is a choice is the report of this one, after a
mark. -/
theorem Reports.report_eq {choice : Choice} (h : Reports choice e outcomes) :
    e.report = "^ " ++ e.failure.detail := by
  rw [ValidationError.report, ValidationError.render, ValidationError.pathText, h.path]
  rw [← String.toList_inj]
  simp

end

/-- The report of a choice that fails is split, at the newlines without indentation, into a first
line with the number of its branches and the lines about each of them.  These give back the text
that was put there, so that the report tells the outcomes of all branches, in their order.  About a
branch that is a choice itself they have its report, which can be read in turn.  Two failures of a
choice with one report have the same outcomes to tell. -/
theorem reports_readable (choice : Choice) :
    (∀ {γ : Type} (call : Call γ) (context : Option Context) (v : Value) (branches : List γ)
      (e : ValidationError), Run.Fails ((choice.step branches).apply call context v) e →
        ∃ outcomes, Outcomes call v branches outcomes ∧ Reports choice e outcomes ∧
          e.report = "^ " ++ e.failure.detail) ∧
    (∀ number text, readBranch (branchLines number text) = text) ∧
    ∀ {γ δ : Type} (call : Call γ) (call' : Call δ) (context context' : Option Context)
      (v v' : Value) (branches : List γ) (branches' : List δ) (e e' : ValidationError)
      (outcomes outcomes' : List (Except ValidationError Value)),
        Run.Fails ((choice.step branches).apply call context v) e →
        Run.Fails ((choice.step branches').apply call' context' v') e' →
        Outcomes call v branches outcomes → Outcomes call' v' branches' outcomes' →
        e.failure.detail = e'.failure.detail →
          outcomes.map outcomeReport = outcomes'.map outcomeReport := by
  refine ⟨?_, readBranch_branchLines, ?_⟩
  · intro γ call context v branches e h
    obtain ⟨outcomes, houtcomes, hreports⟩ := reports_of_fails h
    exact ⟨outcomes, houtcomes, hreports, hreports.report_eq⟩
  · intro γ δ call call' context context' v v' branches branches' e e' outcomes outcomes' h h'
      houtcomes houtcomes' hdetail
    obtain ⟨found, hfound, hreports⟩ := reports_of_fails h
    obtain ⟨found', hfound', hreports'⟩ := reports_of_fails h'
    rw [houtcomes.unique hfound, houtcomes'.unique hfound', ← hreports.read, ← hreports'.read,
      hdetail]

/-- Rules without inner rules. -/
def flatRule : Call (List (Step Empty)) := runSteps (fun b _ => b.elim) none

/-- Rules with such rules inside. -/
def outerRule : Call (List (Step (List (Step Empty)))) := runSteps flatRule none

/-- Two rules that null does not pass; the name of a parameter looks like a line of a report. -/
def flatBranches : List (List (Step Empty)) :=
  [[.check (.kind .int)], [.check (.nullable (some (.parameter "A\n1: ok")) none)]]

/-- A choice among the two, and two rules that pass everything. -/
def outerBranches : List (List (Step (List (Step Empty)))) := [[.anyOf flatBranches], [], []]

/-- Null passes two of three branches, and the report on the other one is read in turn. -/
theorem reports_readable_twice : ∃ e inner,
    Run.Fails ((Choice.oneOf.step outerBranches).apply outerRule none .null) e ∧
      readReport e.failure.detail = [some ("^ " ++ inner), none, none] ∧
      readReport inner =
        [some "^ type must be int", some "^ requires context parameter A\n1: ok"] := by
  obtain ⟨inner, hinner⟩ : ∃ inner,
      Run.Fails ((Choice.anyOf.step flatBranches).apply flatRule none .null) inner := ⟨_, rfl⟩
  obtain ⟨e, he⟩ : ∃ e,
      Run.Fails ((Choice.oneOf.step outerBranches).apply outerRule none .null) e := ⟨_, rfl⟩
  obtain ⟨told, htold, hreports, htext⟩ := (reports_readable .anyOf).1 _ _ _ _ _ hinner
  obtain ⟨told', htold', hreports', -⟩ := (reports_readable .oneOf).1 _ _ _ _ _ he
  have houtcomes : Outcomes flatRule .null flatBranches
      [.error (.here (.wrongKind .int)), .error (.here (.missingParameter "A\n1: ok"))] :=
    .cons rfl (.cons rfl .nil)
  have houtcomes' : Outcomes outerRule .null outerBranches
      [.error inner, .ok .null, .ok .null] :=
    .cons (Run.fails_bind.2 (Or.inl hinner)) (.cons rfl (.cons rfl .nil))
  refine ⟨e, inner.failure.detail, he, ?_, ?_⟩
  · rw [hreports'.read, ← houtcomes'.unique htold', ← htext]
    rfl
  · rw [hreports.read, ← houtcomes.unique htold]
    decide +kernel

end Rulebook
