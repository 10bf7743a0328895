import Rulebook.Proofs.Coercion.Kinds
import Rulebook.Proofs.Compilation.Resolution
import Rulebook.Registry

/-!
# Integers through text

An integer is coerced to its decimal text, and the text is coerced back to a number.  Where the
integer fits a signed word, nothing is lost: the text is read as the integer, whatever white space
stands around it.  Text is not read as an unsigned word.  From `2 ^ 63` on it is read as the double
that the integer rounds to: this is where a number is wanted what the text is coerced to, and where
an integer is wanted it is too large.
-/

namespace Rulebook

variable {i : WordInt} {s : String}

/-! ## Decimal text with space around it -/

/-- The text is the decimal text of an integer with white space around it. -/
def Writes (s : String) (i : Int) : Prop :=
  ∃ before after, (∀ c ∈ before, isWhiteSpace c = true) ∧ (∀ c ∈ after, isWhiteSpace c = true) ∧
    s.toList = before ++ (toString i).toList ++ after

theorem writes_toString (i : Int) : Writes (toString i) i := by
  refine ⟨[], [], by simp, by simp, ?_⟩
  rw [List.nil_append, List.append_nil]

theorem Writes.trim_eq {i : Int} (h : Writes s i) : trim s.toList = (toString i).toList := by
  obtain ⟨before, after, hbefore, hafter, htext⟩ := h
  rw [htext]
  exact trim_surrounded hbefore (fun c hc => isWhiteSpace_of_mem_toString hc)
    (toList_toString_ne_nil i) hafter

theorem readSigned?_toString (i : Int) : readSigned? (toString i).toList = signedValue? i := by
  rw [readSigned?, readInteger?_toString, Option.bind_some]

theorem signedValue?_of_signed (hi : i.val < 2 ^ 63) :
    signedValue? i.val = some (.number (.integer i)) :=
  signedValue?_eq_some_iff.2 ⟨i, rfl, hi, rfl⟩

theorem signedValue?_eq_none {j : Int} (hj : 2 ^ 63 ≤ j) : signedValue? j = none := by
  rw [Option.eq_none_iff_forall_ne_some]
  intro w hw
  have hupper := (isSome_signedValue?.1 ⟨w, hw⟩).2
  omega

/-- The double that an integer beyond the signed words rounds to is beyond them as well: their
limit is a double itself. -/
theorem Binary64.le_trunc_of_ofInt? {j : Int} {x : Binary64} (hx : Binary64.ofInt? j = some x)
    (hj : 2 ^ 63 ≤ j) : 2 ^ 63 ≤ x.trunc := by
  have hlimit : (⟨false, 1086 * 2 ^ 52, by decide⟩ : Binary64).scaled = 2 ^ 63 * unitsPerOne := by
    decide +kernel
  have hunit : (0 : Int) < unitsPerOne := by exact_mod_cast unitsPerOne_pos
  have hscaled : 2 ^ 63 * (unitsPerOne : Int) ≤ x.scaled := by
    rw [← hlimit]
    apply scaled_le_of_le hx
    rw [hlimit]
    exact Int.mul_le_mul_of_nonneg_right hj hunit.le
  have hpositive : x.negative = false := by
    have hnegative := (ofInt?_eq_some_iff.1 hx).1
    rwa [decide_eq_false (by omega)] at hnegative
  have hunits : 2 ^ 63 * unitsPerOne ≤ x.units := by
    rw [scaled_eq_of_not_negative hpositive] at hscaled
    exact_mod_cast hscaled
  have hquotient : 2 ^ 63 ≤ x.units / unitsPerOne :=
    (Nat.le_div_iff_mul_le (by exact_mod_cast hunit)).2 hunits
  rw [trunc, hpositive, if_neg Bool.false_ne_true]
  exact_mod_cast hquotient

theorem readFinite?_toString (hi : 2 ^ 63 ≤ i.val) :
    ∃ x, Binary64.ofInt? i.val = some x ∧ readFinite? (toString i.val).toList = some x := by
  have hupper := i.upper
  obtain ⟨x, hread, hround⟩ := readFloat?_word (readInteger?_toString i.val) (by omega)
  refine ⟨x, hround (by omega), ?_⟩
  rw [readFinite?, hread]
  rfl

namespace Builtin

/-- The decimal text of an integer that fits a signed word is coerced to the integer. -/
theorem apply_written (h : Writes s i.val) (hi : i.val < 2 ^ 63) {b : Builtin}
    (hb : b = int ∨ b = number) : b.apply (.text s) = some (.number (.integer i)) := by
  rcases hb with rfl | rfl
  · rw [apply, toInt?, h.trim_eq, readSigned?_toString, signedValue?_of_signed hi]
    rfl
  · rw [apply, toNumber?, h.trim_eq, readSigned?_toString, signedValue?_of_signed hi]
    rfl

/-- The decimal text of a greater integer is not coerced to an integer, and to a number it is
coerced as a double. -/
theorem apply_written_beyond (h : Writes s i.val) (hi : 2 ^ 63 ≤ i.val) :
    int.apply (.text s) = none ∧ ∃ x, Binary64.ofInt? i.val = some x ∧
      number.apply (.text s) = some (.number (.float x)) := by
  obtain ⟨x, hround, hread⟩ := readFinite?_toString hi
  have htoo : signedValue? x.trunc = none :=
    signedValue?_eq_none (Binary64.le_trunc_of_ofInt? hround hi)
  refine ⟨?_, x, hround, ?_⟩
  · rw [apply, toInt?, h.trim_eq, readSigned?_toString, signedValue?_eq_none hi, hread]
    exact htoo
  · rw [apply, toNumber?, h.trim_eq, readSigned?_toString, signedValue?_eq_none hi, hread]
    rfl

end Builtin

/-! ## Rules that only coerce -/

/-- The features of a rule that coerces a value, and what this leads to once more. -/
def coercing (first : Builtin) (second : Option Builtin) : Entries Value :=
  ("coerce", .text first.name) :: (second.map fun b => ("post_coerce", .text b.name)).toList

/-- The rule with these features and no others. -/
def coercingRule (first : Builtin) (second : Option Builtin) : Rule where
  kind := none
  coerce := some first.name
  postCoerce := second.map Builtin.name
  nullable := false
  ifNull := none
  default := none
  required := none
  rename := none
  synonyms := []
  regex := none
  allowed := none
  remap := none
  min := none
  max := none
  minLen := none
  maxLen := none
  items := none
  patternItems := none
  keys := none
  values := none
  anyOf := none
  oneOf := none
  overrides := ⟨none, none, none⟩
  positiveExamples := []
  negativeExamples := []

theorem read_coercing (first : Builtin) (second : Option Builtin) (label : String) :
    Rule.read (coercing first second) label = .ok (coercingRule first second) := by
  cases second <;> rfl

/-- The coercions, one after the other. -/
def coercionSteps (first : Builtin) (second : Option Builtin) : List (Step Callee) :=
  .check (.coerce (.builtin first)) ::
    (second.map fun b => .check (.postCoerce (.builtin b))).toList

namespace Source

open Compile

/-- A rule with these features can be compiled, and a value that is checked through any link to
its program has this outcome, to whatever depth calls are followed, if they are at all. -/
def Answers (s : Source) (features : Entries Value) (context : Option Context) (v : Value)
    (o : Except ValidationError Value) : Prop :=
  ∀ (task : Task) (st : Staging), task.features = features →
    ∃ p st', (s.compile task).Yields st p st' ∧
      ∀ (depth : Nat) (bindings : Bindings) (l : Link), bindings.lookup l.number = some p →
        evaluate (depth + 1) bindings context l v = some o

variable {s : Source} {context : Option Context} {v : Value} {first : Builtin}
  {second : Option Builtin}

/-- The steps of a rule that only coerces are its coercions. -/
theorem steps_coercing (hbuiltin : ∀ b : Builtin, s.coercions.find? b.name = none)
    (options : Options) (label : String) : s.steps (coercingRule first second) options label =
      pure (coercionSteps first second) := by
  have hcoercer (b : Builtin) : s.coercer b.name label = pure (.builtin b) := by
    have hresolve : s.coercions.resolve? b.name = some (.builtin b) := by
      rw [CoercionTable.resolve?, hbuiltin]
      cases b <;> rfl
    rw [coercer, hresolve]
  cases second <;>
    simp [steps, coercingRule, nullableStep, memberStep, Rule.hasStructure, Rule.bounds, stepOf,
      hcoercer, coercionSteps]

/-- A rule that only coerces is compiled to its coercions. -/
theorem compile_coercing (hbuiltin : ∀ b : Builtin, s.coercions.find? b.name = none) {task : Task}
    (htask : task.features = coercing first second) (st : Staging) :
    ∃ p st', (s.compile task).Yields st p st' ∧ p.steps = coercionSteps first second := by
  have hread : Rule.read task.features task.label = .ok (coercingRule first second) := by
    rw [htask]
    exact read_coercing first second task.label
  refine ⟨_, _, compile_yields_iff.2 ⟨_, coercionSteps first second, st, hread, ?_, rfl, rfl⟩, rfl⟩
  rw [steps_coercing hbuiltin]
  exact yields_pure.2 ⟨rfl, rfl⟩

/-- A step that coerces hands on what it leads to. -/
theorem runSteps_coercion {call : Call Callee} {c : Coercer} {check : Check}
    (hcheck : check = .coerce c ∨ check = .postCoerce c) (rest : List (Step Callee)) :
    runSteps call context (.check check :: rest) v =
      Run.ofExcept (c.apply v context) >>= runSteps call context rest := by
  have happly : check.apply context v = Run.ofExcept (c.apply v context) >>= fun w =>
      pure (.next w) := by
    rcases hcheck with rfl | rfl <;> rfl
  rw [runSteps, Step.apply, happly, bind_assoc]
  rfl

/-- What a program that only coerces leads to, through any link to it. -/
theorem evaluate_coercing (depth : Nat) {bindings : Bindings} {l : Link} {p : Program}
    (hl : bindings.lookup l.number = some p) (hsteps : p.steps = coercionSteps first second) :
    evaluate (depth + 1) bindings context l v = some (do
      let w ← (Coercer.builtin first).apply v context
      match second with
      | none => pure w
      | some b => (Coercer.builtin b).apply w context) := by
  have hrun : follow bindings context (depth + 1) [] l v =
      runSteps (Callee.call (follow bindings context depth [Frame.enter p.number v])) context
        (coercionSteps first second) v := by
    rw [follow, hl, ← hsteps]
    rfl
  rw [evaluate, hrun, coercionSteps, runSteps_coercion (Or.inl rfl)]
  cases (Coercer.builtin first).apply v context with
  | error e => rfl
  | ok w =>
    cases second with
    | none => rfl
    | some b =>
      change (runSteps _ context [.check (.postCoerce (.builtin b))] w).run = _
      rw [runSteps_coercion (Or.inr rfl)]
      change _ = some ((Coercer.builtin b).apply w context)
      cases (Coercer.builtin b).apply w context <;> rfl

/-- A rule that only coerces does what its coercions do, one after the other. -/
theorem answers_coercing (hbuiltin : ∀ b : Builtin, s.coercions.find? b.name = none) :
    s.Answers (coercing first second) context v (do
      let w ← (Coercer.builtin first).apply v context
      match second with
      | none => pure w
      | some b => (Coercer.builtin b).apply w context) := by
  intro task st htask
  obtain ⟨p, st', hyields, hsteps⟩ := compile_coercing hbuiltin htask st
  exact ⟨p, st', hyields, fun depth _ _ hl => evaluate_coercing depth hl hsteps⟩

/-- An integer that is coerced to text and back is coerced as its decimal text is. -/
theorem answers_through_text (hbuiltin : ∀ b : Builtin, s.coercions.find? b.name = none)
    (b : Builtin) : s.Answers (coercing .str (some b)) context (.number (.integer i))
      ((Coercer.builtin b).apply (.text (toString i.val)) context) :=
  answers_coercing hbuiltin

theorem answers_of_text (hbuiltin : ∀ b : Builtin, s.coercions.find? b.name = none)
    (b : Builtin) : s.Answers (coercing b none) context v ((Coercer.builtin b).apply v context) := by
  have hanswers : s.Answers (coercing b none) context v
      ((Coercer.builtin b).apply v context >>= pure) :=
    answers_coercing hbuiltin
  rwa [bind_pure] at hanswers

/-- An integer that fits a signed word comes back from its decimal text as what it is, where the
built-in coercions are not replaced.  A greater one is refused as an integer, and comes back as the
double that it rounds to where any number will do. -/
theorem integers_through_text (hbuiltin : ∀ b : Builtin, s.coercions.find? b.name = none)
    (context : Option Context) (i : WordInt) {written : String} (hwritten : Writes written i.val) :
    (i.val < 2 ^ 63 → ∀ b, b = Builtin.int ∨ b = Builtin.number →
      s.Answers (coercing .str (some b)) context (.number (.integer i))
          (.ok (.number (.integer i))) ∧
        s.Answers (coercing b none) context (.text written) (.ok (.number (.integer i)))) ∧
    (2 ^ 63 ≤ i.val →
      s.Answers (coercing .str (some .int)) context (.number (.integer i))
          (.error (.here (.notCoercible "int" none))) ∧
        s.Answers (coercing .int none) context (.text written)
          (.error (.here (.notCoercible "int" none))) ∧
        ∃ x, Binary64.ofInt? i.val = some x ∧
          s.Answers (coercing .str (some .number)) context (.number (.integer i))
            (.ok (.number (.float x))) ∧
          s.Answers (coercing .number none) context (.text written)
            (.ok (.number (.float x)))) := by
  have hthrough (b : Builtin) : s.Answers (coercing .str (some b)) context (.number (.integer i))
      ((Coercer.builtin b).apply (.text (toString i.val)) context) :=
    answers_through_text hbuiltin b
  have htext (b : Builtin) : s.Answers (coercing b none) context (.text written)
      ((Coercer.builtin b).apply (.text written) context) :=
    answers_of_text hbuiltin b
  constructor
  · intro hi b hb
    have hback := Builtin.apply_written (writes_toString i.val) hi hb
    have hread := Builtin.apply_written hwritten hi hb
    constructor
    · rw [← Coercer.apply_builtin_eq_ok_iff.2 hback]
      exact hthrough b
    · rw [← Coercer.apply_builtin_eq_ok_iff.2 hread]
      exact htext b
  · intro hi
    obtain ⟨hint, x, hx, hnumber⟩ := Builtin.apply_written_beyond (writes_toString i.val) hi
    obtain ⟨hint', x', hx', hnumber'⟩ := Builtin.apply_written_beyond hwritten hi
    obtain rfl : x = x' := Option.some.inj (hx.symm.trans hx')
    refine ⟨?_, ?_, x, hx, ?_, ?_⟩
    · have hthroughInt := hthrough .int
      rwa [Coercer.apply_builtin_of_none hint] at hthroughInt
    · have htextInt := htext .int
      rwa [Coercer.apply_builtin_of_none hint'] at htextInt
    · rw [← Coercer.apply_builtin_eq_ok_iff.2 hnumber]
      exact hthrough .number
    · rw [← Coercer.apply_builtin_eq_ok_iff.2 hnumber']
      exact htext .number

/-- What the first rules of a registry without coercions of its own are compiled from. -/
def coercionSource : Source := (Registry.empty {} ⟨[]⟩ id).source [] {}

/-- The greatest integer that fits a signed word. -/
def greatestSigned : WordInt := ⟨2 ^ 63 - 1, by decide, by decide⟩

/-- The greatest integer that fits a word. -/
def greatestWord : WordInt := ⟨2 ^ 64 - 1, by decide, by decide⟩

/-- The greatest signed integer comes back from its text; the greatest integer comes back as the
double `2 ^ 64`, which is no integer of a word. -/
theorem integers_through_text_greatest :
    Writes "\t9223372036854775807 \n" greatestSigned.val ∧
      coercionSource.Answers (coercing .int none) none (.text "\t9223372036854775807 \n")
        (.ok (.number (.integer greatestSigned))) ∧
      coercionSource.Answers (coercing .str (some .int)) none (.number (.integer greatestWord))
        (.error (.here (.notCoercible "int" none))) ∧
      ∃ x, Binary64.ofInt? greatestWord.val = some x ∧
        coercionSource.Answers (coercing .str (some .number)) none
          (.number (.integer greatestWord)) (.ok (.number (.float x))) := by
  have hbuiltin (b : Builtin) : coercionSource.coercions.find? b.name = none := rfl
  have hbefore : ∀ c ∈ ['\t'], isWhiteSpace c = true := List.forall_mem_singleton.2 rfl
  have hafter : ∀ c ∈ [' ', '\n'], isWhiteSpace c = true :=
    List.forall_mem_cons.2 ⟨rfl, List.forall_mem_singleton.2 rfl⟩
  have hwritten : Writes "\t9223372036854775807 \n" greatestSigned.val :=
    ⟨_, _, hbefore, hafter, by decide +kernel⟩
  have hsigned := (integers_through_text hbuiltin none greatestSigned hwritten).1 (by decide) .int
    (Or.inl rfl)
  obtain ⟨hrefused, -, x, hx, hdouble, -⟩ :=
    (integers_through_text hbuiltin none greatestWord (writes_toString _)).2 (by decide)
  exact ⟨hwritten, hsigned.2, hrefused, x, hx, hdouble⟩

end Source
end Rulebook
