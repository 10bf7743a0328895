import Mathlib.Data.Rat.Floor
import Rulebook.Coercion
import Rulebook.Proofs.Number.Denotation
import Rulebook.Proofs.Number.Numerals

/-!
# Coercions and kinds

A built-in coercion has the name of a kind.  What it leads to is of this kind, and what is of
this kind it leaves as it is, so that applying it twice is applying it once.

A double is coerced to the integer that it denotes without its fraction, exactly, and only where
that integer fits a signed word.  Text is read as an integer before it is read as a double; but a
text that stands for an infinity, or for no number, is not the numeral of an integer either, and
no coercion to a number accepts it.
-/

namespace Rulebook

/-- A number without its fraction. -/
def towardZero (q : ℚ) : ℤ := if 0 ≤ q then ⌊q⌋ else ⌈q⌉

/-- A double without its fraction is the number that it denotes without its fraction. -/
theorem Binary64.trunc_eq_towardZero (x : Binary64) : x.trunc = towardZero x.value := by
  have hpos := unitsPerOne_pos
  have hfloor : ⌊(x.units : ℚ) / unitsPerOne⌋ = ((x.units / unitsPerOne : Nat) : ℤ) := by
    rw [Rat.floor_natCast_div_natCast]
    rfl
  have hvalue : x.value = x.scaled / unitsPerOne := by
    rw [scaled_eq_value, mul_div_cancel_right₀ _ hpos.ne']
  rw [trunc, towardZero, hvalue, scaled]
  cases x.negative with
  | false =>
    have hnonneg : (0 : ℚ) ≤ x.units / unitsPerOne := div_nonneg (Nat.cast_nonneg _) hpos.le
    simp only [Bool.false_eq_true, if_false, Int.cast_natCast]
    rw [if_pos hnonneg, hfloor]
  | true =>
    simp only [if_true, Int.cast_neg, Int.cast_natCast, neg_div]
    by_cases hzero : (x.units : ℚ) / unitsPerOne = 0
    · -- The zero with a sign is not below zero.
      rw [hzero, Int.floor_zero] at hfloor
      rw [hzero, neg_zero, if_pos le_rfl, Int.floor_zero, ← hfloor, neg_zero]
    · have hneg : ¬ (0 : ℚ) ≤ -(x.units / unitsPerOne) := by
        have hnonneg : (0 : ℚ) ≤ x.units / unitsPerOne := div_nonneg (Nat.cast_nonneg _) hpos.le
        rw [not_le, neg_lt_zero]
        exact lt_of_le_of_ne hnonneg (Ne.symm hzero)
      rw [if_neg hneg, Int.ceil_neg, hfloor]

/-! ## Integers that fit a signed word -/

theorem signedValue?_eq_some_iff {i : Int} {w : Value} : signedValue? i = some w ↔
    ∃ n : WordInt, n.val = i ∧ i < 2 ^ 63 ∧ w = .number (.integer n) := by
  rw [signedValue?]
  constructor
  · intro h
    split at h
    · rename_i hsigned
      obtain ⟨a, ha, rfl⟩ := Option.map_eq_some_iff.1 h
      obtain ⟨n, hn, rfl⟩ := Option.map_eq_some_iff.1 ha
      rw [WordInt.ofInt?] at hn
      split at hn
      · rw [← Option.some.inj hn]
        exact ⟨_, rfl, hsigned.2, rfl⟩
      · cases hn
    · cases h
  · rintro ⟨n, rfl, hupper, rfl⟩
    have hword : WordInt.ofInt? n.val = some n := by
      rw [WordInt.ofInt?, dif_pos ⟨n.lower, n.upper⟩]
    rw [if_pos ⟨n.lower, hupper⟩, Value.ofInt?, Number.ofInt?, hword]
    rfl

theorem isSome_signedValue? {i : Int} :
    (∃ w, signedValue? i = some w) ↔ -2 ^ 63 ≤ i ∧ i < 2 ^ 63 := by
  constructor
  · rintro ⟨w, h⟩
    obtain ⟨n, rfl, hupper, -⟩ := signedValue?_eq_some_iff.1 h
    exact ⟨n.lower, hupper⟩
  · rintro ⟨hlower, hupper⟩
    refine ⟨_, signedValue?_eq_some_iff.2 ⟨⟨i, hlower, ?_⟩, rfl, hupper, rfl⟩⟩
    omega

/-- A text that is read as an integer stands for a finite double. -/
theorem readFloat?_of_readSigned? {cs : List Char} {w : Value} (h : readSigned? cs = some w) :
    ∃ x, readFloat? cs = some (.finite x) := by
  obtain ⟨i, hi, hsigned⟩ := Option.bind_eq_some_iff.1 h
  obtain ⟨hlower, hupper⟩ := isSome_signedValue?.1 ⟨w, hsigned⟩
  obtain ⟨x, hx, -⟩ := readFloat?_word hi (by omega)
  exact ⟨x, hx⟩

namespace Builtin

/-! ## The kind of a coercion -/

/-- The kind that a coercion leads to. -/
def kind : Builtin → Kind
  | int => .int
  | float => .float
  | number => .number
  | str => .str
  | bool => .bool

theorem tag_kind (b : Builtin) : b.kind.tag = b.name := by
  cases b <;> rfl

variable {v w : Value}

theorem accepts_of_signedValue? {i : Int} (h : signedValue? i = some w) :
    Kind.int.accepts w = true := by
  obtain ⟨n, -, -, rfl⟩ := signedValue?_eq_some_iff.1 h
  rfl

theorem accepts_of_readSigned? {cs : List Char} (h : readSigned? cs = some w) :
    Kind.int.accepts w = true := by
  obtain ⟨i, -, hsigned⟩ := Option.bind_eq_some_iff.1 h
  exact accepts_of_signedValue? hsigned

theorem accepts_of_toInt? (h : toInt? v = some w) : Kind.int.accepts w = true := by
  cases v with
  | bool b =>
    cases h
    rfl
  | number a =>
    cases a with
    | integer i =>
      cases h
      rfl
    | float x => exact accepts_of_signedValue? h
  | text s =>
    rw [toInt?, Option.orElse_eq_or] at h
    rcases Option.or_eq_some_iff.1 h with hread | ⟨-, hread⟩
    · exact accepts_of_readSigned? hread
    · obtain ⟨x, -, hsigned⟩ := Option.bind_eq_some_iff.1 hread
      exact accepts_of_signedValue? hsigned
  | _ => cases h

theorem accepts_of_toFloat? (h : toFloat? v = some w) : Kind.float.accepts w = true := by
  cases v with
  | bool _ | number _ | text _ =>
    obtain ⟨x, -, rfl⟩ := Option.map_eq_some_iff.1 h
    rfl
  | _ => cases h

theorem accepts_of_toNumber? (h : toNumber? v = some w) : Kind.number.accepts w = true := by
  cases v with
  | bool b =>
    cases h
    rfl
  | number a =>
    cases h
    rfl
  | text s =>
    rw [toNumber?, Option.orElse_eq_or] at h
    rcases Option.or_eq_some_iff.1 h with hread | ⟨-, hread⟩
    · obtain ⟨i, -, hsigned⟩ := Option.bind_eq_some_iff.1 hread
      obtain ⟨n, -, -, rfl⟩ := signedValue?_eq_some_iff.1 hsigned
      rfl
    · obtain ⟨x, -, rfl⟩ := Option.map_eq_some_iff.1 hread
      rfl
  | _ => cases h

theorem accepts_of_toBool? (h : toBool? v = some w) : Kind.bool.accepts w = true := by
  cases v with
  | bool b =>
    cases h
    rfl
  | number a =>
    rw [toBool?] at h
    split at h
    · cases h
      rfl
    · split at h
      · cases h
        rfl
      · cases h
  | text s =>
    obtain ⟨b, -, rfl⟩ := Option.map_eq_some_iff.1 h
    rfl
  | _ => cases h

/-- A coercion leads to values of its kind. -/
theorem accepts_of_apply {b : Builtin} (h : b.apply v = some w) : b.kind.accepts w = true := by
  cases b with
  | int => exact accepts_of_toInt? h
  | float => exact accepts_of_toFloat? h
  | number => exact accepts_of_toNumber? h
  | str =>
    cases v <;>
    · cases h
      rfl
  | bool => exact accepts_of_toBool? h

/-- A coercion leaves values of its kind as they are. -/
theorem apply_of_accepts {b : Builtin} (h : b.kind.accepts w = true) : b.apply w = some w := by
  cases b with
  | int =>
    cases w with
    | number a =>
      cases a with
      | integer i => rfl
      | float x => cases h
    | _ => cases h
  | float =>
    cases w with
    | number a =>
      cases a with
      | integer i => cases h
      | float x => rfl
    | _ => cases h
  | number =>
    cases w with
    | number a => rfl
    | _ => cases h
  | str =>
    cases w with
    | text s => rfl
    | _ => cases h
  | bool =>
    cases w with
    | bool c => rfl
    | _ => cases h

/-! ## Numbers that there are none of -/

/-- What stands for an infinity or for no number is not coerced to a number. -/
theorem apply_text_of_not_finite {s : String} {reading : FloatReading}
    (hread : readFloat? (trim s.toList) = some reading) (hinfinite : reading.finite? = none)
    {b : Builtin} (hb : b ∈ [int, float, number]) : b.apply (.text s) = none := by
  have hfinite : readFinite? (trim s.toList) = none := by
    rw [readFinite?, hread, Option.bind_some, hinfinite]
  have hsigned : readSigned? (trim s.toList) = none := by
    rw [Option.eq_none_iff_forall_ne_some]
    intro w hw
    obtain ⟨x, hx⟩ := readFloat?_of_readSigned? hw
    rw [Option.some.inj (hread.symm.trans hx)] at hinfinite
    cases hinfinite
  simp only [List.mem_cons, List.not_mem_nil, or_false] at hb
  rcases hb with rfl | rfl | rfl
  · rw [apply, toInt?, hsigned, hfinite]
    rfl
  · rw [apply, toFloat?, hfinite]
    rfl
  · rw [apply, toNumber?, hsigned, hfinite]
    rfl

end Builtin

namespace Coercer

variable {b : Builtin} {v w : Value} {context : Option Context}

theorem apply_builtin_eq_ok_iff : (builtin b).apply v context = .ok w ↔ b.apply v = some w := by
  rw [apply]
  cases b.apply v <;> simp

theorem apply_builtin_of_none (h : b.apply v = none) :
    (builtin b).apply v context = .error (.here (.notCoercible b.name none)) := by
  rw [apply, h]

/-- What a built-in coercion leads to is of the kind that it is named after, and stays what it is
when it is coerced again.  A double is coerced to an integer exactly if it is within the signed
words without its fraction, and then to that integer.  Text that stands for an infinity or for no
number is refused where a number is wanted. -/
theorem builtin_lands_and_stays (context context' : Option Context) :
    (∀ (b : Builtin) (v w : Value), (builtin b).apply v context = .ok w →
      b.kind.tag = b.name ∧ b.kind.accepts w = true ∧ (builtin b).apply w context' = .ok w) ∧
    (∀ x : Binary64, (∃ w, (builtin .int).apply (.number (.float x)) context = .ok w) ↔
      -2 ^ 63 ≤ towardZero x.value ∧ towardZero x.value < 2 ^ 63) ∧
    (∀ (x : Binary64) (w : Value), (builtin .int).apply (.number (.float x)) context = .ok w →
      ∃ i : WordInt, i.val = towardZero x.value ∧ w = .number (.integer i)) ∧
    ∀ (s : String) (reading : FloatReading), readFloat? (trim s.toList) = some reading →
      reading.finite? = none → ∀ b ∈ [Builtin.int, .float, .number],
        (builtin b).apply (.text s) context = .error (.here (.notCoercible b.name none)) := by
  have hint {x : Binary64} {w : Value} :
      (builtin .int).apply (.number (.float x)) context = .ok w ↔
        signedValue? (towardZero x.value) = some w := by
    rw [apply_builtin_eq_ok_iff, ← Binary64.trunc_eq_towardZero]
    rfl
  refine ⟨?_, ?_, ?_, ?_⟩
  · intro b v w h
    have hkind := Builtin.accepts_of_apply (apply_builtin_eq_ok_iff.1 h)
    exact ⟨b.tag_kind, hkind, apply_builtin_eq_ok_iff.2 (Builtin.apply_of_accepts hkind)⟩
  · intro x
    rw [← isSome_signedValue?]
    exact exists_congr fun w => hint
  · intro x w h
    obtain ⟨i, hi, -, rfl⟩ := signedValue?_eq_some_iff.1 (hint.1 h)
    exact ⟨i, hi, rfl⟩
  · intro s reading hread hinfinite b hb
    exact apply_builtin_of_none (Builtin.apply_text_of_not_finite hread hinfinite hb)

/-- The integer that a text with a fraction and an exponent is coerced to. -/
def wholeReading : Value := .number (.integer ⟨-25, by decide, by decide⟩)

/-- The double between minus three and minus two. -/
def minusTwoAndAHalf : Binary64 := ⟨true, 1024 * 2 ^ 52 + 2 ^ 50, by decide⟩

/-- A numeral with a fraction and an exponent is coerced to an integer, and one beyond the doubles
is not coerced to a number.  A double loses its fraction, whatever its sign. -/
theorem builtin_lands_and_stays_numerals :
    (builtin .int).apply (.text " -2.55e1\t") none = .ok wholeReading ∧
      Kind.int.accepts wholeReading = true ∧
      (builtin .int).apply wholeReading none = .ok wholeReading ∧
      (builtin .number).apply (.text "-1e400") none =
        .error (.here (.notCoercible "number" none)) ∧
      towardZero minusTwoAndAHalf.value = -2 := by
  have hint : Builtin.int.apply (.text " -2.55e1\t") = some wholeReading := by decide +kernel
  have hread : readFloat? (trim "-1e400".toList) = some (.infinite true) := by decide +kernel
  have hdouble : Builtin.int.apply (.number (.float minusTwoAndAHalf)) =
      some (.number (.integer ⟨-2, by decide, by decide⟩)) := by decide +kernel
  have hok : (builtin .int).apply (.text " -2.55e1\t") none = .ok wholeReading :=
    apply_builtin_eq_ok_iff.2 hint
  obtain ⟨hlands, -, hcut, hrefuses⟩ := builtin_lands_and_stays none none
  obtain ⟨-, hkind, hagain⟩ := hlands _ _ _ hok
  obtain ⟨i, hi, heq⟩ := hcut _ _ (apply_builtin_eq_ok_iff.2 hdouble)
  refine ⟨hok, hkind, hagain, hrefuses _ _ hread rfl .number (by decide), ?_⟩
  cases heq
  exact hi.symm

end Coercer
end Rulebook
