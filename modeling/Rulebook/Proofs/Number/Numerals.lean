import Rulebook.Proofs.Json.Double
import Rulebook.Proofs.Number.Rounding
import Rulebook.Text.Blank

/-!
# Numerals of integers

The decimal text of an integer is read back as the integer, whatever white space stands around
it.  A numeral of an integer is a floating-point numeral as well, without a point and without an
exponent; if the integer fits a word, it stands for the double that the integer rounds to.
-/

namespace Rulebook

/-! ## White space -/

/-- White space is cut off up to a text that has none. -/
theorem trimStart_append {before cs : List Char} (hbefore : ∀ c ∈ before, isWhiteSpace c = true)
    (hcs : ∀ c ∈ cs, isWhiteSpace c = false) (hne : cs ≠ []) (rest : List Char) :
    trimStart (before ++ cs ++ rest) = cs ++ rest := by
  cases cs with
  | nil => exact absurd rfl hne
  | cons c cs =>
    have hc : isWhiteSpace c = false := hcs c (List.mem_cons_self ..)
    rw [trimStart, List.append_assoc, List.dropWhile_append_of_pos hbefore, List.cons_append,
      List.dropWhile_cons_of_neg (by rw [hc]; exact Bool.false_ne_true)]

/-- A text without white space is what is left of it between white space. -/
theorem trim_surrounded {before cs after : List Char}
    (hbefore : ∀ c ∈ before, isWhiteSpace c = true) (hcs : ∀ c ∈ cs, isWhiteSpace c = false)
    (hne : cs ≠ []) (hafter : ∀ c ∈ after, isWhiteSpace c = true) :
    trim (before ++ cs ++ after) = cs := by
  have hback : trimStart (cs ++ after).reverse = cs.reverse := by
    have hcut : trimStart (after.reverse ++ cs.reverse ++ []) = cs.reverse ++ [] :=
      trimStart_append (fun c hc => hafter c (List.mem_reverse.1 hc))
        (fun c hc => hcs c (List.mem_reverse.1 hc)) (fun h => hne (List.reverse_eq_nil_iff.1 h)) []
    rw [List.append_nil, List.append_nil] at hcut
    rw [List.reverse_append]
    exact hcut
  rw [trim, trimStart_append hbefore hcs hne, hback, List.reverse_reverse]

theorem isWhiteSpace_of_isDigit {c : Char} (h : c.isDigit = true) : isWhiteSpace c = false := by
  obtain ⟨hlower, hupper⟩ := (isDigit_iff c).1 h
  have hlower' : 48 ≤ c.toNat := hlower
  have hupper' : c.toNat ≤ 57 := hupper
  rw [Bool.eq_false_iff]
  simp only [isWhiteSpace, ne_eq, Bool.or_eq_true, Bool.and_eq_true, decide_eq_true_eq, beq_iff_eq]
  omega

/-! ## Decimal text -/

theorem splitSign_toString (i : Int) :
    splitSign (toString i).toList = (decide (i < 0), Nat.toDigits 10 i.natAbs) := by
  rw [Json.toList_toString]
  by_cases hneg : i < 0
  · rw [if_pos hneg, decide_eq_true hneg]
    rfl
  · rw [if_neg hneg, decide_eq_false hneg]
    exact Json.splitSign_digits fun c hc => isDigit_of_mem_digits hc

/-- An integer is read back from its decimal text. -/
theorem readInteger?_toString (i : Int) : readInteger? (toString i).toList = some i := by
  have hempty : (Nat.toDigits 10 i.natAbs).isEmpty = false :=
    List.isEmpty_eq_false_iff.2 Nat.toDigits_ne_nil
  have hdigits : (Nat.toDigits 10 i.natAbs).all Char.isDigit = true :=
    List.all_eq_true.2 fun c hc => isDigit_of_mem_digits hc
  simp only [readInteger?, splitSign_toString, hempty, hdigits, digitsValue_toDigits, Bool.not_true,
    Bool.or_false, Bool.false_eq_true, if_false, decide_eq_true_eq]
  split
  · congr 1
    omega
  · congr 1
    omega

theorem isWhiteSpace_of_mem_toString {i : Int} {c : Char} (hc : c ∈ (toString i).toList) :
    isWhiteSpace c = false := by
  have hdigit (h : c ∈ Nat.toDigits 10 i.natAbs) : isWhiteSpace c = false :=
    isWhiteSpace_of_isDigit (isDigit_of_mem_digits h)
  rw [Json.toList_toString] at hc
  split at hc
  · rcases List.mem_cons.1 hc with rfl | hc
    · decide
    · exact hdigit hc
  · exact hdigit hc

theorem toList_toString_ne_nil (i : Int) : (toString i).toList ≠ [] := by
  rw [Json.toList_toString]
  split
  · exact List.cons_ne_nil _ _
  · exact Nat.toDigits_ne_nil

/-! ## As floating-point numerals -/

/-- A numeral of an integer is read as a floating-point numeral of the same sign and digits. -/
theorem readFloat?_of_readInteger? {cs : List Char} {i : Int} (h : readInteger? cs = some i) :
    ∃ (negative : Bool) (n : Nat), i = (if negative then -(n : Int) else n) ∧
      readFloat? cs = some (.ofDecimal negative n 0) := by
  rw [readInteger?] at h
  rw [readFloat?]
  generalize splitSign cs = parts at h ⊢
  obtain ⟨negative, rest⟩ := parts
  dsimp only at h ⊢
  split at h
  · cases h
  · rename_i hdigits
    simp only [Bool.or_eq_true, Bool.not_eq_true', not_or, Bool.not_eq_true, Bool.not_eq_false]
      at hdigits
    obtain ⟨hempty, hall⟩ := hdigits
    refine ⟨negative, digitsValue 0 rest, (Option.some.inj h).symm, ?_⟩
    have hsplit : splitDigits rest = (rest, []) := by
      have hnothing : splitDigits (rest ++ []) = (rest, []) :=
        splitDigits_append (List.all_eq_true.1 hall) (by simp)
      rwa [List.append_nil] at hnothing
    simp only [readUnsignedFloat?, hsplit, hempty, Bool.false_and, Bool.false_eq_true, if_false,
      readExponent?, Option.map_some, List.append_nil, List.length_nil, Nat.cast_zero, sub_zero]

/-- A natural number that fits a word has few digits. -/
theorem decimalLength_le {n : Nat} (hn : n ≤ 2 ^ 64) : decimalLength n ≤ 20 := by
  rw [decimalLength, Nat.length_toDigits_le_iff (by decide) (by decide)]
  omega

/-- Digits without an exponent stand for the double that their value rounds to. -/
theorem FloatReading.ofDecimal_word (negative : Bool) {n : Nat} {r : Binary64} (hn : n ≤ 2 ^ 64)
    (hr : Binary64.ofInt? n = some r) :
    ofDecimal negative n 0 = .finite ⟨negative, r.magnitude, r.finite⟩ := by
  by_cases hzero : n = 0
  · subst hzero
    have hmagnitude : r.magnitude = 0 := by
      have hround : Binary64.ofInt? ((0 : Nat) : Int) = some (Binary64.zero false) := by
        decide +kernel
      rw [← Option.some.inj (hround.symm.trans hr)]
      rfl
    rw [ofDecimal, if_pos (Or.inl rfl), Binary64.zero]
    simp only [hmagnitude]
  · have hlength := decimalLength_le hn
    have hrounded : Binary64.ofRatio? negative (n * 10 ^ 0) 1 =
        some ⟨negative, r.magnitude, r.finite⟩ := by
      rw [Binary64.ofInt?, Binary64.ofRatio?, Int.natAbs_natCast] at hr
      obtain ⟨m, hm, rfl⟩ := Option.map_eq_some_iff.1 hr
      rw [Nat.pow_zero, Nat.mul_one, Binary64.ofRatio?, hm]
      rfl
    rw [ofDecimal]
    dsimp only
    rw [if_neg (by omega), if_neg (by omega), if_pos (Int.le_refl 0), Int.toNat_zero, hrounded]

/-- The numeral of an integer that fits a word stands for a finite double, as a floating-point
numeral; without a sign, for the one that the integer rounds to. -/
theorem readFloat?_word {cs : List Char} {i : Int} (h : readInteger? cs = some i)
    (hi : i.natAbs ≤ 2 ^ 64) : ∃ x, readFloat? cs = some (.finite x) ∧
      (0 < i → Binary64.ofInt? i = some x) := by
  obtain ⟨negative, n, hvalue, hread⟩ := readFloat?_of_readInteger? h
  have hn : n ≤ 2 ^ 64 := by
    split at hvalue <;> omega
  obtain ⟨r, hr⟩ := Binary64.exists_ofInt? (i := (n : Int)) (by omega)
  refine ⟨⟨negative, r.magnitude, r.finite⟩, ?_, ?_⟩
  · rw [hread, FloatReading.ofDecimal_word negative hn hr]
  · intro hpos
    have hsign : negative = false := by
      cases negative with
      | false => rfl
      | true =>
        rw [if_pos rfl] at hvalue
        omega
    subst hsign
    rw [if_neg Bool.false_ne_true] at hvalue
    have hnegative := (Binary64.ofInt?_eq_some_iff.1 hr).1
    rw [decide_eq_false (by omega)] at hnegative
    rw [hvalue, hr, ← hnegative]

end Rulebook
