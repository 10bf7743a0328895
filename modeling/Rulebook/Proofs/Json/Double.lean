import Rulebook.Proofs.Json.Literal
import Rulebook.Proofs.Number.Shortest

/-!
# Texts of doubles

The text of a double is a number literal.  It stands for the number of the
shortest digits, however these are laid out, so that different doubles have
different texts.
-/

namespace Rulebook
namespace Json

/-- The absolute value that a number literal stands for. -/
def NumberLiteral.size (l : NumberLiteral) : ℚ :=
  digitsValue 0 (l.whole ++ l.fraction) * 10 ^ (l.exponent - l.fraction.length)

/-! ## Digits and zeros -/

theorem digitsValue_append (start : Nat) (cs ds : List Char) :
    digitsValue start (cs ++ ds) = digitsValue (digitsValue start cs) ds :=
  List.foldl_append ..

theorem digitsValue_zeros (start n : Nat) :
    digitsValue start (List.replicate n '0') = start * 10 ^ n := by
  induction n generalizing start with
  | zero => exact (Nat.mul_one start).symm
  | succ n ih =>
    have hstep : digitsValue start (List.replicate (n + 1) '0') =
        digitsValue (10 * start + 0) (List.replicate n '0') := rfl
    rw [hstep, ih, Nat.pow_succ]
    ring

theorem isDigit_of_mem_zeros {n : Nat} {c : Char} (h : c ∈ List.replicate n '0') :
    c.isDigit = true := by
  rw [List.eq_of_mem_replicate h]
  rfl

theorem toList_zeros (n : Nat) : (zeros n).toList = List.replicate n '0' := String.toList_ofList

theorem toList_digits (n : Nat) : (toString n).toList = Nat.toDigits 10 n := Nat.toList_repr

/-! ## Parts of a literal -/

theorem fractionPart?_point {fraction more : List Char} (h : ∀ c ∈ fraction, c.isDigit = true)
    (hne : fraction ≠ []) (hmore : ∀ c, more.head? = some c → c.isDigit = false) :
    fractionPart? ('.' :: (fraction ++ more)) = some (some fraction, more) := by
  have hempty : fraction.isEmpty = false := List.isEmpty_eq_false_iff.2 hne
  rw [fractionPart?, splitDigits_append h hmore]
  simp only [hempty, Bool.false_eq_true, if_false]

theorem splitSign_digits {cs : List Char} (h : ∀ c ∈ cs, c.isDigit = true) :
    splitSign cs = (false, cs) := by
  have hne : ∀ c rest, c.isDigit = false → cs ≠ c :: rest := by
    rintro c rest hc rfl
    rw [h c (List.mem_cons_self ..)] at hc
    cases hc
  rw [splitSign]
  · intro rest
    exact hne '-' rest rfl
  · intro rest
    exact hne '+' rest rfl

/-- An exponent is read back, whether a positive one has a sign or not. -/
theorem exponentPart?_exponent {plus : String} (hplus : plus = "" ∨ plus = "+") (i : Int) :
    exponentPart? ('e' :: ((if i < 0 then "-" else plus).toList ++ Nat.toDigits 10 i.natAbs)) =
      some (some i, []) := by
  have hdigits : ∀ c ∈ Nat.toDigits 10 i.natAbs, c.isDigit = true :=
    fun c hc => isDigit_of_mem_digits hc
  have hsplit : splitDigits (Nat.toDigits 10 i.natAbs) = (Nat.toDigits 10 i.natAbs, []) := by
    rw [← List.append_nil (Nat.toDigits 10 i.natAbs)]
    refine (splitDigits_append hdigits ?_).trans ?_
    · intro c hc
      cases hc
    · rw [List.append_nil]
  have hempty : (Nat.toDigits 10 i.natAbs).isEmpty = false :=
    List.isEmpty_eq_false_iff.2 Nat.toDigits_ne_nil
  have hsign : splitSign ((if i < 0 then "-" else plus).toList ++ Nat.toDigits 10 i.natAbs) =
      (decide (i < 0), Nat.toDigits 10 i.natAbs) := by
    by_cases hneg : i < 0
    · rw [if_pos hneg, decide_eq_true hneg]
      rfl
    · rw [if_neg hneg, decide_eq_false hneg]
      rcases hplus with rfl | rfl
      · exact splitSign_digits hdigits
      · rfl
  have hvalue : (if decide (i < 0) then -((i.natAbs : Nat) : Int) else (i.natAbs : Nat)) = i := by
    by_cases hneg : i < 0
    · rw [decide_eq_true hneg, if_pos rfl]
      omega
    · rw [decide_eq_false hneg, if_neg Bool.false_ne_true]
      omega
  rw [exponentPart?, if_pos (Or.inl rfl)]
  simp only [hsign, hsplit, hempty, digitsValue_toDigits, hvalue, Bool.false_eq_true, if_false]

/-! ## Layouts -/

/-- A text is a literal with a sign and a size. -/
def Denotes (cs : List Char) (negative : Bool) (size : ℚ) : Prop :=
  ∃ l, numberLiteral? cs = some (l, []) ∧ l.negative = negative ∧ l.size = size

/-- The text of a sign. -/
def signText (negative : Bool) : List Char := if negative then ['-'] else []

/-- Digits around a point are a literal. -/
theorem denotes_point (whole fraction more : List Char) {cs : List Char} {exponent : Option Int}
    {size : ℚ} (htext : cs = whole ++ '.' :: (fraction ++ more))
    (hwhole : ∀ c ∈ whole, c.isDigit = true) (hne : whole ≠ [])
    (hzero : (whole.head? == some '0' && whole.length != 1) = false)
    (hfraction : ∀ c ∈ fraction, c.isDigit = true) (hne' : fraction ≠ [])
    (hmore : ∀ c, more.head? = some c → c.isDigit = false)
    (hexponent : exponentPart? more = some (exponent, []))
    (hsize : (digitsValue 0 (whole ++ fraction) : ℚ) *
      10 ^ (exponent.getD 0 - fraction.length) = size) (negative : Bool) :
    Denotes (signText negative ++ cs) negative size := by
  have hrest : ∀ c, ('.' :: (fraction ++ more)).head? = some c → c.isDigit = false := by
    intro c hc
    rw [← Option.some.inj hc]
    rfl
  subst htext
  exact ⟨_, numberLiteral?_eq negative hwhole hne hzero hrest (fractionPart?_point hfraction hne' hmore)
    hexponent, rfl, hsize⟩

theorem head?_digits {n : Nat} (hn : 0 < n) :
    ∃ c cs, Nat.toDigits 10 n = c :: cs ∧ c ≠ '0' := by
  obtain ⟨d, rest, heq, hd, hd'⟩ := toDigits_head n hn
  refine ⟨d.digitChar, rest, heq, ?_⟩
  intro h
  rw [Nat.digitChar_eq_zero] at h
  omega

theorem not_leadingZero {c : Char} (hc : c ≠ '0') (cs : List Char) :
    ((c :: cs).head? == some '0' && (c :: cs).length != 1) = false := by
  rw [List.head?_cons]
  simp [hc]

theorem isDigit_of_head?_nil (c : Char) (hc : ([] : List Char).head? = some c) :
    c.isDigit = false := by
  cases hc

theorem isDigit_of_mem_zero {c : Char} (hc : c ∈ ['0']) : c.isDigit = true := by
  rw [List.mem_singleton.1 hc]
  rfl

section

variable {n : Nat} (hn : 0 < n)
include hn

omit hn in
/-- Digits behind the point, with zeros between. -/
theorem denotes_behind (places : Nat) (negative : Bool) :
    Denotes (signText negative ++ ("0." ++ zeros places ++ toString n).toList) negative
      (n * 10 ^ (-(places + decimalLength n : Int))) := by
  refine denotes_point ['0'] (List.replicate places '0' ++ Nat.toDigits 10 n) [] ?_
    (fun _ => isDigit_of_mem_zero) (List.cons_ne_nil _ _) rfl ?_ (by simp [Nat.toDigits_ne_nil])
    isDigit_of_head?_nil rfl ?_ _
  · rw [String.toList_append, String.toList_append, toList_zeros, toList_digits, List.append_nil,
      List.append_assoc]
    rfl
  · intro c hc
    rcases List.mem_append.1 hc with hc | hc
    · exact isDigit_of_mem_zeros hc
    · exact isDigit_of_mem_digits hc
  · have hzero : digitsValue 0 ['0'] = 0 := rfl
    rw [← List.append_assoc, digitsValue_append, digitsValue_append, hzero, digitsValue_zeros,
      Nat.zero_mul, digitsValue_toDigits, List.length_append, List.length_replicate,
      Option.getD_none, decimalLength]
    congr 2
    push_cast
    omega

/-- Digits in front of the point, with zeros between. -/
theorem denotes_before (places : Nat) (negative : Bool) :
    Denotes (signText negative ++ (toString n ++ zeros places ++ ".0").toList) negative
      (n * 10 ^ (places : Int)) := by
  obtain ⟨c, cs, hdigits, hc⟩ := head?_digits hn
  refine denotes_point (Nat.toDigits 10 n ++ List.replicate places '0') ['0'] [] ?_
    ?_ ?_ ?_ (fun _ => isDigit_of_mem_zero) (List.cons_ne_nil _ _) isDigit_of_head?_nil rfl ?_ _
  · rw [String.toList_append, String.toList_append, toList_zeros, toList_digits]
    rfl
  · intro c hc
    rcases List.mem_append.1 hc with hc | hc
    · exact isDigit_of_mem_digits hc
    · exact isDigit_of_mem_zeros hc
  · simp [Nat.toDigits_ne_nil]
  · rw [hdigits]
    exact not_leadingZero hc _
  · have hten : digitsValue (n * 10 ^ places) ['0'] = 10 * (n * 10 ^ places) := rfl
    rw [digitsValue_append, digitsValue_append, digitsValue_toDigits, digitsValue_zeros, hten,
      zpow_natCast, Option.getD_none]
    norm_num
    ring

/-- Digits on both sides of the point. -/
theorem denotes_around (places : Nat) (hplaces : 0 < places) (hshort : places < decimalLength n)
    (negative : Bool) :
    Denotes (signText negative ++ (String.ofList ((toString n).toList.take places) ++ "." ++
      String.ofList ((toString n).toList.drop places)).toList) negative
      (n * 10 ^ (places - decimalLength n : Int)) := by
  obtain ⟨c, cs, hdigits, hc⟩ := head?_digits hn
  have htake : ∃ ds, (Nat.toDigits 10 n).take places = c :: ds := by
    rw [hdigits]
    obtain ⟨rest, rfl⟩ := Nat.exists_eq_add_one_of_ne_zero (Nat.ne_of_gt hplaces)
    exact ⟨cs.take rest, rfl⟩
  obtain ⟨ds, hds⟩ := htake
  refine denotes_point ((Nat.toDigits 10 n).take places) ((Nat.toDigits 10 n).drop places) []
    ?_ ?_ ?_ ?_ ?_ ?_ isDigit_of_head?_nil rfl ?_ _
  · simp only [String.toList_append, String.toList_ofList, toList_digits, List.append_nil,
      List.append_assoc]
    rfl
  · intro c hc
    exact isDigit_of_mem_digits (List.mem_of_mem_take hc)
  · rw [hds]
    exact List.cons_ne_nil _ _
  · rw [hds]
    exact not_leadingZero hc _
  · intro c hc
    exact isDigit_of_mem_digits (List.mem_of_mem_drop hc)
  · intro hnil
    have hle := List.drop_eq_nil_iff.1 hnil
    rw [decimalLength] at hshort
    omega
  · rw [List.take_append_drop, digitsValue_toDigits, List.length_drop, Option.getD_none]
    congr 2
    rw [decimalLength] at hshort ⊢
    omega

/-- Positional text stands for its digits at their places. -/
theorem denotes_positional (lead : Int) (negative : Bool) :
    Denotes (signText negative ++ (FloatLayout.positional (toString n) lead).toList) negative
      (n * 10 ^ (lead + 1 - decimalLength n)) := by
  have hlength : (toString n).length = decimalLength n := by
    rw [← String.length_toList, toList_digits, decimalLength]
  rw [FloatLayout.positional, hlength]
  dsimp only
  split
  · rename_i hwhole
    have hbehind := denotes_behind (n := n) (-(lead + 1)).toNat negative
    have hexponent : -(((-(lead + 1)).toNat : Nat) + decimalLength n : Int) =
        lead + 1 - decimalLength n := by
      omega
    rw [hexponent] at hbehind
    exact hbehind
  · rename_i hwhole
    split
    · rename_i hlong
      have hbefore := denotes_before hn ((lead + 1).toNat - decimalLength n) negative
      have hexponent : (((lead + 1).toNat - decimalLength n : Nat) : Int) =
          lead + 1 - decimalLength n := by
        omega
      rw [hexponent] at hbefore
      exact hbefore
    · rename_i hshort
      have haround := denotes_around hn (lead + 1).toNat (by omega) (by omega) negative
      have hexponent : ((lead + 1).toNat - decimalLength n : Int) =
          lead + 1 - decimalLength n := by
        omega
      rw [hexponent] at haround
      exact haround

/-- Scientific text stands for its digits under its exponent. -/
theorem denotes_scientific {layout : FloatLayout} (hplus : layout.plus = "" ∨ layout.plus = "+")
    (lead : Int) (negative : Bool) :
    Denotes (signText negative ++ (layout.scientific (toString n) lead).toList) negative
      (n * 10 ^ (lead + 1 - decimalLength n)) := by
  obtain ⟨c, cs, hdigits, hc⟩ := head?_digits hn
  have hisDigit : ∀ d ∈ c :: cs, d.isDigit = true := by
    intro d hd
    rw [← hdigits] at hd
    exact isDigit_of_mem_digits hd
  have hvalue : digitsValue 0 (c :: cs) = n := by
    rw [← hdigits]
    exact digitsValue_toDigits n
  have hexponent := exponentPart?_exponent hplus lead
  have hlead : ∀ d : Char, ('e' :: ((if lead < 0 then "-" else layout.plus).toList ++
      Nat.toDigits 10 lead.natAbs)).head? = some d → d.isDigit = false := by
    intro d hd
    rw [← Option.some.inj hd]
    rfl
  have hone : ∀ d ∈ [c], d.isDigit = true := by
    intro d hd
    rw [List.mem_singleton.1 hd]
    exact hisDigit c (List.mem_cons_self ..)
  have hsize : (digitsValue 0 ([c] ++ cs) : ℚ) * 10 ^ (lead - (cs.length : Int)) =
      n * 10 ^ (lead + 1 - (decimalLength n : Int)) := by
    rw [List.singleton_append, hvalue, decimalLength, hdigits, List.length_cons]
    congr 2
    push_cast
    omega
  rw [FloatLayout.scientific, toList_digits, hdigits]
  generalize (if lead < 0 then "-" else layout.plus) = sign at hexponent hlead
  cases cs with
  | nil =>
    have htext : (String.ofList [c] ++ "e" ++ sign ++ toString lead.natAbs).toList =
        [c] ++ ('e' :: (sign.toList ++ Nat.toDigits 10 lead.natAbs)) := by
      simp only [String.toList_append, String.toList_ofList, toList_digits, List.append_assoc]
      rfl
    have hliteral := numberLiteral?_eq negative hone (List.cons_ne_nil _ _)
      (not_leadingZero hc []) hlead rfl hexponent
    refine ⟨⟨negative, [c], [], lead, false⟩, ?_, rfl, hsize⟩
    rw [List.take_one, List.drop_one]
    refine Eq.trans ?_ hliteral
    rw [signText, ← htext]
    rfl
  | cons d ds =>
    refine denotes_point [c] (d :: ds) _ ?_ hone (List.cons_ne_nil _ _)
      (not_leadingZero hc _) (fun b hb => hisDigit b (List.mem_cons_of_mem _ hb))
      (List.cons_ne_nil _ _) hlead hexponent hsize _
    have hempty : (String.ofList (d :: ds)).isEmpty = false := by
      rw [String.isEmpty_eq_false_iff, ← String.toList_inj.ne, String.toList_ofList]
      exact List.cons_ne_nil _ _
    simp only [List.take_succ_cons, List.take_zero, List.drop_succ_cons, List.drop_zero, hempty,
      Bool.false_eq_true, if_false, String.toList_append, String.toList_ofList, toList_digits,
      List.append_assoc]
    rfl

end

/-! ## Doubles -/

theorem denotes_zero (negative : Bool) : Denotes (signText negative ++ "0.0".toList) negative 0 := by
  refine denotes_point ['0'] ['0'] [] rfl (fun _ => isDigit_of_mem_zero) (List.cons_ne_nil _ _)
    rfl (fun _ => isDigit_of_mem_zero) (List.cons_ne_nil _ _) isDigit_of_head?_nil rfl ?_ negative
  have hzero : digitsValue 0 (['0'] ++ ['0']) = 0 := rfl
  rw [hzero, Nat.cast_zero, zero_mul]

theorem toList_sign (negative : Bool) (s : String) :
    ((if negative then "-" else "") ++ s).toList = signText negative ++ s.toList := by
  rw [String.toList_append]
  cases negative <;> rfl

variable {layout : FloatLayout}

/-- The text of a double stands for the number of its shortest digits. -/
theorem denotes_write (hplus : layout.plus = "" ∨ layout.plus = "+") (x : Binary64) :
    Denotes (layout.write x).toList x.negative
      (if x.magnitude = 0 then 0 else (x.shortest layout.tieUp).value) := by
  rw [FloatLayout.write]
  dsimp only
  split
  · rw [toList_sign]
    exact denotes_zero x.negative
  · rename_i hx
    have hdigits : 0 < (x.shortest layout.tieUp).digits :=
      Nat.pos_of_ne_zero (Binary64.shortest_digits_ne_zero hx layout.tieUp)
    rw [DecimalForm.value]
    generalize x.shortest layout.tieUp = d at hdigits
    have hlength : (toString d.digits).length = decimalLength d.digits := by
      rw [← String.length_toList, toList_digits, decimalLength]
    have hexponent : d.exponent + decimalLength d.digits - 1 + 1 - decimalLength d.digits =
        d.exponent := by
      omega
    rw [hlength]
    split
    · have hdenotes := denotes_positional hdigits (d.exponent + decimalLength d.digits - 1) x.negative
      rw [hexponent] at hdenotes
      rw [toList_sign]
      exact hdenotes
    · have hdenotes := denotes_scientific hdigits hplus
        (d.exponent + decimalLength d.digits - 1) x.negative
      rw [hexponent] at hdenotes
      rw [toList_sign]
      exact hdenotes

theorem Denotes.unique {cs : List Char} {negative negative' : Bool} {size size' : ℚ}
    (h : Denotes cs negative size) (k : Denotes cs negative' size') :
    negative = negative' ∧ size = size' := by
  obtain ⟨l, hl, hnegative, hsize⟩ := h
  obtain ⟨l', hl', hnegative', hsize'⟩ := k
  rw [hl] at hl'
  obtain ⟨rfl, -⟩ := Prod.mk.inj (Option.some.inj hl')
  exact ⟨hnegative.symm.trans hnegative', hsize.symm.trans hsize'⟩

theorem shortest_value_ne_zero {x : Binary64} (hx : x.magnitude ≠ 0) (tieUp : Bool) :
    (x.shortest tieUp).value ≠ 0 := by
  have hdigits := Binary64.shortest_digits_ne_zero hx tieUp
  rw [DecimalForm.value]
  positivity

/-- Different doubles have different texts. -/
theorem write_injective (hplus : layout.plus = "" ∨ layout.plus = "+") {x y : Binary64}
    (h : layout.write x = layout.write y) : x = y := by
  have hx := denotes_write hplus x
  rw [h] at hx
  obtain ⟨hnegative, hsize⟩ := hx.unique (denotes_write hplus y)
  have hmagnitude : x.magnitude = y.magnitude := by
    by_cases hx : x.magnitude = 0
    · by_cases hy : y.magnitude = 0
      · rw [hx, hy]
      · rw [if_pos hx, if_neg hy] at hsize
        exact absurd hsize.symm (shortest_value_ne_zero hy _)
    · by_cases hy : y.magnitude = 0
      · rw [if_neg hx, if_pos hy] at hsize
        exact absurd hsize (shortest_value_ne_zero hx _)
      · rw [if_neg hx, if_neg hy] at hsize
        exact Binary64.eq_of_shortest_eq hx hy hsize
  obtain ⟨nx, mx, fx⟩ := x
  obtain ⟨ny, my, fy⟩ := y
  dsimp only at hnegative hmagnitude
  subst hnegative hmagnitude
  rfl

end Json
end Rulebook
