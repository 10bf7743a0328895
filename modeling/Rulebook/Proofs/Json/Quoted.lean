import Mathlib.Data.List.Forall2
import Rulebook.Identity.Canonical
import Rulebook.Json.Document

/-!
# Quoted texts read back

A quoted text is read up to its closing quote and gives the text that was
quoted.  Each character is read from its escape as one piece; the escapes of
control characters by number are units far below the surrogates.
-/

namespace Rulebook
namespace Json

/-- A piece stands for a character. -/
inductive Piece.Stands : Piece → Char → Prop where
  | char (c : Char) : Stands (.char c) c
  | unit {c : Char} (h : c.toNat < 32) : Stands (.unit c.toNat) c

theorem hexDigit?_digitChar {n : Nat} (hn : n < 16) : hexDigit? (Nat.digitChar n) = some n := by
  have hall : ∀ n : Fin 16, hexDigit? (Nat.digitChar n) = some n.val := by decide
  exact hall ⟨n, hn⟩

/-- The escape of a control character by its number. -/
theorem hexUnit?_control {n : Nat} (hn : n < 32) (rest : List Char) :
    hexUnit? ('0' :: '0' :: Nat.digitChar (n / 16) :: Nat.digitChar (n % 16) :: rest) =
      some (n, rest) := by
  have hzero : hexDigit? '0' = some 0 := by decide
  have hhigh := hexDigit?_digitChar (n := n / 16) (by omega)
  have hlow := hexDigit?_digitChar (n := n % 16) (by omega)
  have hsum : ((0 * 16 + 0) * 16 + n / 16) * 16 + n % 16 = n := by omega
  simp only [hexUnit?, hzero, hhigh, hlow, Option.bind_eq_bind, Option.bind_some, hsum,
    Option.pure_def]

theorem pieces?_char {c : Char} (hquote : c ≠ '"') (hslash : c ≠ '\\') (hc : 32 ≤ c.toNat)
    (fuel : Nat) (rest : List Char) :
    pieces? (fuel + 1) (c :: rest) =
      (pieces? fuel rest).map fun p => (.char c :: p.1, p.2) := by
  have hnot : ¬ (c.toNat < 32 ∨ c = '\\') := by
    rintro (hlt | heq)
    · omega
    · exact hslash heq
  rw [pieces?]
  · rw [if_neg hnot]
    cases pieces? fuel rest <;> rfl
  · exact hquote
  · intro _ heq
    exact absurd heq hslash
  · intro _ _ heq
    exact absurd heq hslash

theorem pieces?_escaped {c d : Char} (hc : escapedChar? c = some d) (hu : c ≠ 'u') (fuel : Nat)
    (rest : List Char) :
    pieces? (fuel + 1) ('\\' :: c :: rest) =
      (pieces? fuel rest).map fun p => (.char d :: p.1, p.2) := by
  rw [pieces?]
  · rw [hc]
    cases pieces? fuel rest <;> rfl
  · exact hu

/-- A character is read from its escape as one piece. -/
theorem pieces?_escape (c : Char) (fuel : Nat) (rest : List Char) :
    ∃ p, Piece.Stands p c ∧ pieces? (fuel + 1) (escape c ++ rest) =
      (pieces? fuel rest).map fun q => (p :: q.1, q.2) := by
  have hchar : ∀ d, escape c = ['\\', d] → escapedChar? d = some c → d ≠ 'u' →
      ∃ p, Piece.Stands p c ∧ pieces? (fuel + 1) (escape c ++ rest) =
        (pieces? fuel rest).map fun q => (p :: q.1, q.2) := by
    intro d hescape hd hu
    refine ⟨.char c, .char c, ?_⟩
    rw [hescape]
    exact pieces?_escaped hd hu fuel rest
  by_cases hquote : c = '"'
  · subst hquote
    exact hchar '"' rfl rfl (by decide)
  by_cases hslash : c = '\\'
  · subst hslash
    exact hchar '\\' rfl rfl (by decide)
  by_cases hn : c = '\n'
  · subst hn
    exact hchar 'n' rfl rfl (by decide)
  by_cases hr : c = '\r'
  · subst hr
    exact hchar 'r' rfl rfl (by decide)
  by_cases ht : c = '\t'
  · subst ht
    exact hchar 't' rfl rfl (by decide)
  have hother : escape c = if c.toNat = 8 then ['\\', 'b'] else if c.toNat = 12 then ['\\', 'f']
      else if c.toNat < 32 then
        ['\\', 'u', '0', '0', Nat.digitChar (c.toNat / 16), Nat.digitChar (c.toNat % 16)]
      else [c] := by
    rw [escape] <;> assumption
  by_cases hb : c.toNat = 8
  · refine hchar 'b' ?_ ?_ (by decide)
    · rw [hother, if_pos hb]
    · rw [show c = Char.ofNat 8 from by rw [← hb, Char.ofNat_toNat]]
      rfl
  by_cases hf : c.toNat = 12
  · refine hchar 'f' ?_ ?_ (by decide)
    · rw [hother, if_neg hb, if_pos hf]
    · rw [show c = Char.ofNat 12 from by rw [← hf, Char.ofNat_toNat]]
      rfl
  rw [if_neg hb, if_neg hf] at hother
  by_cases hcontrol : c.toNat < 32
  · refine ⟨.unit c.toNat, .unit hcontrol, ?_⟩
    rw [hother, if_pos hcontrol]
    show pieces? (fuel + 1) ('\\' :: 'u' :: '0' :: '0' :: Nat.digitChar (c.toNat / 16) ::
      Nat.digitChar (c.toNat % 16) :: rest) = _
    rw [pieces?, hexUnit?_control hcontrol]
    simp only [Option.bind_eq_bind, Option.bind_some]
    cases pieces? fuel rest <;> rfl
  · refine ⟨.char c, .char c, ?_⟩
    rw [hother, if_neg hcontrol]
    exact pieces?_char hquote hslash (Nat.le_of_not_lt hcontrol) fuel rest

/-- The pieces of a quoted text stand for its characters. -/
theorem pieces?_quoted (cs : List Char) (rest : List Char) {fuel : Nat} (hfuel : cs.length < fuel) :
    ∃ ps, List.Forall₂ Piece.Stands ps cs ∧
      pieces? fuel (cs.flatMap escape ++ '"' :: rest) = some (ps, rest) := by
  induction cs generalizing fuel with
  | nil =>
    cases fuel with
    | zero => exact absurd hfuel (Nat.lt_irrefl _)
    | succ fuel => exact ⟨[], .nil, rfl⟩
  | cons c cs ih =>
    cases fuel with
    | zero => exact absurd hfuel (Nat.not_lt_zero _)
    | succ fuel =>
      obtain ⟨ps, hstands, hps⟩ := ih (Nat.lt_of_succ_lt_succ hfuel)
      obtain ⟨p, hp, hpiece⟩ := pieces?_escape c fuel (cs.flatMap escape ++ '"' :: rest)
      refine ⟨p :: ps, .cons hp hstands, ?_⟩
      rw [List.flatMap_cons, List.append_assoc, hpiece, hps]
      rfl

/-- Pieces that stand for characters are joined to them. -/
theorem joinPieces?_of_stands {ps : List Piece} {cs : List Char}
    (h : List.Forall₂ Piece.Stands ps cs) : joinPieces? ps = some cs := by
  induction h with
  | nil => rfl
  | cons hp _ ih =>
    cases hp with
    | char c => rw [joinPieces?, ih, Option.map_some]
    | @unit c hc =>
      rw [joinPieces?.eq_def]
      dsimp only
      rw [if_neg (by omega), if_neg (by omega), ih, Option.map_some, Char.ofNat_toNat]

theorem length_le_escape (cs : List Char) : cs.length ≤ (cs.flatMap escape).length := by
  induction cs with
  | nil => exact Nat.le_refl _
  | cons c cs ih =>
    have hpos : 1 ≤ (escape c).length := by
      rw [escape.eq_def]
      repeat' split
      all_goals simp only [List.length_cons, List.length_nil]; omega
    rw [List.flatMap_cons, List.length_append, List.length_cons]
    omega

/-- A quoted text is read up to its closing quote. -/
theorem quoted?_quote (s : String) (rest : List Char) :
    quoted? ((s.toList.flatMap escape ++ ['"']) ++ rest) = some (some s, rest) := by
  rw [List.append_assoc, List.cons_append, List.nil_append]
  have hlength : s.toList.length < (s.toList.flatMap escape ++ '"' :: rest).length + 1 := by
    have hle := length_le_escape s.toList
    rw [List.length_append]
    omega
  obtain ⟨ps, hstands, hps⟩ := pieces?_quoted s.toList rest hlength
  rw [quoted?, hps, Option.map_some]
  dsimp only
  rw [joinPieces?_of_stands hstands, Option.map_some, String.ofList_toList]

end Json
end Rulebook
