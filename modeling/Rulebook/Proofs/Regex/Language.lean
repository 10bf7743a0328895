import Mathlib.Logic.Function.Iterate
import Rulebook.Regex.Matching

/-!
# What an expression matches

An expression matches parts of a text, from one position to another: `Matches` says which,
by recursion on the expression.  The search follows all positions at once, as bits of a
number.  It reaches exactly the positions up to which the expression matches from one of
those where it begins, and so it finds a part that matches if there is one.

Repetitions need an argument.  No expression matches backwards, so that the rounds of an
unbounded one that stay in place can be left out, and as many rounds as the text has
positions reach everything.
-/

namespace Rulebook
namespace Regex

open scoped CorePower

/-! ## Matching -/

/-- A relation between positions, followed so many times. -/
inductive Times (R : Nat → Nat → Prop) : Nat → Nat → Nat → Prop where
  | stay (i : Nat) : Times R 0 i i
  | step {n i j k : Nat} (hfirst : R i j) (hrest : Times R n j k) : Times R (n + 1) i k

/-- The character before a position. -/
def charBefore (text : List Char) : Nat → Option Char
  | 0 => none
  | i + 1 => text[i]?

/-- The expression matches the part of the text from one position to another.  A repetition
whose greatest count is below the least one has the least one. -/
def Expr.Matches (text : List Char) : Expr → Nat → Nat → Prop
  | empty, i, j => i = j
  | set s, i, j => j = i + 1 ∧ ∃ c, text[i]? = some c ∧ s.contains c = true
  | look l, i, j => i = j ∧ i ≤ text.length ∧ l.holds (charBefore text i) text[i]? = true
  | seq a b, i, k => ∃ j, a.Matches text i j ∧ b.Matches text j k
  | either a b, i, j => a.Matches text i j ∨ b.Matches text i j
  | times r least most, i, j =>
      ∃ n, least ≤ n ∧ (∀ m, most = some m → n ≤ max least m) ∧ Times (r.Matches text) n i j

/-- The expression matches the text from its beginning to its end. -/
def Expr.MatchesWhole (e : Expr) (text : List Char) : Prop := e.Matches text 0 text.length

/-! ## Relations that lead forwards -/

/-- A relation between positions leads forwards, and not out of a text of the length. -/
def Forward (length : Nat) (R : Nat → Nat → Prop) : Prop :=
  ∀ i j, R i j → i ≤ length → i ≤ j ∧ j ≤ length

variable {R : Nat → Nat → Prop} {length i j k m n : Nat}

theorem Times.forward (hR : Forward length R) (h : Times R n i j) (hi : i ≤ length) :
    i ≤ j ∧ j ≤ length := by
  induction h with
  | stay => exact ⟨Nat.le_refl _, hi⟩
  | step hfirst _ ih =>
    obtain ⟨hle, hj⟩ := hR _ _ hfirst hi
    obtain ⟨hle', hk⟩ := ih hj
    exact ⟨Nat.le_trans hle hle', hk⟩

theorem Times.append (h : Times R m i j) (h' : Times R n j k) : Times R (m + n) i k := by
  induction h with
  | stay => rwa [Nat.zero_add]
  | step hfirst _ ih =>
    rw [Nat.add_right_comm]
    exact .step hfirst (ih h')

theorem times_add_iff : Times R (m + n) i k ↔ ∃ j, Times R m i j ∧ Times R n j k := by
  refine ⟨fun h => ?_, fun ⟨j, h, h'⟩ => h.append h'⟩
  induction m generalizing i with
  | zero => exact ⟨i, .stay i, by rwa [Nat.zero_add] at h⟩
  | succ m ih =>
    rw [Nat.add_right_comm] at h
    cases h with
    | step hfirst hrest =>
      obtain ⟨j, h, h'⟩ := ih hrest
      exact ⟨j, .step hfirst h, h'⟩

/-- Rounds that stay in place can be left out. -/
theorem Times.shorten (hR : Forward length R) (h : Times R n i j) (hi : i ≤ length) :
    ∃ m, m + i ≤ j ∧ Times R m i j := by
  induction h with
  | stay i => exact ⟨0, by omega, .stay i⟩
  | @step n i j k hfirst _ ih =>
    obtain ⟨hle, hj⟩ := hR _ _ hfirst hi
    obtain ⟨m, hm, hrest⟩ := ih hj
    rcases Nat.eq_or_lt_of_le hle with rfl | hlt
    · exact ⟨m, hm, hrest⟩
    · exact ⟨m + 1, by omega, .step hfirst hrest⟩

theorem Expr.forward_matches (text : List Char) (e : Expr) :
    Forward text.length (e.Matches text) := by
  induction e with
  | empty =>
    rintro i _ rfl hi
    exact ⟨Nat.le_refl _, hi⟩
  | set s =>
    rintro i _ ⟨rfl, c, hc, -⟩ -
    exact ⟨Nat.le_succ i, (List.getElem?_eq_some_iff.1 hc).1⟩
  | look l =>
    rintro i _ ⟨rfl, hi, -⟩ -
    exact ⟨Nat.le_refl _, hi⟩
  | seq a b iha ihb =>
    rintro i k ⟨j, ha, hb⟩ hi
    obtain ⟨hij, hj⟩ := iha _ _ ha hi
    obtain ⟨hjk, hk⟩ := ihb _ _ hb hj
    exact ⟨Nat.le_trans hij hjk, hk⟩
  | either a b iha ihb =>
    rintro i j (h | h) hi
    · exact iha _ _ h hi
    · exact ihb _ _ h hi
  | times r least most ih =>
    rintro i j ⟨n, -, -, h⟩ hi
    exact h.forward ih hi

/-! ## Sets of positions -/

/-- The positions are those of a text of the length. -/
def Positions (length s : Nat) : Prop := ∀ i, s.testBit i = true → i ≤ length

/-- Positions of the second set are those to which the relation leads from the first. -/
def Leads (R : Nat → Nat → Prop) (s t : Nat) : Prop :=
  ∀ j, t.testBit j = true ↔ ∃ i, s.testBit i = true ∧ R i j

variable {f : Nat → Nat} {s t : Nat}

theorem Leads.positions (h : Leads R s t) (hR : Forward length R) (hs : Positions length s) :
    Positions length t := by
  intro j hj
  obtain ⟨i, hi, hstep⟩ := (h j).1 hj
  exact (hR i j hstep (hs i hi)).2

/-- The function takes each set of positions to those where the relation leads from it. -/
structure Follows (length : Nat) (f : Nat → Nat) (R : Nat → Nat → Prop) : Prop where
  forward : Forward length R
  leads : ∀ s, Positions length s → Leads R s (f s)

theorem repeatStep_eq (f : Nat → Nat) (n s : Nat) : repeatStep f n s = f^[n] s := by
  induction n generalizing s with
  | zero => rfl
  | succ n ih =>
    rw [repeatStep]
    split
    · rename_i hfixed
      rw [Function.iterate_fixed hfixed]
    · rw [ih, Function.iterate_succ_apply]

theorem Follows.repeatStep (h : Follows length f R) (n : Nat) :
    Follows length (repeatStep f n) (Times R n) where
  forward _ _ htimes hi := htimes.forward h.forward hi
  leads s hs j := by
    rw [repeatStep_eq]
    induction n generalizing s with
    | zero =>
      refine ⟨fun hj => ⟨j, hj, .stay j⟩, ?_⟩
      rintro ⟨i, hi, htimes⟩
      cases htimes
      exact hi
    | succ n ih =>
      have hstep := h.leads s hs
      rw [Function.iterate_succ_apply, ih (f s) (hstep.positions h.forward hs)]
      constructor
      · rintro ⟨i', hi', hrest⟩
        obtain ⟨i, hi, hfirst⟩ := (hstep i').1 hi'
        exact ⟨i, hi, .step hfirst hrest⟩
      · rintro ⟨i, hi, htimes⟩
        cases htimes with
        | step hfirst hrest => exact ⟨_, (hstep _).2 ⟨i, hi, hfirst⟩, hrest⟩

/-- A set that a round adds nothing to is not left. -/
theorem mem_of_times (h : Leads R s t) (hclosed : s ||| t = s) (hi : s.testBit i = true)
    (htimes : Times R n i j) : s.testBit j = true := by
  induction htimes with
  | stay => exact hi
  | @step n i j k hfirst _ ih =>
    refine ih ?_
    rw [← hclosed, Nat.testBit_or, (h j).2 ⟨i, hi, hfirst⟩, Bool.or_true]

theorem Follows.collectSteps (h : Follows length f R) (n : Nat) :
    Follows length (collectSteps f n) (fun i j => ∃ m ≤ n, Times R m i j) where
  forward := by
    rintro i j ⟨m, -, htimes⟩ hi
    exact htimes.forward h.forward hi
  leads s hs j := by
    induction n generalizing s with
    | zero =>
      refine ⟨fun hj => ⟨j, hj, 0, Nat.le_refl _, .stay j⟩, ?_⟩
      rintro ⟨i, hi, m, hm, htimes⟩
      obtain rfl := Nat.le_zero.1 hm
      cases htimes
      exact hi
    | succ n ih =>
      have hstep := h.leads s hs
      rw [Regex.collectSteps]
      split
      · rename_i hclosed
        refine ⟨fun hj => ⟨j, hj, 0, Nat.zero_le _, .stay j⟩, ?_⟩
        rintro ⟨i, hi, m, -, htimes⟩
        exact mem_of_times hstep hclosed hi htimes
      · have hboth : Positions length (s ||| f s) := by
          intro i hi
          rw [Nat.testBit_or, Bool.or_eq_true] at hi
          exact hi.elim (hs i) (hstep.positions h.forward hs i)
        rw [ih _ hboth]
        constructor
        · rintro ⟨i, hi, m, hm, htimes⟩
          rw [Nat.testBit_or, Bool.or_eq_true] at hi
          rcases hi with hi | hi
          · exact ⟨i, hi, m, Nat.le_succ_of_le hm, htimes⟩
          · obtain ⟨i', hi', hfirst⟩ := (hstep i).1 hi
            exact ⟨i', hi', m + 1, Nat.succ_le_succ hm, .step hfirst htimes⟩
        · rintro ⟨i, hi, m, hm, htimes⟩
          cases htimes with
          | stay =>
            refine ⟨_, ?_, 0, Nat.zero_le _, .stay _⟩
            rw [Nat.testBit_or, hi, Bool.true_or]
          | @step m _ i' _ hfirst hrest =>
            refine ⟨i', ?_, m, Nat.le_of_succ_le_succ hm, hrest⟩
            rw [Nat.testBit_or, (hstep i').2 ⟨i, hi, hfirst⟩, Bool.or_true]

/-! ## Plans -/

theorem testBit_positionsOf {α : Type} (p : α → Bool) (as : List α) (i : Nat) :
    (positionsOf p as).testBit i = true ↔ ∃ a, as[i]? = some a ∧ p a = true := by
  induction as generalizing i with
  | nil => simp [positionsOf]
  | cons a as ih =>
    cases i with
    | zero =>
      rw [positionsOf, Nat.testBit_zero]
      cases hp : p a <;> simp [hp]
    | succ i =>
      have hhalf : ((if p a then 1 else 0) + 2 * positionsOf p as) / 2 = positionsOf p as := by
        split <;> omega
      rw [positionsOf, Nat.testBit_succ, hhalf, ih, List.getElem?_cons_succ]

/-- Each position stands between the character before it and the one after it. -/
theorem getElem?_neighbours (before : Option Char) (text : List Char) (i : Nat) :
    (neighbours before text)[i]? =
      if i ≤ text.length then some ((if i = 0 then before else text[i - 1]?), text[i]?)
      else none := by
  induction text generalizing before i with
  | nil => cases i <;> simp [neighbours]
  | cons c text ih =>
    cases i with
    | zero => simp [neighbours]
    | succ i =>
      rw [neighbours, List.getElem?_cons_succ, ih]
      cases i <;> simp

theorem testBit_look (l : Look) (text : List Char) (i : Nat) :
    (positionsOf (fun n => l.holds n.1 n.2) (neighbours none text)).testBit i = true ↔
      i ≤ text.length ∧ l.holds (charBefore text i) text[i]? = true := by
  have hbefore : (if i = 0 then none else text[i - 1]?) = charBefore text i := by
    cases i <;> rfl
  rw [testBit_positionsOf, getElem?_neighbours, hbefore]
  split
  · rename_i hle
    simp [hle]
  · rename_i hgt
    simp [hgt]

theorem follows_stay : Follows length (fun s => s) (fun i j => i = j) where
  forward := by
    rintro i _ rfl hi
    exact ⟨Nat.le_refl _, hi⟩
  leads s _ j := by simp

theorem Follows.seq {f g : Nat → Nat} {R S : Nat → Nat → Prop} (hf : Follows length f R)
    (hg : Follows length g S) :
    Follows length (fun s => g (f s)) (fun i k => ∃ j, R i j ∧ S j k) where
  forward := by
    rintro i k ⟨j, hfirst, hsecond⟩ hi
    obtain ⟨hij, hj⟩ := hf.forward _ _ hfirst hi
    obtain ⟨hjk, hk⟩ := hg.forward _ _ hsecond hj
    exact ⟨Nat.le_trans hij hjk, hk⟩
  leads s hs k := by
    have hstep := hf.leads s hs
    rw [hg.leads (f s) (hstep.positions hf.forward hs) k]
    constructor
    · rintro ⟨j, hj, hsecond⟩
      obtain ⟨i, hi, hfirst⟩ := (hstep j).1 hj
      exact ⟨i, hi, j, hfirst, hsecond⟩
    · rintro ⟨i, hi, j, hfirst, hsecond⟩
      exact ⟨j, (hstep j).2 ⟨i, hi, hfirst⟩, hsecond⟩

/-- The rounds of a repetition beyond the least number, up to the length of the text if there
is no greatest one. -/
theorem times_iff_rounds {least : Nat} {most : Option Nat} (hR : Forward length R)
    (hi : i ≤ length) :
    (∃ n, least ≤ n ∧ (∀ m, most = some m → n ≤ max least m) ∧ Times R n i k) ↔
      ∃ j, Times R least i j ∧ ∃ m ≤ (match most with
        | some most => most - least
        | none => length + 1), Times R m j k := by
  constructor
  · rintro ⟨n, hleast, hmost, htimes⟩
    obtain ⟨m, rfl⟩ := Nat.exists_eq_add_of_le hleast
    obtain ⟨j, hfirst, hrest⟩ := times_add_iff.1 htimes
    refine ⟨j, hfirst, ?_⟩
    cases most with
    | some most =>
      have hle := hmost most rfl
      exact ⟨m, (by omega : m ≤ most - least), hrest⟩
    | none =>
      obtain ⟨-, hj⟩ := hfirst.forward hR hi
      obtain ⟨-, hk⟩ := hrest.forward hR hj
      obtain ⟨m', hm', hshort⟩ := hrest.shorten hR hj
      exact ⟨m', (by omega : m' ≤ length + 1), hshort⟩
  · rintro ⟨j, hfirst, m, hm, hrest⟩
    refine ⟨least + m, Nat.le_add_right _ _, ?_, hfirst.append hrest⟩
    rintro most rfl
    simp only at hm
    omega

/-- The plan of an expression leads from each position to where the expression matches. -/
theorem Expr.follows_plan (text : List Char) (e : Expr) :
    Follows text.length ((e.plan text).follow text.length) (e.Matches text) := by
  induction e with
  | empty => exact follows_stay
  | set s =>
    refine ⟨forward_matches text (.set s), fun t _ j => ?_⟩
    simp only [plan, Plan.follow, Nat.testBit_shiftLeft, Nat.testBit_and, Bool.and_eq_true,
      decide_eq_true_eq, testBit_positionsOf, Matches]
    constructor
    · rintro ⟨hj, hi, hc⟩
      exact ⟨j - 1, hi, by omega, hc⟩
    · rintro ⟨i, hi, rfl, hc⟩
      exact ⟨Nat.le_add_left _ _, by simpa using hi, by simpa using hc⟩
  | look l =>
    refine ⟨forward_matches text (.look l), fun t _ j => ?_⟩
    simp only [plan, Plan.follow, Nat.testBit_and, Bool.and_eq_true, testBit_look, Matches]
    constructor
    · rintro ⟨hj, hholds⟩
      exact ⟨j, hj, rfl, hholds⟩
    · rintro ⟨i, hi, rfl, hholds⟩
      exact ⟨hi, hholds⟩
  | seq a b iha ihb => exact iha.seq ihb
  | either a b iha ihb =>
    refine ⟨forward_matches text (.either a b), fun t ht j => ?_⟩
    simp only [plan, Plan.follow, Nat.testBit_or, Bool.or_eq_true, iha.leads t ht j,
      ihb.leads t ht j, Matches]
    constructor
    · rintro (⟨i, hi, h⟩ | ⟨i, hi, h⟩)
      · exact ⟨i, hi, Or.inl h⟩
      · exact ⟨i, hi, Or.inr h⟩
    · rintro ⟨i, hi, h | h⟩
      · exact Or.inl ⟨i, hi, h⟩
      · exact Or.inr ⟨i, hi, h⟩
  | times r least most ih =>
    refine ⟨forward_matches text (.times r least most), fun t ht j => ?_⟩
    have hrounds := ((ih.repeatStep least).seq (ih.collectSteps (match most with
      | some most => most - least
      | none => text.length + 1))).leads t ht j
    refine hrounds.trans ?_
    refine exists_congr fun i => and_congr_right fun hi => ?_
    exact (times_iff_rounds ih.forward (ht i hi)).symm

/-- A search finds a part that matches, if there is one. -/
theorem Expr.search_iff (e : Expr) (text : List Char) :
    e.search text = true ↔ ∃ i j, i ≤ text.length ∧ e.Matches text i j := by
  have hall (i : Nat) : (2 ^ (text.length + 1) - 1).testBit i = true ↔ i ≤ text.length := by
    rw [Nat.testBit_two_pow_sub_one, decide_eq_true_iff, Nat.lt_succ_iff]
  have hleads := (e.follows_plan text).leads (2 ^ (text.length + 1) - 1) fun i hi => (hall i).1 hi
  rw [search, bne_iff_ne]
  constructor
  · intro hne
    obtain ⟨j, hj⟩ := Nat.exists_testBit_of_ne_zero hne
    obtain ⟨i, hi, hmatch⟩ := (hleads j).1 hj
    exact ⟨i, j, (hall i).1 hi, hmatch⟩
  · rintro ⟨i, j, hi, hmatch⟩ hzero
    have hj := (hleads j).2 ⟨i, (hall i).2 hi, hmatch⟩
    rw [hzero, Nat.zero_testBit] at hj
    cases hj

end Regex
end Rulebook
