import Mathlib.Data.List.Forall2
import Mathlib.Data.Option.Basic
import Mathlib.Order.RelClasses
import Rulebook.Proofs.Number.Denotation
import Rulebook.Proofs.Value.Ordered
import Rulebook.Proofs.Value.Parts
import Rulebook.Value.Table

/-!
# Equality of content

Two numbers have the same key if and only if they denote the same number, whatever their
kinds and however large they are.  So values are equivalent if and only if their contents are
equal, where the content of a value has the numbers that are denoted in place of numbers of
either kind; this makes equivalence an equivalence relation.  An enumeration, which looks
scalars up by key, holds what is equivalent to one of its allowed values.
-/

namespace Rulebook

/-! ## Keys of numbers -/

namespace Binary64

variable {x y : Binary64}

/-- Doubles of one value have one absolute value. -/
theorem units_eq_of_scaled_eq (h : x.scaled = y.scaled) : x.units = y.units := by
  rw [scaled, scaled] at h
  split at h <;> split at h <;> omega

/-- A whole double is so many times one. -/
theorem trunc_mul_units (h : x.isIntegral = true) : x.trunc * unitsPerOne = x.scaled := by
  have hwhole : x.units / unitsPerOne * unitsPerOne = x.units :=
    Nat.div_mul_cancel (Nat.dvd_of_mod_eq_zero (beq_iff_eq.1 h))
  have hcast : ((x.units / unitsPerOne : Nat) : Int) * unitsPerOne = x.units := by
    rw [← Int.natCast_mul, hwhole]
  rw [trunc, scaled]
  split
  · rw [Int.neg_mul, hcast]
  · exact hcast

end Binary64

namespace Number

/-- The double has the key of an integer. -/
def Whole (x : Binary64) : Prop := x.isIntegral = true ∧ x.magnitude < keyLimit

theorem key_of_whole {x : Binary64} (h : Whole x) : (float x).key = .integer x.trunc := by
  rw [key, if_pos]
  simpa [Whole] using h

theorem key_of_not_whole {x : Binary64} (h : ¬ Whole x) : (float x).key = .double x := by
  rw [key, if_neg]
  simpa [Whole] using h

/-- The key of a number is that of no other scalar. -/
theorem key_ne (a : Number) :
    a.key ≠ .null ∧ (∀ b, a.key ≠ .bool b) ∧ ∀ s, a.key ≠ .text s := by
  cases a with
  | integer i => simp [key]
  | float x =>
    rw [key]
    split <;> simp

/-- Whether a double is whole depends on its value only. -/
theorem Whole.congr {x y : Binary64} (h : x.scaled = y.scaled) (hx : Whole x) : Whole y := by
  have hunits := Binary64.units_eq_of_scaled_eq h
  rw [Whole, Binary64.isIntegral, hunits, Binary64.magnitude_eq_of_units_eq hunits] at hx
  exact hx

/-- A double whose value is a word integer is whole: no word reaches the limit. -/
theorem whole_of_scaled_eq {i : WordInt} {x : Binary64}
    (h : i.val * Binary64.unitsPerOne = x.scaled) : Whole x := by
  have hunits : i.val.natAbs * Binary64.unitsPerOne = x.units := by
    have habs := congrArg Int.natAbs h
    rw [Int.natAbs_mul, Int.natAbs_natCast, Binary64.scaled] at habs
    split at habs <;> omega
  have hword : i.val.natAbs ≤ 2 ^ 64 := by
    have := i.lower
    have := i.upper
    omega
  constructor
  · rw [Binary64.isIntegral, ← hunits, Nat.mul_mod_left]
    rfl
  · have hlimit : 2 ^ 64 * Binary64.unitsPerOne < Binary64.unitsOf keyLimit := by decide +kernel
    rw [← Binary64.unitsOf_strictMono.lt_iff_lt, ← Binary64.units_eq_unitsOf, ← hunits]
    exact Nat.lt_of_le_of_lt (Nat.mul_le_mul_right _ hword) hlimit

theorem integer_key_eq_iff {i : WordInt} {x : Binary64} :
    (integer i).key = (float x).key ↔ i.val * Binary64.unitsPerOne = x.scaled := by
  by_cases hx : Whole x
  · rw [key_of_whole hx, key, ScalarKey.integer.injEq, ← Binary64.trunc_mul_units hx.1,
      Int.mul_eq_mul_right_iff Binary64.unitsPerOne_ne_zero]
  · rw [key_of_not_whole hx, key]
    constructor
    · intro h
      cases h
    · intro h
      exact absurd (whole_of_scaled_eq h) hx

theorem float_key_eq_iff {x y : Binary64} :
    (float x).key = (float y).key ↔ x.scaled = y.scaled := by
  by_cases hx : Whole x
  · by_cases hy : Whole y
    · rw [key_of_whole hx, key_of_whole hy, ScalarKey.integer.injEq,
        ← Binary64.trunc_mul_units hx.1, ← Binary64.trunc_mul_units hy.1]
      constructor
      · intro h
        rw [h]
      · intro h
        exact (Int.mul_eq_mul_right_iff Binary64.unitsPerOne_ne_zero).1 h
    · rw [key_of_whole hx, key_of_not_whole hy]
      constructor
      · intro h
        cases h
      · intro h
        exact absurd (hx.congr h) hy
  · by_cases hy : Whole y
    · rw [key_of_not_whole hx, key_of_whole hy]
      constructor
      · intro h
        cases h
      · intro h
        exact absurd (hy.congr h.symm) hx
    · rw [key_of_not_whole hx, key_of_not_whole hy, ScalarKey.double.injEq]
      constructor
      · intro h
        rw [h]
      · intro h
        -- The two zeros are whole, and other doubles of one value are the same.
        have hzero {z : Binary64} (hz : ¬ Whole z) : z.isNegativeZero = false := by
          rw [Bool.eq_false_iff]
          intro hnegative
          have hmagnitude : z.magnitude = 0 := by
            simpa using (Bool.and_eq_true_iff.1 hnegative).2
          have hunits : z.units = 0 := (Binary64.units_eq_zero_iff z).2 hmagnitude
          apply hz
          rw [Whole, Binary64.isIntegral, hunits, hmagnitude, Nat.zero_mod]
          exact ⟨rfl, by decide⟩
        refine Binary64.eq_of_sameValue (hzero hx) (hzero hy) ?_
        rw [Binary64.sameValue, h, beq_self_eq_true]

/-- Numbers have one key if and only if they denote the same number. -/
theorem key_eq_iff {a b : Number} : a.key = b.key ↔ a.value = b.value := by
  rw [value_eq_iff]
  cases a with
  | integer i =>
    cases b with
    | integer j =>
      rw [key, key, ScalarKey.integer.injEq, scaled, scaled,
        Int.mul_eq_mul_right_iff Binary64.unitsPerOne_ne_zero]
    | float y => exact integer_key_eq_iff
  | float x =>
    cases b with
    | integer j => rw [eq_comm, integer_key_eq_iff, eq_comm, scaled, scaled]
    | float y => exact float_key_eq_iff

end Number

namespace Value

/-! ## Contents -/

/-- What a value says, whatever the kinds of its numbers. -/
inductive Content where
  | null
  | bool (b : Bool)
  | number (q : ℚ)
  | text (s : String)
  | list (elements : List Content)
  | mapping (entries : List (String × Content))

mutual

/-- The content of a value. -/
def content : Value → Content
  | null => .null
  | bool b => .bool b
  | number a => .number a.value
  | text s => .text s
  | list xs => .list (contentList xs)
  | mapping es => .mapping (contentEntries es)

/-- The contents of the elements of a list. -/
def contentList : List Value → List Content
  | [] => []
  | x :: xs => x.content :: contentList xs

/-- The contents of the members of a mapping. -/
def contentEntries : List (String × Value) → List (String × Content)
  | [] => []
  | (k, v) :: rest => (k, v.content) :: contentEntries rest

end

theorem contentList_eq (xs : List Value) : contentList xs = xs.map content := by
  induction xs with
  | nil => rfl
  | cons x xs ih => rw [contentList, ih, List.map_cons]

theorem contentEntries_eq (es : Entries Value) : contentEntries es = es.mapValues content := by
  induction es with
  | nil => rfl
  | cons e es ih =>
    obtain ⟨k, v⟩ := e
    rw [contentEntries, ih]
    rfl

/-! ## Members -/

theorem equivalentList_iff {xs ys : List Value} :
    equivalentList xs ys = true ↔ List.Forall₂ (fun x y => x.equivalent y = true) xs ys := by
  induction xs generalizing ys with
  | nil => cases ys <;> simp [equivalentList]
  | cons x xs ih => cases ys <;> simp [equivalentList, ih]

theorem equivalentEntries_iff {es fs : Entries Value} :
    equivalentEntries es fs = true ↔
      ∀ e ∈ es, ∃ w, Entries.lookup e.1 fs = some w ∧ e.2.equivalent w = true := by
  induction es with
  | nil => simp [equivalentEntries]
  | cons e es ih =>
    obtain ⟨k, v⟩ := e
    rw [equivalentEntries, Bool.and_eq_true, ih, List.forall_mem_cons]
    cases Entries.lookup k fs <;> simp

/-- Mappings are equivalent if they have equivalent members under each key. -/
theorem equivalent_mapping_iff {es fs : Entries Value} (hes : Entries.Sorted es)
    (hfs : Entries.Sorted fs) :
    (mapping es).equivalent (mapping fs) = true ↔ ∀ key,
      Option.Rel (fun v w => v.equivalent w = true) (Entries.lookup key es)
        (Entries.lookup key fs) := by
  rw [equivalent, Bool.and_eq_true, beq_iff_eq, equivalentEntries_iff]
  constructor
  · rintro ⟨hlength, hmembers⟩ key
    cases hkey : Entries.lookup key es with
    | some v =>
      obtain ⟨w, hw, hequivalent⟩ := hmembers _ (Entries.mem_of_lookup hkey)
      rw [hw]
      exact .some hequivalent
    | none =>
      -- As many keys, and all those of the one: there is none that the one lacks.
      have hsubset : Entries.keys es ⊆ Entries.keys fs := by
        intro k hk
        obtain ⟨e, he, rfl⟩ := List.mem_map.1 hk
        obtain ⟨w, hw, -⟩ := hmembers e he
        by_contra hnot
        rw [Entries.lookup_eq_none_iff.2 hnot] at hw
        cases hw
      have hperm : (Entries.keys es).Perm (Entries.keys fs) := by
        apply ((Entries.nodup_keys hes).subperm hsubset).perm_of_length_le
        rw [Entries.keys, Entries.keys, List.length_map, List.length_map, hlength]
      have hnone : Entries.lookup key fs = none := by
        rw [Entries.lookup_eq_none_iff, ← hperm.mem_iff, ← Entries.lookup_eq_none_iff]
        exact hkey
      rw [hnone]
      exact .none
  · intro h
    have hkeys : ∀ key, key ∈ Entries.keys es ↔ key ∈ Entries.keys fs := by
      intro key
      rw [← not_iff_not, ← Entries.lookup_eq_none_iff, ← Entries.lookup_eq_none_iff]
      have hkey := h key
      generalize Entries.lookup key es = v at hkey ⊢
      generalize Entries.lookup key fs = w at hkey ⊢
      cases hkey <;> simp
    constructor
    · have hperm := (List.perm_ext_iff_of_nodup (Entries.nodup_keys hes)
        (Entries.nodup_keys hfs)).2 hkeys
      have hlength := hperm.length_eq
      rwa [Entries.keys, Entries.keys, List.length_map, List.length_map] at hlength
    · intro e he
      have hkey := h e.1
      rw [(Entries.lookup_eq_some_iff hes).2 he] at hkey
      generalize Entries.lookup e.1 fs = w at hkey ⊢
      cases hkey with
      | some hequivalent => exact ⟨_, rfl, hequivalent⟩

theorem equivalent_list_iff {xs ys : List Value} : (list xs).equivalent (list ys) = true ↔
    List.Forall₂ (fun x y => x.equivalent y = true) xs ys := by
  rw [equivalent, equivalentList_iff]

theorem equivalent_number_iff {a b : Number} :
    (number a).equivalent (number b) = true ↔ a.value = b.value := by
  rw [equivalent, beq_iff_eq, Number.key_eq_iff]

theorem forall₂_iff_map_eq {α β : Type} {R : α → α → Prop} {f : α → β} {xs ys : List α}
    (h : ∀ x ∈ xs, ∀ y ∈ ys, (R x y ↔ f x = f y)) :
    List.Forall₂ R xs ys ↔ xs.map f = ys.map f := by
  induction xs generalizing ys with
  | nil => cases ys <;> simp
  | cons x xs ih =>
    cases ys with
    | nil => simp
    | cons y ys =>
      have hrest := ih fun x' hx y' hy =>
        h x' (List.mem_cons_of_mem _ hx) y' (List.mem_cons_of_mem _ hy)
      rw [List.forall₂_cons, List.map_cons, List.map_cons, List.cons.injEq, hrest,
        h x (List.mem_cons_self ..) y (List.mem_cons_self ..)]

/-- Values other than numbers and containers are equivalent only to themselves. -/
theorem shape_of_equivalent {v w : Value} (h : v.equivalent w = true) :
    v = w ∨ (∃ a b, v = number a ∧ w = number b) ∨ (∃ xs ys, v = list xs ∧ w = list ys) ∨
      ∃ es fs, v = mapping es ∧ w = mapping fs := by
  cases v <;> cases w <;> simp_all [equivalent]

/-- Values are equivalent if and only if their contents are equal. -/
theorem equivalent_iff_content {v w : Value} (hv : v.Ordered) (hw : w.Ordered) :
    v.equivalent w = true ↔ v.content = w.content := by
  induction hsize : v.nodes using Nat.strong_induction_on generalizing v w with
  | _ n ih =>
    subst hsize
    cases v with
    | number a =>
      cases w with
      | number b => rw [equivalent_number_iff, content, content, Content.number.injEq]
      | _ => simp [equivalent, content]
    | list xs =>
      cases w with
      | list ys =>
        have hmembers : ∀ x ∈ xs, ∀ y ∈ ys, (x.equivalent y = true ↔ x.content = y.content) :=
          fun x hx y hy => ih _ (nodes_lt_list hx) (ordered_list.1 hv x hx) (ordered_list.1 hw y hy)
            rfl
        rw [equivalent_list_iff, content, content, Content.list.injEq, contentList_eq,
          contentList_eq]
        exact forall₂_iff_map_eq hmembers
      | _ => simp [equivalent, content]
    | mapping es =>
      cases w with
      | mapping fs =>
        obtain ⟨hes, hvs⟩ := ordered_mapping.1 hv
        obtain ⟨hfs, hws⟩ := ordered_mapping.1 hw
        rw [equivalent_mapping_iff hes hfs, content, content, Content.mapping.injEq,
          contentEntries_eq, contentEntries_eq, Entries.mapValues_eq_iff hes hfs]
        refine forall_congr' fun key => ?_
        cases hkey : Entries.lookup key es with
        | none => cases Entries.lookup key fs <;> simp
        | some x =>
          cases hkey' : Entries.lookup key fs with
          | none => simp
          | some y =>
            have hx := Entries.mem_of_lookup hkey
            have hy := Entries.mem_of_lookup hkey'
            simp [ih _ (nodes_lt_mapping hx) (hvs _ hx) (hws _ hy) rfl]
      | _ => simp [equivalent, content]
    | _ => cases w <;> simp [equivalent, content]

/-- Equivalence with a scalar is having its key. -/
theorem equivalent_iff_key {v w : Value} {key : ScalarKey} (h : ScalarKey.of? v = some key) :
    w.equivalent v = true ↔ ScalarKey.of? w = some key := by
  cases v with
  | number b =>
    obtain ⟨hnull, hbool, htext⟩ := b.key_ne
    cases h
    cases w <;> simp [equivalent, ScalarKey.of?, hnull.symm, (hbool _).symm, (htext _).symm]
  | _ =>
    cases h <;> cases w <;> simp [equivalent, ScalarKey.of?, Number.key_ne]

end Value

/-! ## Enumerations -/

namespace Enumeration

/-- An enumeration holds what is equivalent to an allowed value. -/
theorem contains_ofList_iff {allowed : List Value} {v : Value} :
    (ofList allowed).contains v = true ↔ ∃ a ∈ allowed, a.equivalent v = true := by
  rw [contains, ofList]
  cases hkey : ScalarKey.of? v with
  | some key =>
    dsimp only
    rw [List.contains_iff_mem, List.mem_filterMap]
    exact exists_congr fun a => and_congr_right fun _ => (Value.equivalent_iff_key hkey).symm
  | none =>
    dsimp only
    rw [List.any_filter, List.any_eq_true]
    refine exists_congr fun a => and_congr_right fun _ => ?_
    -- What is equivalent to a container is a container.
    cases v <;> cases hkey <;> cases a <;> simp [Value.equivalent, ScalarKey.of?]

/-- An enumeration holds what is equivalent to an allowed value.  Equivalence is an equivalence
relation.  Numbers are equivalent if they denote the same number, containers if they are member
by member, and other values if they are equal. -/
theorem contains_iff_equivalent :
    (∀ (allowed : List Value) (v : Value),
      (ofList allowed).contains v = true ↔ ∃ a ∈ allowed, a.equivalent v = true) ∧
    Equivalence (fun v w : { v : Value // v.Ordered } => v.1.equivalent w.1 = true) ∧
    (∀ a b : Number, (Value.number a).equivalent (.number b) = true ↔ a.value = b.value) ∧
    (∀ xs ys : List Value, (Value.list xs).equivalent (.list ys) = true ↔
      List.Forall₂ (fun x y => x.equivalent y = true) xs ys) ∧
    (∀ es fs : Entries Value, Entries.Sorted es → Entries.Sorted fs →
      ((Value.mapping es).equivalent (.mapping fs) = true ↔ ∀ key,
        Option.Rel (fun x y => x.equivalent y = true) (Entries.lookup key es)
          (Entries.lookup key fs))) ∧
    ∀ v w : Value, v.equivalent w = true → v = w ∨
      (∃ a b, v = .number a ∧ w = .number b) ∨ (∃ xs ys, v = .list xs ∧ w = .list ys) ∨
        ∃ es fs, v = .mapping es ∧ w = .mapping fs := by
  have hequivalence :
      Equivalence (fun v w : { v : Value // v.Ordered } => v.1.equivalent w.1 = true) := by
    constructor
    · intro v
      exact (Value.equivalent_iff_content v.2 v.2).2 rfl
    · intro v w h
      rw [Value.equivalent_iff_content v.2 w.2] at h
      exact (Value.equivalent_iff_content w.2 v.2).2 h.symm
    · intro u v w huv hvw
      rw [Value.equivalent_iff_content u.2 v.2] at huv
      rw [Value.equivalent_iff_content v.2 w.2] at hvw
      exact (Value.equivalent_iff_content u.2 w.2).2 (huv.trans hvw)
  exact ⟨fun _ _ => contains_ofList_iff, hequivalence, fun _ _ => Value.equivalent_number_iff,
    fun _ _ => Value.equivalent_list_iff, fun _ _ => Value.equivalent_mapping_iff,
    fun _ _ => Value.shape_of_equivalent⟩

/-- One as an integer. -/
def wholeOne : Value := .number (.integer ⟨1, by decide, by decide⟩)

/-- One as a double. -/
def doubleOne : Value := .number (.float ⟨false, 1023 * 2 ^ 52, by decide⟩)

/-- A mapping that holds the one as an integer is allowed where it is listed with the one as a
double. -/
theorem contains_iff_equivalent_one :
    Entries.Sorted [("a", wholeOne)] ∧ Entries.Sorted [("a", doubleOne)] ∧
      (∃ a ∈ [Value.text "1", .mapping [("a", doubleOne)]],
        a.equivalent (.mapping [("a", wholeOne)]) = true) ∧
      ∀ key, Option.Rel (fun x y => x.equivalent y = true)
        (Entries.lookup key [("a", doubleOne)]) (Entries.lookup key [("a", wholeOne)]) := by
  have hsorted (v : Value) : Entries.Sorted [("a", v)] := List.pairwise_singleton _ _
  have hcontains : (ofList [.text "1", .mapping [("a", doubleOne)]]).contains
      (.mapping [("a", wholeOne)]) = true := by decide +kernel
  have hequivalent : (Value.mapping [("a", doubleOne)]).equivalent (.mapping [("a", wholeOne)]) =
      true := by decide +kernel
  have hmembers := contains_iff_equivalent.2.2.2.2.1 _ _ (hsorted doubleOne) (hsorted wholeOne)
  exact ⟨hsorted wholeOne, hsorted doubleOne, (contains_iff_equivalent.1 _ _).1 hcontains,
    hmembers.1 hequivalent⟩

end Enumeration
end Rulebook
