import Mathlib.Data.List.Nodup
import Rulebook.Value.Basic

/-!
# Values with ordered mappings

A value is ordered if the entries of every mapping in it are.  Values that come
from outside are, since mappings are kept in the order of their keys.
-/

namespace Rulebook
namespace Value

mutual

/-- The entries of every mapping in the value are in the order of their keys. -/
def Ordered : Value → Prop
  | list xs => OrderedList xs
  | mapping es => Entries.Sorted es ∧ OrderedEntries es
  | _ => True

/-- The elements of a list are ordered. -/
def OrderedList : List Value → Prop
  | [] => True
  | x :: xs => x.Ordered ∧ OrderedList xs

/-- The members of a mapping are ordered. -/
def OrderedEntries : List (String × Value) → Prop
  | [] => True
  | (_, v) :: rest => v.Ordered ∧ OrderedEntries rest

end

theorem orderedList_iff {xs : List Value} : OrderedList xs ↔ ∀ x ∈ xs, x.Ordered := by
  induction xs with
  | nil => simp [OrderedList]
  | cons x xs ih => simp [OrderedList, ih]

theorem orderedEntries_iff {es : Entries Value} :
    OrderedEntries es ↔ ∀ e ∈ es, e.2.Ordered := by
  induction es with
  | nil => simp [OrderedEntries]
  | cons e es ih =>
    obtain ⟨k, v⟩ := e
    simp [OrderedEntries, ih]

theorem ordered_list {xs : List Value} : Ordered (list xs) ↔ ∀ x ∈ xs, x.Ordered := by
  rw [Ordered, orderedList_iff]

theorem ordered_mapping {es : Entries Value} :
    Ordered (mapping es) ↔ Entries.Sorted es ∧ ∀ e ∈ es, e.2.Ordered := by
  rw [Ordered, orderedEntries_iff]

end Value

namespace Entries

variable {α : Type}

theorem mem_of_mem_overlay {upper base : Entries α} {e : String × α}
    (h : e ∈ overlay upper base) : e ∈ upper ∨ e ∈ base := by
  rw [overlay] at h
  induction upper generalizing base with
  | nil => exact Or.inr h
  | cons f upper ih =>
    rw [List.foldl_cons] at h
    rcases ih h with h | h
    · exact Or.inl (List.mem_cons_of_mem _ h)
    · rcases mem_insert h with h | h
      · rw [h]
        exact Or.inl (List.mem_cons_self ..)
      · exact Or.inr h

theorem lookup_overlay_of_not_mem {upper base : Entries α} {key : String} (h : key ∉ keys upper) :
    lookup key (overlay upper base) = lookup key base := by
  rw [overlay]
  induction upper generalizing base with
  | nil => rfl
  | cons e upper ih =>
    have hkey : e.1 ≠ key := by
      rintro rfl
      exact h (List.mem_cons_self ..)
    rw [List.foldl_cons, ih fun hmem => h (List.mem_cons_of_mem _ hmem), lookup_insert, if_neg hkey]

theorem lookup_eq_none_iff {es : Entries α} {key : String} :
    lookup key es = none ↔ key ∉ keys es := by
  induction es with
  | nil => simp [lookup, keys]
  | cons e es ih =>
    obtain ⟨k, v⟩ := e
    by_cases hk : k = key
    · simp [lookup, keys, hk]
    · have hne : key ≠ k := Ne.symm hk
      rw [lookup, if_neg hk, ih]
      simp [keys, hne]

theorem not_mem_keys_erase (key : String) (es : Entries α) : key ∉ keys (erase key es) := by
  induction es with
  | nil => exact List.not_mem_nil
  | cons e es ih =>
    rw [erase]
    split
    · exact ih
    · rename_i hne
      exact List.not_mem_cons_of_ne_of_not_mem (fun heq => hne heq.symm) ih

theorem isSome_lookup_overlay {upper base : Entries α} {key : String}
    (h : key ∈ keys upper ∨ (lookup key base).isSome) : (lookup key (overlay upper base)).isSome := by
  rw [overlay]
  induction upper generalizing base with
  | nil =>
    rcases h with h | h
    · cases h
    · exact h
  | cons e upper ih =>
    rw [List.foldl_cons]
    apply ih
    by_cases hkey : e.1 = key
    · right
      rw [lookup_insert, if_pos hkey]
      rfl
    · rcases h with h | h
      · rcases List.mem_cons.1 h with heq | h
        · exact absurd heq.symm hkey
        · exact Or.inl h
      · right
        rw [lookup_insert, if_neg hkey]
        exact h

theorem nodup_keys {es : Entries α} (hes : Sorted es) : (keys es).Nodup := by
  refine List.Pairwise.imp ?_ hes
  rintro key _ hlt rfl
  exact String.lt_irrefl key hlt

/-- What is found among pairs is one of them. -/
theorem mem_of_lookup_ofList {es : Entries α} {key : String} {v : α}
    (h : lookup key (ofList es) = some v) : (key, v) ∈ es := by
  rcases mem_of_mem_overlay (mem_of_lookup h) with hmem | hmem
  · exact hmem
  · cases hmem

/-- A pair that is the only one with its key is found under it. -/
theorem lookup_ofList_of_unique {es : Entries α} {key : String} {v : α} (h : (key, v) ∈ es)
    (hunique : ∀ w, (key, w) ∈ es → w = v) : lookup key (ofList es) = some v := by
  have hsome : (lookup key (ofList es)).isSome :=
    isSome_lookup_overlay (Or.inl (List.mem_map_of_mem h))
  obtain ⟨w, hw⟩ := Option.isSome_iff_exists.1 hsome
  rw [hw, hunique w (mem_of_lookup_ofList hw)]

/-- Where no key is given twice, each pair is found under its key. -/
theorem lookup_ofList {es : Entries α} (hes : (keys es).Nodup) {key : String} {v : α} :
    lookup key (ofList es) = some v ↔ (key, v) ∈ es := by
  constructor
  · exact mem_of_lookup_ofList
  · intro h
    refine lookup_ofList_of_unique h fun w hw => ?_
    have heq : (key, w) = (key, v) := List.inj_on_of_nodup_map hes hw h rfl
    exact (Prod.mk.inj heq).2

/-- Pairs with different keys may be given in any order. -/
theorem ofList_eq_ofList_of_perm {es fs : Entries α} (hes : (keys es).Nodup)
    (hperm : fs.Perm es) : ofList fs = ofList es := by
  have hfs : (keys fs).Nodup := (hperm.map _).nodup_iff.2 hes
  apply eq_of_lookup_eq (sorted_ofList fs) (sorted_ofList es)
  intro key
  apply Option.ext
  intro v
  rw [lookup_ofList hfs, lookup_ofList hes, hperm.mem_iff]

/-- Sorted entries are found again from any arrangement of them. -/
theorem ofList_eq_of_perm {es fs : Entries α} (hes : Sorted es) (hperm : fs.Perm es) :
    ofList fs = es := by
  rw [ofList_eq_ofList_of_perm (nodup_keys hes) hperm]
  apply eq_of_lookup_eq (sorted_ofList es) hes
  intro key
  apply Option.ext
  intro v
  rw [lookup_ofList (nodup_keys hes), lookup_eq_some_iff hes]

/-! ## Changed arguments -/

theorem insert_mapValues {β : Type} (f : α → β) (key : String) (value : α) (es : Entries α) :
    insert key (f value) (mapValues f es) = mapValues f (insert key value es) := by
  induction es with
  | nil => rfl
  | cons e es ih =>
    obtain ⟨k, v⟩ := e
    simp only [mapValues, List.map_cons, insert] at ih ⊢
    split
    · rfl
    · split
      · rfl
      · rw [List.map_cons, ih]

/-- Arguments may be changed before or after one mapping is laid over another. -/
theorem overlay_mapValues {β : Type} (f : α → β) (upper base : Entries α) :
    overlay (mapValues f upper) (mapValues f base) = mapValues f (overlay upper base) := by
  induction upper generalizing base with
  | nil => rfl
  | cons e upper ih =>
    have hstep : overlay (e :: upper) base = overlay upper (insert e.1 e.2 base) := rfl
    rw [hstep, ← ih, ← insert_mapValues]
    rfl

/-- Arguments are changed alike if and only if they are under each key. -/
theorem mapValues_eq_iff {β : Type} {f : α → β} {es fs : Entries α} (hes : Sorted es)
    (hfs : Sorted fs) : mapValues f es = mapValues f fs ↔
      ∀ key, (lookup key es).map f = (lookup key fs).map f := by
  constructor
  · intro h key
    rw [← lookup_mapValues, h, lookup_mapValues]
  · intro h
    apply eq_of_lookup_eq (sorted_mapValues hes f) (sorted_mapValues hfs f)
    intro key
    rw [lookup_mapValues, lookup_mapValues, h]

end Entries

namespace Value

/-- Entries that are put in order are ordered if their arguments are. -/
theorem ordered_ofList {es : List (String × Value)} (h : ∀ e ∈ es, e.2.Ordered) :
    Ordered (mapping (Entries.ofList es)) := by
  refine ordered_mapping.2 ⟨Entries.sorted_ofList es, ?_⟩
  intro e he
  rcases Entries.mem_of_mem_overlay he with he | he
  · exact h e he
  · cases he

end Value
end Rulebook
