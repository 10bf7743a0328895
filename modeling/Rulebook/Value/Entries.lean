/-!
# Entries of a mapping

A mapping is the list of its entries, kept in the order of its keys (by code
point) with no key twice.  `Sorted` says so, and the operations below keep it.

What a mapping means is what `lookup` finds in it: each operation has a lemma
that says what it does to lookups, and `eq_of_lookup_eq` says that sorted entries with
the same lookups are the same entries.
-/

namespace Rulebook

/-- Entries of a mapping from text. -/
abbrev Entries (α : Type) := List (String × α)

namespace Entries

variable {α β : Type}

/-- The keys, in order. -/
def keys (es : Entries α) : List String := es.map (·.1)

/-- Keys ascend strictly. -/
def Sorted (es : Entries α) : Prop := (keys es).Pairwise (· < ·)

/-- The argument stored under a key. -/
def lookup (key : String) : Entries α → Option α
  | [] => none
  | (k, v) :: rest => if k = key then some v else lookup key rest

/-- Whether a key occurs. -/
def hasKey (es : Entries α) (key : String) : Bool := (lookup key es).isSome

/-- Store an argument under a key, in the place the order gives it. -/
def insert (key : String) (value : α) : Entries α → Entries α
  | [] => [(key, value)]
  | (k, v) :: rest =>
      if key < k then (key, value) :: (k, v) :: rest
      else if key = k then (key, value) :: rest
      else (k, v) :: insert key value rest

/-- Remove a key. -/
def erase (key : String) : Entries α → Entries α
  | [] => []
  | (k, v) :: rest => if k = key then erase key rest else (k, v) :: erase key rest

/-- Lay one mapping over another: where both have a key, `upper` wins. -/
def overlay (upper base : Entries α) : Entries α :=
  upper.foldl (fun acc e => insert e.1 e.2 acc) base

/-- A mapping from pairs in any order; the last of several with one key wins. -/
def ofList (pairs : List (String × α)) : Entries α := overlay pairs []

/-- Change every argument. -/
def mapValues (f : α → β) (es : Entries α) : Entries β := es.map fun e => (e.1, f e.2)

/-! ## Lookups -/

theorem lookup_insert (key : String) (value : α) (es : Entries α) (k : String) :
    lookup k (insert key value es) = if key = k then some value else lookup k es := by
  induction es with
  | nil => rfl
  | cons e rest ih =>
    obtain ⟨l, v⟩ := e
    by_cases hk : key = k
    · subst hk
      by_cases hlt : key < l
      · simp [insert, hlt, lookup]
      · by_cases heq : key = l
        · simp [insert, ← heq, lookup]
        · simp [insert, hlt, heq, lookup, Ne.symm heq, ih]
    · by_cases hlt : key < l
      · simp [insert, hlt, lookup, hk]
      · by_cases heq : key = l
        · subst heq
          simp [insert, lookup, hk]
        · simp [insert, hlt, heq, lookup, hk, ih]

theorem lookup_erase (key : String) (es : Entries α) (k : String) :
    lookup k (erase key es) = if key = k then none else lookup k es := by
  induction es with
  | nil => simp [erase, lookup]
  | cons e rest ih =>
    obtain ⟨l, v⟩ := e
    by_cases hl : l = key
    · subst hl
      rw [erase, if_pos rfl, ih, lookup]
      split <;> rfl
    · by_cases hk : key = k
      · subst hk
        simp [erase, lookup, hl, ih]
      · simp [erase, lookup, hl, hk, ih]

theorem lookup_filter (p : String → Bool) (es : Entries α) (k : String) :
    lookup k (es.filter fun e => p e.1) = if p k then lookup k es else none := by
  induction es with
  | nil => simp [lookup]
  | cons e rest ih =>
    obtain ⟨l, v⟩ := e
    rw [List.filter_cons]
    by_cases hl : l = k
    · subst hl
      split
      · simp [lookup]
      · rename_i hp
        rw [ih, if_neg hp]
    · split <;> simp [lookup, hl, ih]

theorem lookup_mapValues (f : α → β) (es : Entries α) (k : String) :
    lookup k (mapValues f es) = (lookup k es).map f := by
  induction es with
  | nil => rfl
  | cons e rest ih =>
    by_cases hk : e.1 = k
    · simp [mapValues, lookup, hk]
    · simpa [mapValues, lookup, hk] using ih

theorem keys_mapValues (f : α → β) (es : Entries α) : keys (mapValues f es) = keys es := by
  rw [keys, keys, mapValues, List.map_map]
  rfl

theorem mem_of_lookup {key : String} {value : α} {es : Entries α}
    (h : lookup key es = some value) : (key, value) ∈ es := by
  induction es with
  | nil => simp [lookup] at h
  | cons e rest ih =>
    obtain ⟨k, v⟩ := e
    by_cases hk : k = key
    · simp only [lookup, hk, if_true, Option.some.injEq] at h
      simp [hk, h]
    · exact List.mem_cons_of_mem _ (ih (by simpa [lookup, hk] using h))

/-! ## Order -/

theorem sorted_cons {e : String × α} {es : Entries α} :
    Sorted (e :: es) ↔ (∀ e' ∈ es, e.1 < e'.1) ∧ Sorted es := by
  simp [Sorted, keys]

theorem mem_insert {key : String} {value : α} {es : Entries α} {e : String × α}
    (h : e ∈ insert key value es) : e = (key, value) ∨ e ∈ es := by
  induction es with
  | nil => simpa [insert] using h
  | cons e' rest ih =>
    rw [insert] at h
    split at h
    · simpa using h
    · split at h
      · simp only [List.mem_cons] at h ⊢
        exact h.imp_right Or.inr
      · simp only [List.mem_cons] at h ⊢
        rcases h with h | h
        · exact Or.inr (Or.inl h)
        · exact (ih h).imp_right Or.inr

theorem mem_of_mem_erase {key : String} {es : Entries α} {e : String × α}
    (h : e ∈ erase key es) : e ∈ es := by
  induction es with
  | nil => simp [erase] at h
  | cons e' rest ih =>
    rw [erase] at h
    split at h
    · exact List.mem_cons_of_mem _ (ih h)
    · simp only [List.mem_cons] at h ⊢
      exact h.imp_right ih

theorem sorted_insert {es : Entries α} (hs : Sorted es) (key : String) (value : α) :
    Sorted (insert key value es) := by
  induction es with
  | nil => simp [insert, Sorted, keys]
  | cons e rest ih =>
    obtain ⟨k, v⟩ := e
    obtain ⟨hhead, hrest⟩ := sorted_cons.1 hs
    rw [insert]
    split
    next hlt =>
      refine sorted_cons.2 ⟨fun e he => ?_, hs⟩
      rcases List.mem_cons.1 he with rfl | he
      · exact hlt
      · exact String.lt_trans hlt (hhead e he)
    next hlt =>
      split
      next heq =>
        subst heq
        exact sorted_cons.2 ⟨hhead, hrest⟩
      next hne =>
        refine sorted_cons.2 ⟨fun e he => ?_, ih hrest⟩
        rcases mem_insert he with rfl | he
        · exact String.not_le.1 fun hle => hne (String.le_antisymm hle (String.not_lt.1 hlt))
        · exact hhead e he

theorem sorted_erase {es : Entries α} (hs : Sorted es) (key : String) :
    Sorted (erase key es) := by
  induction es with
  | nil => exact hs
  | cons e rest ih =>
    obtain ⟨hhead, hrest⟩ := sorted_cons.1 hs
    rw [erase]
    split
    · exact ih hrest
    · exact sorted_cons.2 ⟨fun e he => hhead e (mem_of_mem_erase he), ih hrest⟩

theorem sorted_filter {es : Entries α} (hs : Sorted es) (p : String × α → Bool) :
    Sorted (es.filter p) := List.Pairwise.sublist (List.filter_sublist.map _) hs

theorem sorted_overlay {base : Entries α} (hs : Sorted base) (upper : Entries α) :
    Sorted (overlay upper base) := by
  induction upper generalizing base with
  | nil => exact hs
  | cons e rest ih => exact ih (sorted_insert hs e.1 e.2)

theorem sorted_nil : Sorted ([] : Entries α) := List.Pairwise.nil

theorem sorted_ofList (pairs : List (String × α)) : Sorted (ofList pairs) :=
  sorted_overlay sorted_nil pairs

theorem sorted_mapValues {es : Entries α} (hs : Sorted es) (f : α → β) :
    Sorted (mapValues f es) := by
  rw [Sorted, keys_mapValues]
  exact hs

/-- In sorted entries each entry is the one its key finds. -/
theorem lookup_eq_some_iff {es : Entries α} (hs : Sorted es) {key : String} {value : α} :
    lookup key es = some value ↔ (key, value) ∈ es := by
  refine ⟨mem_of_lookup, fun h => ?_⟩
  induction es with
  | nil => simp at h
  | cons e rest ih =>
    obtain ⟨hhead, hrest⟩ := sorted_cons.1 hs
    rcases List.mem_cons.1 h with rfl | h
    · simp [lookup]
    · have hne : e.1 ≠ key := fun heq => String.lt_irrefl _ (heq ▸ hhead _ h)
      simpa [lookup, hne] using ih hrest h

theorem lookup_overlay {upper : Entries α} (hs : Sorted upper) (base : Entries α)
    (k : String) : lookup k (overlay upper base) = (lookup k upper).or (lookup k base) := by
  induction upper generalizing base with
  | nil => rfl
  | cons e rest ih =>
    obtain ⟨hhead, hrest⟩ := sorted_cons.1 hs
    have hstep : overlay (e :: rest) base = overlay rest (insert e.1 e.2 base) := rfl
    rw [hstep, ih hrest, lookup_insert]
    by_cases hk : e.1 = k
    · have hnone : lookup k rest = none := by
        cases hfind : lookup k rest with
        | none => rfl
        | some v =>
          have hlt : e.1 < k := hhead _ (mem_of_lookup hfind)
          exact absurd (hk ▸ hlt) (String.lt_irrefl k)
      simp [lookup, hk, hnone]
    · simp [lookup, hk]

/-- Sorted entries are determined by what is found under each key. -/
theorem eq_of_lookup_eq {es fs : Entries α} (hes : Sorted es) (hfs : Sorted fs)
    (h : ∀ k, lookup k es = lookup k fs) : es = fs := by
  have hmem : ∀ e, e ∈ es ↔ e ∈ fs := fun e => by
    rw [← lookup_eq_some_iff hes, ← lookup_eq_some_iff hfs, h]
  have hordered {gs : Entries α} (hgs : Sorted gs) : gs.Pairwise fun e e' => e.1 < e'.1 :=
    List.pairwise_map.1 hgs
  have hnodup {gs : Entries α} (hgs : Sorted gs) : gs.Nodup :=
    (hordered hgs).imp fun {a b} (hlt : a.1 < b.1) (heq : a = b) =>
      String.lt_irrefl b.1 (heq ▸ hlt)
  exact ((List.perm_ext_iff_of_nodup (hnodup hes) (hnodup hfs)).2 hmem).eq_of_pairwise
    (fun _ _ _ _ hlt hgt => absurd hgt (String.lt_asymm hlt)) (hordered hes) (hordered hfs)

end Entries

end Rulebook
