import Mathlib.Logic.Function.Basic
import Rulebook.Identity.SchemaId
import Rulebook.Proofs.Identity.Canonical
import Rulebook.Proofs.Json.Double

/-!
# Rules told apart by their identities

The canonical text replaces a double by a mapping that holds its text, and
nothing keeps a rule from holding such a mapping itself.  Among values that do not,
the canonical text tells all values apart, doubles included.  So identities under
a digest without collisions tell apart all rules of this kind, together with the
options that take part.
-/

namespace Rulebook
namespace Canonical

mutual

/-- No mapping in the value is one by which a double is replaced. -/
def Genuine : Value → Prop
  | .list xs => GenuineList xs
  | .mapping es =>
      (∀ x, es ≠ [(floatTag, .text (floatLayout.write x))]) ∧ GenuineEntries es
  | _ => True

/-- The elements of a list are genuine. -/
def GenuineList : List Value → Prop
  | [] => True
  | x :: xs => Genuine x ∧ GenuineList xs

/-- The members of a mapping are genuine. -/
def GenuineEntries : List (String × Value) → Prop
  | [] => True
  | (_, v) :: rest => Genuine v ∧ GenuineEntries rest

end

theorem floatText_injective {x y : Binary64} (h : floatLayout.write x = floatLayout.write y) :
    x = y :=
  Json.write_injective (Or.inl rfl) h

/-! ## What becomes of a value -/

theorem tagged_eq_list {v : Value} {ys : List Value} (h : tagged v = .list ys) :
    ∃ xs, v = .list xs ∧ taggedList xs = ys := by
  cases v with
  | list xs =>
    rw [tagged] at h
    exact ⟨xs, rfl, Value.list.inj h⟩
  | number n => cases n <;> simp [tagged] at h
  | _ => simp [tagged] at h

theorem tagged_eq_mapping {v : Value} {fs : List (String × Value)} (h : tagged v = .mapping fs) :
    (∃ x, v = .number (.float x) ∧ fs = [(floatTag, .text (floatLayout.write x))]) ∨
      ∃ es, v = .mapping es ∧ taggedEntries es = fs := by
  cases v with
  | mapping es =>
    rw [tagged] at h
    exact Or.inr ⟨es, rfl, Value.mapping.inj h⟩
  | number n =>
    cases n with
    | integer i => simp [tagged] at h
    | float x =>
      rw [tagged] at h
      exact Or.inl ⟨x, rfl, (Value.mapping.inj h).symm⟩
  | _ => simp [tagged] at h

/-- What is no container after the replacement has not been replaced. -/
theorem tagged_eq_plain {v w : Value} (hlist : ∀ ys, w ≠ .list ys) (hmapping : ∀ fs, w ≠ .mapping fs)
    (h : tagged v = w) : v = w := by
  cases v with
  | list xs =>
    rw [tagged] at h
    exact absurd h.symm (hlist _)
  | mapping es =>
    rw [tagged] at h
    exact absurd h.symm (hmapping _)
  | number n =>
    cases n with
    | integer i => simpa [tagged] using h
    | float x =>
      rw [tagged] at h
      exact absurd h.symm (hmapping _)
  | _ => simpa [tagged] using h

/-! ## Genuine values -/

/-- Genuine members do not become the text of a double. -/
theorem taggedEntries_ne_float {es : List (String × Value)}
    (h : ∀ x, es ≠ [(floatTag, .text (floatLayout.write x))]) (x : Binary64) :
    taggedEntries es ≠ [(floatTag, .text (floatLayout.write x))] := by
  intro heq
  cases es with
  | nil => cases heq
  | cons e rest =>
    obtain ⟨k, v⟩ := e
    rw [taggedEntries] at heq
    obtain ⟨hhead, hrest⟩ := List.cons.inj heq
    obtain ⟨rfl, hv⟩ := Prod.mk.inj hhead
    cases rest with
    | nil =>
      rw [tagged_eq_plain (by simp) (by simp) hv] at h
      exact h x rfl
    | cons f rest => cases hrest

mutual

/-- Genuine values are told apart by what they become when their doubles are
replaced. -/
theorem eq_of_tagged_eq : ∀ v w : Value, Genuine v → Genuine w → tagged w = tagged v → w = v
  | .list xs, w, hv, hw, h => by
    rw [tagged] at h
    obtain ⟨ys, rfl, hys⟩ := tagged_eq_list h
    rw [Genuine] at hv hw
    rw [eq_of_taggedList_eq xs ys hv hw hys]
  | .mapping es, w, hv, hw, h => by
    rw [tagged] at h
    rw [Genuine] at hv
    rcases tagged_eq_mapping h with ⟨x, -, heq⟩ | ⟨fs, rfl, hfs⟩
    · exact absurd heq (taggedEntries_ne_float hv.1 x)
    · rw [Genuine] at hw
      rw [eq_of_taggedEntries_eq es fs hv.2 hw.2 hfs]
  | .number (.float x), w, _, hw, h => by
    rw [tagged] at h
    rcases tagged_eq_mapping h with ⟨y, rfl, heq⟩ | ⟨fs, rfl, hfs⟩
    · have htext := Value.text.inj (Prod.mk.inj (List.cons.inj heq).1).2
      rw [floatText_injective htext]
    · rw [Genuine] at hw
      exact absurd hfs (taggedEntries_ne_float hw.1 x)
  | .number (.integer i), w, _, _, h => tagged_eq_plain (by simp) (by simp) (by simpa [tagged] using h)
  | .null, w, _, _, h => tagged_eq_plain (by simp) (by simp) (by simpa [tagged] using h)
  | .bool b, w, _, _, h => tagged_eq_plain (by simp) (by simp) (by simpa [tagged] using h)
  | .text s, w, _, _, h => tagged_eq_plain (by simp) (by simp) (by simpa [tagged] using h)

theorem eq_of_taggedList_eq : ∀ xs ys : List Value, GenuineList xs → GenuineList ys →
    taggedList ys = taggedList xs → ys = xs
  | [], [], _, _, _ => rfl
  | [], _ :: _, _, _, h => by simp [taggedList] at h
  | _ :: _, [], _, _, h => by simp [taggedList] at h
  | x :: xs, y :: ys, hx, hy, h => by
    rw [GenuineList] at hx hy
    rw [taggedList, taggedList] at h
    obtain ⟨hhead, htail⟩ := List.cons.inj h
    rw [eq_of_tagged_eq x y hx.1 hy.1 hhead, eq_of_taggedList_eq xs ys hx.2 hy.2 htail]

theorem eq_of_taggedEntries_eq : ∀ es fs : List (String × Value), GenuineEntries es →
    GenuineEntries fs → taggedEntries fs = taggedEntries es → fs = es
  | [], [], _, _, _ => rfl
  | [], (_, _) :: _, _, _, h => by simp [taggedEntries] at h
  | (_, _) :: _, [], _, _, h => by simp [taggedEntries] at h
  | (k, v) :: es, (l, w) :: fs, hv, hw, h => by
    rw [GenuineEntries] at hv hw
    rw [taggedEntries, taggedEntries] at h
    obtain ⟨hhead, htail⟩ := List.cons.inj h
    obtain ⟨rfl, hvalue⟩ := Prod.mk.inj hhead
    rw [eq_of_tagged_eq v w hv.1 hw.1 hvalue, eq_of_taggedEntries_eq es fs hv.2 hw.2 htail]

end

/-- Genuine values are told apart by their canonical bytes. -/
theorem eq_of_bytes_eq {v w : Value} (hv : v.Ordered) (hw : w.Ordered) (gv : Genuine v)
    (gw : Genuine w) (h : bytes v = bytes w) : v = w :=
  eq_of_tagged_eq w v gw gv ((bytes_eq_iff hv hw).1 h)

end Canonical

namespace SchemaId

open Canonical

theorem ordered_subject {rule : Value} (h : rule.Ordered) (o : Options) :
    (subject rule o).Ordered := by
  have hkeys : ["allow_unknown", "break_loops", "purge_unknown", "require_all"].Pairwise
      (· < ·) := by decide
  have hparts : ["options", "rule"].Pairwise (· < ·) := by decide
  have hpolicy : (policy o).Ordered := by
    refine Value.ordered_mapping.2 ⟨hkeys, ?_⟩
    intro e he
    simp only [List.mem_cons, List.not_mem_nil, or_false] at he
    rcases he with rfl | rfl | rfl | rfl <;> exact trivial
  refine Value.ordered_mapping.2 ⟨hparts, ?_⟩
  intro e he
  simp only [List.mem_cons, List.not_mem_nil, or_false] at he
  rcases he with rfl | rfl
  · exact hpolicy
  · exact h

theorem genuine_subject {rule : Value} (h : Genuine rule) (o : Options) :
    Genuine (subject rule o) := by
  simp [subject, policy, Genuine, GenuineEntries, h]

/-- Without collisions of digests, an identity tells what it was computed over. -/
theorem eq_of_of_eq {digest : Digest} (hdigest : Function.Injective digest) {v w : Value}
    {o o' : Options} (hv : v.Ordered) (hw : w.Ordered) (gv : Genuine v) (gw : Genuine w)
    (h : SchemaId.of digest v o = SchemaId.of digest w o') : v = w ∧ policy o = policy o' := by
  have hbytes := hdigest (SchemaId.mk.inj h)
  have hsubject := eq_of_bytes_eq (ordered_subject hv o) (ordered_subject hw o')
    (genuine_subject gv o) (genuine_subject gw o') hbytes
  simp only [subject, Value.mapping.injEq, List.cons.injEq, Prod.mk.injEq, true_and,
    and_true] at hsubject
  exact ⟨hsubject.2, hsubject.1⟩

end SchemaId
end Rulebook
