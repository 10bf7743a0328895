import Rulebook.Number.Basic
import Rulebook.Value.Entries

/-!
# Values

The data that rules are written in and that validators check: null, booleans,
numbers, text, lists and mappings.  Functions on nested values come in threes,
one for a value, one for a list of them and one for entries.

`Value.same` is the equality by which a running validator recognizes a value it
is already working on.  It keeps integers and doubles apart and does not tell
the two zeros apart.
-/

namespace Rulebook

/-- A nested value. -/
inductive Value where
  | null
  | bool (b : Bool)
  | number (n : Number)
  | text (s : String)
  | list (elements : List Value)
  | mapping (entries : List (String × Value))

instance : Inhabited Value := ⟨.null⟩

mutual

/-- Equality of values is decidable. -/
def Value.decEq : (a b : Value) → Decidable (a = b)
  | .null, .null => isTrue rfl
  | .bool a, .bool b =>
      if h : a = b then isTrue (h ▸ rfl) else isFalse (fun e => h (Value.bool.inj e))
  | .number a, .number b =>
      if h : a = b then isTrue (h ▸ rfl) else isFalse (fun e => h (Value.number.inj e))
  | .text a, .text b =>
      if h : a = b then isTrue (h ▸ rfl) else isFalse (fun e => h (Value.text.inj e))
  | .list a, .list b =>
      match Value.decEqList a b with
      | isTrue h => isTrue (h ▸ rfl)
      | isFalse h => isFalse (fun e => h (Value.list.inj e))
  | .mapping a, .mapping b =>
      match Value.decEqEntries a b with
      | isTrue h => isTrue (h ▸ rfl)
      | isFalse h => isFalse (fun e => h (Value.mapping.inj e))
  | .null, .bool _ | .null, .number _ | .null, .text _ | .null, .list _ | .null, .mapping _
  | .bool _, .null | .bool _, .number _ | .bool _, .text _ | .bool _, .list _
  | .bool _, .mapping _ | .number _, .null | .number _, .bool _ | .number _, .text _
  | .number _, .list _ | .number _, .mapping _ | .text _, .null | .text _, .bool _
  | .text _, .number _ | .text _, .list _ | .text _, .mapping _ | .list _, .null
  | .list _, .bool _ | .list _, .number _ | .list _, .text _ | .list _, .mapping _
  | .mapping _, .null | .mapping _, .bool _ | .mapping _, .number _ | .mapping _, .text _
  | .mapping _, .list _ => isFalse (fun e => nomatch e)

/-- Equality of lists of values is decidable. -/
def Value.decEqList : (a b : List Value) → Decidable (a = b)
  | [], [] => isTrue rfl
  | [], _ :: _ => isFalse (fun e => nomatch e)
  | _ :: _, [] => isFalse (fun e => nomatch e)
  | a :: as, b :: bs =>
      match Value.decEq a b, Value.decEqList as bs with
      | isTrue h, isTrue hs => isTrue (h ▸ hs ▸ rfl)
      | isFalse h, _ => isFalse (fun e => h (List.cons.inj e).1)
      | _, isFalse hs => isFalse (fun e => hs (List.cons.inj e).2)

/-- Equality of entries is decidable. -/
def Value.decEqEntries : (a b : List (String × Value)) → Decidable (a = b)
  | [], [] => isTrue rfl
  | [], _ :: _ => isFalse (fun e => nomatch e)
  | _ :: _, [] => isFalse (fun e => nomatch e)
  | (k, a) :: as, (l, b) :: bs =>
      if hk : k = l then
        match Value.decEq a b, Value.decEqEntries as bs with
        | isTrue h, isTrue hs => isTrue (hk ▸ h ▸ hs ▸ rfl)
        | isFalse h, _ => isFalse (fun e => h (Prod.mk.inj (List.cons.inj e).1).2)
        | _, isFalse hs => isFalse (fun e => hs (List.cons.inj e).2)
      else isFalse (fun e => hk (Prod.mk.inj (List.cons.inj e).1).1)

end

instance : DecidableEq Value := Value.decEq

namespace Value

/-- Whether the value is null. -/
def isNull : Value → Bool
  | null => true
  | _ => false

/-- The text, if the value is one. -/
def text? : Value → Option String
  | text s => some s
  | _ => none

/-- The entries, if the value is a mapping. -/
def entries? : Value → Option (Entries Value)
  | mapping es => some es
  | _ => none

/-- An integer value, if the integer fits a word. -/
def ofInt? (i : Int) : Option Value := (Number.ofInt? i).map number

/-- A small whole number as a value. -/
def ofNat (n : Nat) : Value := number (Number.ofIndex n)

mutual

/-- The equality by which a value under way is recognized. -/
def same : Value → Value → Bool
  | null, null => true
  | bool a, bool b => a == b
  | number a, number b => a.same b
  | text a, text b => a == b
  | list a, list b => sameList a b
  | mapping a, mapping b => sameEntries a b
  | _, _ => false

/-- Lists are the same when they agree element by element. -/
def sameList : List Value → List Value → Bool
  | [], [] => true
  | a :: as, b :: bs => same a b && sameList as bs
  | _, _ => false

/-- Mappings are the same when they agree entry by entry. -/
def sameEntries : List (String × Value) → List (String × Value) → Bool
  | [], [] => true
  | (k, a) :: as, (l, b) :: bs => k == l && same a b && sameEntries as bs
  | _, _ => false

end

end Value

end Rulebook
