import Rulebook.Program
import Rulebook.Run

/-!
# Checking the members of containers

Declared entries of a mapping are visited in the order of their keys.  An entry
is looked for under its synonyms and then under its key; what is found is checked
and stored under the entry's output key.  An absent entry takes its default, or
fails if it is required, or is left out.  The remaining keys go to the first
matching pattern, then to the open rule if they pass its key rule, and then to
the policy for unknown keys.

The elements of a list are visited in order.  An element whose index fails the
key rule is left as it is.

How a callee is called is a parameter, since it depends on the links.
-/

namespace Rulebook

variable {γ : Type}

/-- A way of calling rules. -/
abbrev Call (γ : Type) := γ → Value → Run Value

/-- The value a substitute stands for in a call. -/
def Substitute.resolve (s : Substitute) (context : Option Context) : Run Value :=
  match s with
  | literal v => pure v
  | parameter name =>
      match context.bind (Entries.lookup name) with
      | some v => pure v
      | none => Run.fail (.missingParameter name)

namespace OpenRule

/-- The key of the result for a key, unless the key rule refuses it. -/
def key (r : OpenRule γ) (call : Call γ) (k : Value) : Run (Option Value) :=
  match r.keys with
  | none => pure (some k)
  | some callee => do
      match ← (call callee k).attempt with
      | .ok v => pure (some v)
      | .error _ => pure none

/-- The result for a value. -/
def value (r : OpenRule γ) (call : Call γ) (v : Value) : Run Value :=
  match r.values with
  | none => pure v
  | some callee => call callee v

end OpenRule

/-- A value as a key of a mapping: text as it is, and anything else as its JSON
text. -/
def keyText : Value → String
  | .text s => s
  | v => Json.write v

/-- Store the result for an input key under an output key.  The input key goes
when the two differ. -/
def store (key output : String) (v : Value) (out : Entries Value) : Entries Value :=
  Entries.insert output v (if key = output then out else Entries.erase key out)

namespace Entry

/-- The keys under which an entry is looked for, in order. -/
def names (e : Entry γ) : List String := e.synonyms ++ [e.key]

/-- The key and the value found for an entry. -/
def find? (e : Entry γ) (input : Entries Value) : Option (String × Value) :=
  e.names.findSome? fun k => (Entries.lookup k input).map fun v => (k, v)

/-- The result so far, extended by an entry. -/
def apply (call : Call γ) (context : Option Context) (input : Entries Value) (out : Entries Value)
    (e : Entry γ) : Run (Entries Value) :=
  match e.find? input with
  | some (k, v) => do
      let w ← (call e.callee v).under (.key k)
      pure (store k e.output w out)
  | none =>
      match e.default with
      | some d => do
          let w ← d.resolve context
          pure (Entries.insert e.output w out)
      | none =>
          if e.required then (Run.fail .missing).under (.key e.key) else pure out

end Entry

namespace MappingItems

/-- The result so far, extended by the first matching pattern; `none` if no
pattern matches the key. -/
def applyPattern (m : MappingItems γ) (call : Call γ) (key : String) (v : Value)
    (out : Entries Value) : Run (Option (Entries Value)) :=
  match m.patterns.find? fun p => p.pattern.accepts key with
  | none => pure none
  | some p => do
      let w ← (call p.callee v).under (.key key)
      pure (some (store key (p.rename.getD key) w out))

/-- The result so far, extended by the open rule; `none` if it does not claim the
key. -/
def applyOpen (m : MappingItems γ) (call : Call γ) (key : String) (v : Value)
    (out : Entries Value) : Run (Option (Entries Value)) :=
  match m.openRule with
  | none => pure none
  | some r => do
      match ← r.key call (.text key) with
      | none => pure none
      | some output => do
          let w ← (r.value call v).under (.key key)
          pure (some (store key (keyText output) w out))

/-- A result under construction and the keys that nothing claims. -/
structure Progress where
  out : Entries Value
  unclaimed : List String

/-- The progress after a key that may not be declared. -/
def applyOther (m : MappingItems γ) (call : Call γ) (p : Progress) (e : String × Value) :
    Run Progress :=
  if m.declares e.1 then pure p
  else do
    match ← m.applyPattern call e.1 e.2 p.out with
    | some out => pure { p with out }
    | none =>
        match ← m.applyOpen call e.1 e.2 p.out with
        | some out => pure { p with out }
        | none => pure { p with unclaimed := p.unclaimed ++ [e.1] }

/-- The result before any entry: everything, or nothing where unknown keys are
left out. -/
def initial (m : MappingItems γ) (input : Entries Value) : Entries Value :=
  match m.policy with
  | .purge => []
  | .forbid | .allow => input

/-- Check the members of a mapping. -/
def apply (m : MappingItems γ) (call : Call γ) (context : Option Context) (input : Entries Value) :
    Run Value := do
  let declared ← m.entries.foldlM (Entry.apply call context input) (m.initial input)
  let p ← input.foldlM (m.applyOther call) ⟨declared, []⟩
  if m.policy = .forbid ∧ p.unclaimed ≠ [] then Run.fail (.unknownKeys p.unclaimed)
  else pure (.mapping p.out)

end MappingItems

namespace SequenceItems

/-- Check an element of a list. -/
def element (s : SequenceItems γ) (call : Call γ) (v : Value) (index : Nat) : Run Value := do
  match ← s.openRule.key call (Value.ofNat index) with
  | none => pure v
  | some _ => (s.openRule.value call v).under (.index index)

/-- Check the elements of a list. -/
def apply (s : SequenceItems γ) (call : Call γ) (input : List Value) : Run Value := do
  let out ← input.zipIdx.mapM fun e => s.element call e.1 e.2
  pure (.list out)

end SequenceItems

/-- Check the members of a container. -/
def Structure.apply (s : Structure γ) (call : Call γ) (context : Option Context) (v : Value) :
    Run Value :=
  match v, s.mapping, s.sequence with
  | .mapping es, some m, _ => m.apply call context es
  | .list xs, _, some q => q.apply call xs
  | _, some _, some _ => Run.fail .notContainer
  | _, some _, none => Run.fail (.wrongKind .dict)
  | _, none, _ => Run.fail (.wrongKind .list)

end Rulebook
