import Rulebook.Identity.SchemaId
import Rulebook.Program
import Rulebook.Value.Size

/-!
# Sources of a compilation

A batch of rules is compiled against what is registered already: named rules,
their links, and links to compiled rules by identity.  Rules of the batch come
before registered rules of the same name.
-/

namespace Rulebook

/-- What a batch is compiled from. -/
structure Source where
  /-- The rules of the batch, in one spelling. -/
  batch : Entries Value
  /-- The options of the batch. -/
  options : Options
  /-- The rules registered before. -/
  registered : Entries Value
  /-- The links of names known before. -/
  nameLinks : Entries Link
  /-- The links of rules compiled before. -/
  cache : List (SchemaId × Link)
  /-- The programs bound before. -/
  bindings : Bindings
  coercions : CoercionTable
  digest : Digest

namespace Source

/-- The rule a name stands for. -/
def lookup (s : Source) (name : String) : Option Value :=
  (Entries.lookup name s.batch).or (Entries.lookup name s.registered)

/-- The number of rules with a name. -/
def ruleCount (s : Source) : Nat := s.batch.length + s.registered.length

/-- The number of nodes of all rules. -/
def nodes (s : Source) : Nat := Value.nodesEntries s.batch + Value.nodesEntries s.registered

end Source

end Rulebook
