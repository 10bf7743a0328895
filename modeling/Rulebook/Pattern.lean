import Rulebook.Regex.Matching
import Rulebook.Regex.Parser

/-!
# Patterns

A pattern is the source of a regular expression that a whole text has to match.
The source is put between anchors as text, and the result is read and searched
for as one expression.
-/

namespace Rulebook

/-- The source of a pattern together with its anchored expression. -/
structure Pattern where
  source : String
  expr : Regex.Expr

namespace Pattern

/-- The source of a pattern between anchors. -/
def anchored (source : String) : List Char := "^(?:".toList ++ source.toList ++ ")$".toList

/-- The pattern of a source, if the anchored source is a regular expression whose size by
the measure is admissible. -/
def ofSource? (m : Regex.Measure) (source : String) : Option Pattern :=
  ((Regex.Tree.parse? (anchored source)).bind (Regex.Tree.expr? {})).bind fun (e, _) =>
    if m.size e ≤ Regex.sizeLimit then some ⟨source, e⟩ else none

/-- Whether a text matches a pattern. -/
def accepts (p : Pattern) (text : String) : Bool := p.expr.search text.toList

end Pattern

end Rulebook
