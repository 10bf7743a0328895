import Rulebook.Options.Text
import Rulebook.Registration
import Rulebook.Proofs.Evaluation.Order
import Rulebook.Proofs.Number.Units
import Rulebook.Proofs.Value.NegativeZero
import Rulebook.Proofs.Compilation.Flattening
import Rulebook.Proofs.Evaluation.Reentry
import Rulebook.Proofs.Rule.Reading
import Rulebook.Proofs.Rule.Stages
import Rulebook.Proofs.Compilation.Links
import Rulebook.Proofs.Compilation.Resolution
import Rulebook.Proofs.Compilation.Moves
import Rulebook.Proofs.Compilation.Linkage
import Rulebook.Proofs.Compilation.Invariant
import Rulebook.Proofs.Registry.History
import Rulebook.Proofs.Registry.Guard
import Rulebook.Proofs.Compilation.Names
import Rulebook.Proofs.Compilation.Forms
import Rulebook.Proofs.Registry.Examples
import Rulebook.Proofs.Compilation.SameForm
import Rulebook.Proofs.Interpretation.Basic
import Rulebook.Proofs.Interpretation.Refinement
import Rulebook.Proofs.Evaluation.Passing
import Rulebook.Proofs.Registry.SchemaOfSchemas
import Rulebook.Proofs.Compilation.Inherited
import Rulebook.Proofs.Registry.Meaning
import Rulebook.Proofs.Identity.Canonical
import Rulebook.Proofs.Number.Interval
import Rulebook.Proofs.Number.Shortest
import Rulebook.Proofs.Json.Double
import Rulebook.Proofs.Identity.Genuine
import Rulebook.Proofs.Compilation.Order
import Rulebook.Proofs.Evaluation.Relink
import Rulebook.Proofs.Registry.Sharing
import Rulebook.Proofs.Evaluation.Callees
import Rulebook.Proofs.Compilation.Origin
import Rulebook.Proofs.Registry.Isolation
import Rulebook.Proofs.Evaluation.Dialogue
import Rulebook.Proofs.Evaluation.Questions
import Rulebook.Proofs.Registry.Representation
import Rulebook.Proofs.Evaluation.Ending
import Rulebook.Proofs.Registry.Termination
import Rulebook.Proofs.Compilation.Unfolding
import Rulebook.Proofs.Compilation.Draining
import Rulebook.Proofs.Registry.Registration
import Rulebook.Proofs.Registry.Publication
import Rulebook.Proofs.Registry.Handles
import Rulebook.Proofs.Evaluation.Simulation
import Rulebook.Proofs.Compilation.SameRules
import Rulebook.Proofs.Compilation.Known
import Rulebook.Proofs.Registry.Repetition
import Rulebook.Proofs.Compilation.Renumbering
import Rulebook.Proofs.Registry.Renumbering
import Rulebook.Proofs.Registry.Session
import Rulebook.Proofs.Evaluation.Renumbering
import Rulebook.Proofs.Registry.Artifacts
import Rulebook.Proofs.Evaluation.Deciding
import Rulebook.Proofs.Rule.Grammar
import Rulebook.Proofs.Registry.Grammar
import Rulebook.Proofs.Compilation.Refusals
import Rulebook.Proofs.Compilation.Malformed
import Rulebook.Proofs.Registry.Malformed
import Rulebook.Proofs.Compilation.Called
import Rulebook.Proofs.Compilation.Standalone
import Rulebook.Proofs.Interpretation.Identities
import Rulebook.Proofs.Registry.Parts
import Rulebook.Proofs.Registry.Batching
import Rulebook.Proofs.Evaluation.Failing
import Rulebook.Proofs.Evaluation.Locating
import Rulebook.Proofs.Registry.Locating
import Rulebook.Proofs.Evaluation.Testing
import Rulebook.Proofs.Compilation.Testing
import Rulebook.Proofs.Registry.Testing
import Rulebook.Proofs.Value.Bounds
import Rulebook.Proofs.Value.Depth
import Rulebook.Proofs.Evaluation.Recursion
import Rulebook.Proofs.Registry.Recursion
import Rulebook.Proofs.Evaluation.Parameters
import Rulebook.Proofs.Registry.Parameters
import Rulebook.Proofs.Rule.Respelling
import Rulebook.Proofs.Rule.NormalForm
import Rulebook.Proofs.Structure.Contributions
import Rulebook.Proofs.Compilation.Contained
import Rulebook.Proofs.Evaluation.Relabelling
import Rulebook.Proofs.Interpretation.Containment
import Rulebook.Proofs.Registry.Containment
import Rulebook.Proofs.Structure.Policies
import Rulebook.Proofs.Evaluation.Traversal
import Rulebook.Proofs.Structure.Items
import Rulebook.Proofs.Structure.Stability
import Rulebook.Proofs.Compilation.Cycles
import Rulebook.Proofs.Registry.Cycles
import Rulebook.Proofs.Number.Denotation
import Rulebook.Proofs.Number.Rounding
import Rulebook.Proofs.Value.Equivalence
import Rulebook.Proofs.Number.Numerals
import Rulebook.Proofs.Coercion.Kinds
import Rulebook.Proofs.Coercion.Integers
import Rulebook.Proofs.Compilation.Remaps
import Rulebook.Proofs.Evaluation.Reports
import Rulebook.Proofs.Compilation.Lineage
import Rulebook.Proofs.Regex.WholeText
