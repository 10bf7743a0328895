import Rulebook.Identity.Canonical
import Rulebook.Identity.Sha256
import Rulebook.Options

/-!
# Identities of rules

A compiled rule is known by a digest of the rule together with those options
that its meaning depends on.  The name it was registered under and the order in
which it was written play no part.  The digest is a parameter; `Sha256.digest`
is the one in general use, and `id` keeps the canonical bytes themselves.
-/

namespace Rulebook

/-- A digest of bytes. -/
abbrev Digest := List UInt8 → List UInt8

/-- The identity of a rule under options. -/
structure SchemaId where
  bytes : List UInt8
deriving DecidableEq

namespace SchemaId

/-- The options that take part in an identity. -/
def policy (o : Options) : Value :=
  .mapping [
    ("allow_unknown", .bool o.allowUnknown),
    ("break_loops", .bool o.breakLoops),
    ("purge_unknown", .bool o.purgeUnknown),
    ("require_all", .bool o.requireAll)]

/-- The value over which the identity of a rule is computed. -/
def subject (rule : Value) (o : Options) : Value :=
  .mapping [("options", policy o), ("rule", rule)]

/-- The identity of a rule under options. -/
def of (digest : Digest) (rule : Value) (o : Options) : SchemaId :=
  ⟨digest (Canonical.bytes (subject rule o))⟩

/-- Two lowercase hexadecimal digits. -/
def hexByte (b : UInt8) : List Char :=
  [Nat.digitChar (b.toNat / 16), Nat.digitChar (b.toNat % 16)]

/-- The identity in lowercase hexadecimal digits. -/
def hex (i : SchemaId) : String := String.ofList (i.bytes.flatMap hexByte)

/-- The first `n` hexadecimal digits. -/
def hexStart (i : SchemaId) (n : Nat) : String := String.ofList (i.hex.toList.take n)

/-- The twelve digits by which an identity is abbreviated. -/
def short (i : SchemaId) : String := i.hexStart 12

/-- The identity as the name of a schema. -/
def schemaName (i : SchemaId) : String := "schema:" ++ i.hex

/-- The identity as a digest with its algorithm. -/
def digestName (i : SchemaId) : String := "sha256:" ++ i.hex

/-- The abbreviated digest. -/
def digestLabel (i : SchemaId) : String := "ContentDigest(" ++ i.short ++ ")"

end SchemaId

end Rulebook
