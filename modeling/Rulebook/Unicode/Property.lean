import Rulebook.Unicode.BinaryProperty
import Rulebook.Unicode.Category
import Rulebook.Unicode.Folding
import Rulebook.Unicode.Script

/-!
# Named properties of characters

Looking up a set of characters by the name of a property.  Names are compared
without regard to case, spaces, underscores and hyphens, and a leading `is` is
left out.  A name alone is a binary property, a general category or a script, in
this order; a name with a value is a general category, a script or the extension
of a script.  The properties with other values are not listed here, the ages of
characters and the breaks between graphemes, words and sentences: asking for one of
them names no set.
-/

namespace Rulebook
namespace Unicode

/-- The form in which names are compared. -/
def looseName (name : String) : String :=
  let cs := name.toList
  let isIs := (cs.take 2).map Char.toLower == ['i', 's']
  let rest := if isIs then cs.drop 2 else cs
  let kept := rest.filter fun c => c != ' ' && c != '_' && c != '-' && c.toNat < 128
  let loose := kept.map Char.toLower
  if isIs && loose == ['c'] then "isc" else String.ofList loose

/-- Whether one of some names is the given loose name. -/
def isNamed (names : List String) (loose : String) : Bool :=
  names.any fun n => looseName n == loose

/-- The characters of the general category with a short name. -/
def categorySet (short : String) : CharSet :=
  match categories.find? fun c => c.names.head? == some short with
  | some c => CharSet.ofTable c.characters
  | none => CharSet.empty

/-- The characters of all categories together. -/
def assigned : CharSet := CharSet.unions (categories.map fun c => CharSet.ofTable c.characters)

/-- The characters without a category. -/
def unassigned : CharSet := (assigned.union ⟨[(0xD800, 0xDFFF)]⟩).complement

/-- The characters of a member of a group of categories. -/
def memberSet (short : String) : CharSet :=
  if short == "Cn" then unassigned else categorySet short

/-- The general category with a loose name. -/
def category? (loose : String) : Option CharSet :=
  if loose == "any" then some CharSet.all
  else if loose == "assigned" then some unassigned.complement
  else if loose == "ascii" then some ⟨[(0, 127)]⟩
  else if isNamed ["Cn", "Unassigned"] loose then some unassigned
  else
    match categories.find? fun c => isNamed c.names loose with
    | some c => some (CharSet.ofTable c.characters)
    | none =>
        (categoryGroups.find? fun g => isNamed g.1 loose).map fun g =>
          CharSet.unions (g.2.map memberSet)

/-- The script with a loose name. -/
def script? (loose : String) : Option CharSet :=
  (scripts.find? fun s => isNamed s.names loose).map fun s => CharSet.ofTable s.characters

/-- The extension of the script with a loose name. -/
def scriptExtension? (loose : String) : Option CharSet :=
  (scripts.find? fun s => isNamed s.names loose).map fun s =>
    (CharSet.ofTable s.characters).symmDiff (CharSet.ofTable s.extensionDifference)

/-- The characters with a binary property. -/
def BinaryProperty.set (p : BinaryProperty) : CharSet :=
  (CharSet.unions (p.categories.map categorySet)).symmDiff (CharSet.ofTable p.exceptions)

/-- The binary property with a loose name. -/
def binaryProperty? (loose : String) : Option CharSet :=
  (binaryProperties.find? fun p => isNamed p.names loose).map BinaryProperty.set

/-- The set that a name alone stands for.  Three short names of properties are
left to the categories and scripts that share them. -/
def named? (name : String) : Option CharSet :=
  let loose := looseName name
  let binary := if loose ∈ ["cf", "sc", "lc"] then none else binaryProperty? loose
  (binary.orElse fun _ => category? loose).orElse fun _ => script? loose

/-- The set that a name with a value stands for. -/
def namedValue? (name value : String) : Option CharSet :=
  let loose := looseName name
  if loose ∈ ["gc", "generalcategory"] then category? (looseName value)
  else if loose ∈ ["sc", "script"] then script? (looseName value)
  else if loose ∈ ["scx", "scriptextensions"] then scriptExtension? (looseName value)
  else none

/-! ## Classes with a letter of their own -/

/-- The decimal digits of all scripts. -/
def digits : CharSet := categorySet "Nd"

/-- White space. -/
def spaces : CharSet := (binaryProperty? "whitespace").getD CharSet.empty

/-- The characters of words: letters, marks, digits, connectors and joiners. -/
def wordCharacters : CharSet :=
  CharSet.unions [
    (binaryProperty? "alphabetic").getD CharSet.empty,
    categorySet "Mc", categorySet "Me", categorySet "Mn",
    digits, categorySet "Pc",
    (binaryProperty? "joincontrol").getD CharSet.empty]

/-- The letters and letter-like characters. -/
def alphabetic : CharSet := (binaryProperty? "alphabetic").getD CharSet.empty

/-- Letters and numbers. -/
def alphanumeric : CharSet :=
  CharSet.unions [alphabetic, categorySet "Nd", categorySet "Nl", categorySet "No"]

end Unicode
end Rulebook
