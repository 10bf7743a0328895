import Rulebook.Options
import Rulebook.Yaml.Node

/-!
# Options written as text

Options are read from a JSON document or from a YAML document.  Missing
switches keep their defaults, unknown ones are ignored, and no switch may be
set twice, under whichever spelling.  A JSON list sets the switches in order.
-/

namespace Rulebook

/-- A switch of the options. -/
inductive Switch where
  | allowUnknown
  | purgeUnknown
  | requireAll
  | breakLoops
  | validateSchemas
  | loadAsJsonSchema
deriving DecidableEq

namespace Switch

/-- All switches, in the order in which a list sets them. -/
def all : List Switch :=
  [allowUnknown, purgeUnknown, requireAll, breakLoops, validateSchemas, loadAsJsonSchema]

/-- The switch a name stands for; two names have an older spelling. -/
def ofName? : String → Option Switch
  | "allow_unknown" | "allow_unkown" => some allowUnknown
  | "purge_unknown" | "purge_unkown" => some purgeUnknown
  | "require_all" => some requireAll
  | "break_loops" => some breakLoops
  | "validate_schemas" => some validateSchemas
  | "load_as_jsonschema" => some loadAsJsonSchema
  | _ => none

end Switch

namespace Options

/-- Options with one switch set. -/
def set (o : Options) (b : Bool) : Switch → Options
  | .allowUnknown => { o with allowUnknown := b }
  | .purgeUnknown => { o with purgeUnknown := b }
  | .requireAll => { o with requireAll := b }
  | .breakLoops => { o with breakLoops := b }
  | .validateSchemas => { o with validateSchemas := b }
  | .loadAsJsonSchema => { o with loadAsJsonSchema := b }

/-- The options that settings describe; no switch may be set twice. -/
def ofSettings? (settings : List (Switch × Bool)) : Option Options :=
  if (settings.map (·.1)).Nodup then
    some (settings.foldl (fun o s => o.set s.2 s.1) {})
  else none

/-- The settings among named arguments: those whose name is a switch.  The
argument of a switch has to be a boolean. -/
def settings? {α : Type} (bool? : α → Option Bool) :
    List (Option String × α) → Option (List (Switch × Bool))
  | [] => some []
  | (name, argument) :: rest =>
      match name.bind Switch.ofName? with
      | none => settings? bool? rest
      | some switch =>
          match bool? argument, settings? bool? rest with
          | some b, some more => some ((switch, b) :: more)
          | _, _ => none

/-- The boolean a JSON document is. -/
def jsonBool? : Json.Document → Option Bool
  | .bool b => some b
  | _ => none

/-- Options written as JSON text. -/
def ofJson? (text : String) : Option Options :=
  match Json.Document.parse? text with
  | some (.mapping members) =>
      (settings? jsonBool? (members.map fun m => (some m.1, m.2))).bind ofSettings?
  | some (.list elements) =>
      if elements.length ≤ Switch.all.length then
        (elements.mapM jsonBool?).bind fun bs => ofSettings? (Switch.all.zip bs)
      else none
  | _ => none

/-- The text of a scalar node. -/
def yamlText? : Yaml.Node → Option String
  | .plain s | .quoted s => some s
  | _ => none

/-- The boolean a YAML node is. -/
def yamlBool? : Yaml.Node → Option Bool
  | .plain s =>
      if s ∈ ["true", "True", "TRUE"] then some true
      else if s ∈ ["false", "False", "FALSE"] then some false
      else none
  | _ => none

/-- Options written as YAML text; an empty document sets nothing. -/
def ofYaml? (text : String) : Option Options :=
  match Yaml.parse? text with
  | some (.mapping members) =>
      (settings? yamlBool? (members.map fun m => (yamlText? m.1, m.2))).bind ofSettings?
  | some (.plain s) => if s.isEmpty then some {} else none
  | _ => none

end Options

end Rulebook
