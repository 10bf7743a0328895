import Rulebook.Json.Document

/-!
# Small YAML documents

A reader for the YAML in which settings are written: block and flow mappings
and sequences, plain and quoted scalars on one line, comments, a document start
and a document end.  Anchors, tags and several documents in one text are not
part of it and make the text unreadable.
-/

namespace Rulebook
namespace Yaml

/-- A node of a document.  A scalar without quotes may be null, a boolean or a
number; one in quotes is text. -/
inductive Node where
  | plain (s : String)
  | quoted (s : String)
  | list (elements : List Node)
  | mapping (members : List (Node × Node))

/-- A line with content: the columns before it, and the content itself. -/
structure Line where
  indent : Nat
  content : List Char

/-! ## Lines -/

/-- Whether a character separates tokens on a line. -/
def isBlank (c : Char) : Bool := c == ' ' || c == '\t'

/-- Text without blanks at its end. -/
def trimEnd (cs : List Char) : List Char := (cs.reverse.dropWhile isBlank).reverse

/-- Text without a comment.  A comment begins at a hash sign after a blank; a
quote opens only where a token may begin. -/
def uncomment (before : Char) : Option Char → List Char → List Char
  | _, [] => []
  | some q, c :: rest => c :: uncomment c (if c = q then none else some q) rest
  | none, c :: rest =>
      if c = '#' ∧ isBlank before then []
      else if (c = '"' ∨ c = '\'') ∧ (isBlank before ∨ before ∈ ['[', '\x7b', ',', ':']) then
        c :: uncomment c (some c) rest
      else c :: uncomment c none rest

/-- The lines of a text that have content; `none` if one is indented by a tab. -/
def lines? (s : String) : Option (List Line) :=
  let raw := (s.replace "\r\n" "\n").replace "\r" "\n"
  let cut := (raw.splitOn "\n").map fun l => trimEnd (uncomment ' ' none l.toList)
  let content := cut.filter fun cs => cs.any fun c => !isBlank c
  content.mapM fun cs =>
    let (spaces, rest) := cs.span (· == ' ')
    if rest.head? == some '\t' then none else some ⟨spaces.length, rest⟩

/-- Whether a line begins with a three-character marker. -/
def Line.isMarker (marker : String) (l : Line) : Bool :=
  l.indent == 0 && marker.toList.isPrefixOf l.content &&
    (match l.content.drop 3 with
      | [] => true
      | c :: _ => isBlank c)

/-- The lines of the one document in a text. -/
def documentLines? (ls : List Line) : Option (List Line) :=
  let body :=
    match ls with
    | l :: rest =>
        if l.isMarker "---" then
          let more := (l.content.drop 3).dropWhile isBlank
          if more.isEmpty then rest else ⟨l.content.length - more.length, more⟩ :: rest
        else ls
    | [] => []
  let (inside, outside) := body.span fun l => !l.isMarker "..."
  if inside.any (Line.isMarker "---") || outside.length > 1 then none
  else if outside.any fun l => l.content.length != 3 then none
  else some inside

/-! ## Scalars and flow collections -/

/-- A single-quoted scalar after its opening quote; a quote inside is doubled. -/
def singleQuoted? : List Char → Option (List Char × List Char)
  | [] => none
  | '\'' :: '\'' :: rest => (singleQuoted? rest).map fun (cs, rest) => ('\'' :: cs, rest)
  | '\'' :: rest => some ([], rest)
  | c :: rest => (singleQuoted? rest).map fun (cs, rest) => (c :: cs, rest)

/-- A quoted scalar at the head of a text. -/
def quotedScalar? : List Char → Option (Node × List Char)
  | '"' :: rest =>
      match Json.quoted? rest with
      | some (some s, rest) => some (.quoted s, rest)
      | _ => none
  | '\'' :: rest => (singleQuoted? rest).map fun (cs, rest) => (.quoted (String.ofList cs), rest)
  | _ => none

/-- Whether a plain scalar may begin with the text. -/
def beginsPlain : List Char → Bool
  | [] => true
  | c :: rest =>
      if c ∈ ['-', '?', ':'] then
        match rest with
        | [] => false
        | d :: _ => !isBlank d
      else
        !("[]#&*!|>'\"%@,".toList.contains c) && c != '\x7b' && c != '\x7d' && c != Char.ofNat 96

/-- The plain scalar of a flow collection, up to the next separator. -/
def flowPlain : List Char → List Char × List Char
  | [] => ([], [])
  | c :: rest =>
      let ends := c ∈ [',', '[', ']', '\x7b', '\x7d'] ||
        (c == ':' &&
          (match rest with
            | [] => true
            | d :: _ => d ∈ [' ', '\t', ',', '[', ']', '\x7b', '\x7d']))
      if ends then ([], c :: rest)
      else
        let (cs, rest) := flowPlain rest
        (c :: cs, rest)

mutual

/-- The node of a flow collection at the head of a text. -/
def flow? : Nat → List Char → Option (Node × List Char)
  | 0, _ => none
  | fuel + 1, cs =>
      match cs.dropWhile isBlank with
      | '[' :: rest => (flowElements? fuel rest).map fun (xs, rest) => (.list xs, rest)
      | '\x7b' :: rest => (flowMembers? fuel rest).map fun (ms, rest) => (.mapping ms, rest)
      | '"' :: rest => quotedScalar? ('"' :: rest)
      | '\'' :: rest => quotedScalar? ('\'' :: rest)
      | cs =>
          let (s, rest) := flowPlain cs
          if beginsPlain s then some (.plain (String.ofList (trimEnd s)), rest) else none

/-- The elements of a flow sequence up to its closing bracket. -/
def flowElements? : Nat → List Char → Option (List Node × List Char)
  | 0, _ => none
  | fuel + 1, cs =>
      match cs.dropWhile isBlank with
      | ']' :: rest => some ([], rest)
      | cs =>
          match flow? fuel cs with
          | none => none
          | some (x, rest) =>
              match rest.dropWhile isBlank with
              | ',' :: rest => (flowElements? fuel rest).map fun (xs, rest) => (x :: xs, rest)
              | ']' :: rest => some ([x], rest)
              | _ => none

/-- The members of a flow mapping up to its closing brace. -/
def flowMembers? : Nat → List Char → Option (List (Node × Node) × List Char)
  | 0, _ => none
  | fuel + 1, cs =>
      match cs.dropWhile isBlank with
      | '\x7d' :: rest => some ([], rest)
      | cs =>
          match flow? fuel cs with
          | none => none
          | some (k, rest) =>
              let argument :=
                match rest.dropWhile isBlank with
                | ':' :: rest => flow? fuel rest
                | rest => some (.plain "", rest)
              match argument with
              | none => none
              | some (v, rest) =>
                  match rest.dropWhile isBlank with
                  | ',' :: rest =>
                      (flowMembers? fuel rest).map fun (ms, rest) => ((k, v) :: ms, rest)
                  | '\x7d' :: rest => some ([(k, v)], rest)
                  | _ => none

end

/-- A flow collection that takes up a text and as many of the following lines as
it needs. -/
def flowOver? : List Char → List Line → Option (Node × List Line)
  | cs, ls =>
      match flow? (2 * cs.length + 2) cs with
      | some (x, rest) => if rest.all isBlank then some (x, ls) else none
      | none =>
          match ls with
          | [] => none
          | l :: ls => flowOver? (cs ++ ' ' :: l.content) ls

/-- A scalar that takes up a text. -/
def scalar? (cs : List Char) : Option Node :=
  match cs with
  | '"' :: _ | '\'' :: _ =>
      match quotedScalar? cs with
      | some (x, rest) => if rest.all isBlank then some x else none
      | none => none
  | _ => if beginsPlain cs then some (.plain (String.ofList cs)) else none

/-! ## Block collections -/

/-- What follows the indicator of a block sequence entry. -/
def dashed? : List Char → Option (List Char)
  | ['-'] => some []
  | '-' :: c :: rest => if isBlank c then some (rest.dropWhile isBlank) else none
  | _ => none

/-- A plain key and what follows its colon. -/
def plainKey? : List Char → Option (List Char × List Char)
  | [] => none
  | [':'] => some ([], [])
  | ':' :: c :: rest =>
      if isBlank c then some ([], rest.dropWhile isBlank)
      else (plainKey? (c :: rest)).map fun (k, rest) => (':' :: k, rest)
  | c :: rest => (plainKey? rest).map fun (k, rest) => (c :: k, rest)

/-- The key at the head of a line of a block mapping, and what follows it. -/
def key? (cs : List Char) : Option (Node × List Char) :=
  match cs with
  | '[' :: _ | '\x7b' :: _ => none
  | '"' :: _ | '\'' :: _ =>
      match quotedScalar? cs with
      | some (k, rest) =>
          match rest.dropWhile isBlank with
          | [':'] => some (k, [])
          | ':' :: c :: rest => if isBlank c then some (k, rest.dropWhile isBlank) else none
          | _ => none
      | none => none
  | _ =>
      match plainKey? cs with
      | some (k, rest) =>
          if beginsPlain k then some (.plain (String.ofList (trimEnd k)), rest) else none
      | none => none

/-- Lines indented by more than `n`, and the rest. -/
def deeper (n : Nat) (ls : List Line) : List Line × List Line := ls.span fun l => n < l.indent

mutual

/-- The node written by all of the lines. -/
def block? : Nat → List Line → Option Node
  | 0, _ => none
  | _ + 1, [] => some (.plain "")
  | fuel + 1, l :: ls =>
      if (dashed? l.content).isSome then (blockElements? fuel l.indent (l :: ls)).map .list
      else if (key? l.content).isSome then (blockMembers? fuel l.indent (l :: ls)).map .mapping
      else inline? l.content ls

/-- The elements of a block sequence in the given column. -/
def blockElements? : Nat → Nat → List Line → Option (List Node)
  | 0, _, _ => none
  | _ + 1, _, [] => some []
  | fuel + 1, n, l :: ls =>
      if l.indent ≠ n then none
      else
        match dashed? l.content with
        | none => none
        | some rest =>
            let (inside, outside) := deeper n ls
            let first : List Line :=
              if rest.isEmpty then [] else [⟨n + (l.content.length - rest.length), rest⟩]
            match block? fuel (first ++ inside), blockElements? fuel n outside with
            | some x, some xs => some (x :: xs)
            | _, _ => none

/-- The members of a block mapping in the given column.  A sequence that is the
argument of a key may stand in the column of the key. -/
def blockMembers? : Nat → Nat → List Line → Option (List (Node × Node))
  | 0, _, _ => none
  | _ + 1, _, [] => some []
  | fuel + 1, n, l :: ls =>
      if l.indent ≠ n then none
      else
        match key? l.content with
        | none => none
        | some (k, rest) =>
            let (inside, outside) :=
              ls.span fun m =>
                n < m.indent || (rest.isEmpty && m.indent == n && (dashed? m.content).isSome)
            let argument := if rest.isEmpty then block? fuel inside else inline? rest inside
            match argument, blockMembers? fuel n outside with
            | some v, some ms => some ((k, v) :: ms)
            | _, _ => none

/-- A node that begins on a line and takes up the lines below it. -/
def inline? (cs : List Char) (below : List Line) : Option Node :=
  match cs with
  | '[' :: _ | '\x7b' :: _ =>
      match flowOver? cs below with
      | some (x, []) => some x
      | _ => none
  | '|' :: _ | '>' :: _ =>
      some (.quoted (" ".intercalate (below.map fun l => String.ofList l.content)))
  | _ => scalar? (below.foldl (fun acc l => acc ++ ' ' :: l.content) cs)

end

/-- The node of the one document in a text. -/
def parse? (s : String) : Option Node := do
  let ls ← documentLines? (← lines? s)
  block? (2 * s.length + 2) ls

end Yaml
end Rulebook
