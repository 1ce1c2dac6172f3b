import MetricFanout.Toml.Scalar
import MetricFanout.Toml.Document
/-!
# Reading TOML

Values, statements and whole documents.

## Implementation notes

How deep arrays and inline tables may be nested is part of the format that is accepted, so the
reader of values recurs on the depth that is left. Sequences are read as long as the rest gets
shorter, which it does with every item.
-/

namespace MetricFanout.Toml

/-- The items of an array behind its opening bracket. Items are parted by commas, a last comma is
allowed, and lines may end anywhere between. -/
def arrayItems? (value : Reader Toml) (cs : List Char) : Option (List Toml × List Char) :=
  match skipLines false cs with
  | none => none
  | some (']' :: rest) => some ([], rest)
  | some start =>
      match value start with
      | none => none
      | some (v, rest) =>
          match skipLines false rest with
          | some (']' :: rest) => some ([v], rest)
          | some (',' :: rest) =>
              if rest.length < cs.length then
                (arrayItems? value rest).map fun (vs, r) => (v :: vs, r)
              else none
          | _ => none
termination_by cs.length

/-- A pair of a key and a value. -/
def pair? (value : Reader Toml) (cs : List Char) : Option ((Key × Toml) × List Char) :=
  match key? cs with
  | some (k, '=' :: rest) => (value (skipBlanks rest)).map fun (v, r) => ((k, v), r)
  | _ => none

/-- The pairs of an inline table from its first one on. Pairs are parted by commas, and the table
stands on one line. -/
def inlinePairs? (value : Reader Toml) (cs : List Char) : Option (List (Key × Toml) × List Char) :=
  match pair? value cs with
  | none => none
  | some (p, rest) =>
      match skipBlanks rest with
      | '\x7d' :: rest => some ([p], rest)
      | ',' :: rest =>
          if rest.length < cs.length then
            (inlinePairs? value rest).map fun (ps, r) => (p :: ps, r)
          else none
      | _ => none
termination_by cs.length

/-- An inline table behind its opening brace. -/
def inlineBody? (value : Reader Toml) (cs : List Char) : Option (Toml × List Char) :=
  match skipBlanks cs with
  | '\x7d' :: rest => some (.table [], rest)
  | _ =>
      match inlinePairs? value cs with
      | none => none
      | some (ps, rest) => (inlineTable? ps).map fun t => (t, rest)

/-- A value that is neither array nor table. -/
def scalar? (cs : List Char) : Option (Toml × List Char) :=
  match cs with
  | '"' :: _ => (string? cs).map fun (s, r) => (.text s, r)
  | '\'' :: _ => (string? cs).map fun (s, r) => (.text s, r)
  | 't' :: 'r' :: 'u' :: 'e' :: rest => some (.bool true, rest)
  | 'f' :: 'a' :: 'l' :: 's' :: 'e' :: rest => some (.bool false, rest)
  | _ =>
      match moment? cs with
      | some (m, rest) => some (.moment m, rest)
      | none => number? cs

/-- A value whose arrays and tables are nested at most `depth` deep. -/
def value? : (depth : Nat) → Reader Toml
  | 0, cs => scalar? cs
  | depth + 1, cs =>
      match cs with
      | '[' :: rest => (arrayItems? (value? depth) rest).map fun (vs, r) => (.array vs, r)
      | '\x7b' :: rest => inlineBody? (value? depth) rest
      | _ => scalar? cs

/-- A header behind its opening brackets. -/
def header? (closing : List Char) (cs : List Char) : Option (Key × List Char) :=
  match key? cs with
  | none => none
  | some (k, rest) =>
      if closing.isPrefixOf rest then some (k, rest.drop closing.length) else none

/-- A statement and the rest of its line. -/
def statement? (cs : List Char) : Option (Statement × List Char) := do
  let (s, rest) ←
    match cs with
    | '[' :: '[' :: rest => (header? [']', ']'] rest).map fun (k, r) => (Statement.element k, r)
    | '[' :: rest => (header? [']'] rest).map fun (k, r) => (Statement.table k, r)
    | _ => (pair? (value? maxDepth) cs).map fun (p, r) => (Statement.pair p.1 p.2, r)
  return (s, ← restOfLine? rest)

/-- The statements of a text. -/
def statements? (cs : List Char) : Option (List Statement) :=
  match skipLines false cs with
  | none => none
  | some [] => some []
  | some start =>
      match statement? start with
      | none => none
      | some (s, rest) =>
          if rest.length < cs.length then (statements? rest).map (s :: ·) else none
termination_by cs.length

/-- A text without the mark of its encoding. -/
def skipMark : List Char → List Char
  | '\ufeff' :: rest => rest
  | cs => cs

/-- The table of a document. -/
def parse (text : String) : Option Toml :=
  match statements? (skipMark text.toList) with
  | none => none
  | some statements => (Document.ofStatements? statements).map Document.toToml

end MetricFanout.Toml
