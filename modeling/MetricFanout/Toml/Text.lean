/-!
# Characters of a TOML text

Blanks, comments, line ends, strings and bare keys. Every reader takes what stands at the front and
hands back the rest.

A quoted string with escapes is read by an automaton that takes one character at a time: inside an
escape it counts the digits that are still to come, and behind a line that ends in a backslash it
skips blanks. Three quotes end a string of several lines; up to two more quotes in front of them
belong to its text.
-/

namespace MetricFanout.Toml

/-- Readers of what stands at the front of a text. -/
abbrev Reader (α : Type) := List Char → Option (α × List Char)

/-- A blank within a line. -/
def isBlank (c : Char) : Bool := c = ' ' || c = '\t'

/-- The text behind blanks. -/
def skipBlanks (cs : List Char) : List Char := cs.dropWhile isBlank

/-- A character that may stand in a comment or a string: a tab, or none of the controls. -/
def isPrintable (c : Char) : Bool := c = '\t' || (0x20 ≤ c.toNat && c.toNat ≠ 0x7F)

/-- The text behind one line end, if there is one. -/
def lineEnd? : List Char → Option (List Char)
  | '\n' :: rest => some rest
  | '\r' :: '\n' :: rest => some rest
  | _ => none

/-- The text behind a line end at its start, or the text as it is. -/
def skipLineEnd (cs : List Char) : List Char := (lineEnd? cs).getD cs

/-- The text behind a comment, up to its line end. -/
def skipComment (cs : List Char) : List Char :=
  match cs with
  | '#' :: rest => rest.dropWhile isPrintable
  | cs => cs

/-- The text behind the rest of a line that holds nothing any more. The last line may lack its end.
-/
def restOfLine? (cs : List Char) : Option (List Char) :=
  match skipComment (skipBlanks cs) with
  | [] => some []
  | cs => lineEnd? cs

/-- The text behind blanks, line ends and comments. -/
def skipLines : (inComment : Bool) → List Char → Option (List Char)
  | _, [] => some []
  | _, '\n' :: rest => skipLines false rest
  | _, '\r' :: '\n' :: rest => skipLines false rest
  | true, c :: rest => if isPrintable c then skipLines true rest else none
  | false, c :: rest =>
      if isBlank c then skipLines false rest
      else if c = '#' then skipLines true rest
      else some (c :: rest)

/-! ## Strings -/

/-- The value of a hexadecimal digit. -/
def hexValue? (c : Char) : Option Nat :=
  if c.isDigit then some (c.toNat - 48)
  else if 'a' ≤ c ∧ c ≤ 'f' then some (c.toNat - 87)
  else if 'A' ≤ c ∧ c ≤ 'F' then some (c.toNat - 55)
  else none

/-- The character of a code point; surrogates and larger numbers have none. -/
def charOf? (n : Nat) : Option Char := if n.isValidChar then some (Char.ofNat n) else none

/-- The character that a one-letter escape stands for. -/
def shortEscape? : Char → Option Char
  | 'b' => some '\x08'
  | 't' => some '\t'
  | 'n' => some '\n'
  | 'f' => some '\x0c'
  | 'r' => some '\r'
  | '"' => some '"'
  | '\\' => some '\\'
  | _ => none

/-- Where a quoted string stands. -/
inductive Quoting where
  /-- In its text; `joined` skips blanks and line ends. -/
  | inText (joined : Bool)
  /-- Just behind a backslash. -/
  | escape
  /-- Within a numeric escape: digits to come and the value so far. -/
  | code (left value : Nat)
  /-- Behind a backslash and a blank: the line must end. -/
  | lineEnd

/-- The number of quotes at the front, five at most. -/
def quotes (mark : Char) (cs : List Char) : Nat := ((cs.take 5).takeWhile (· = mark)).length

/-- A string with its closing quotes cut off: for `n ≥ 3` quotes at the front, those that belong to
the text and the rest behind the closing ones. -/
def close (mark : Char) (cs : List Char) : List Char × List Char :=
  (List.replicate (quotes mark cs - 3) mark, cs.drop (quotes mark cs))

/-- Put a character in front of what was read. -/
def pushed (c : Char) (r : Option (List Char × List Char)) : Option (List Char × List Char) :=
  r.map fun (t, rest) => (c :: t, rest)

/-- The text of a string with escapes behind its opening quotes; `multi` allows several lines. -/
def quoted (multi : Bool) : Quoting → Reader (List Char)
  | _, [] => none
  | .escape, c :: rest =>
      if c = 'u' then quoted multi (.code 4 0) rest
      else if c = 'U' then quoted multi (.code 8 0) rest
      else if multi && isBlank c then quoted multi .lineEnd rest
      else if multi && c = '\n' then quoted multi (.inText true) rest
      else if multi && c = '\r' && rest.head? = some '\n' then quoted multi .lineEnd rest
      else
        match shortEscape? c with
        | some d => pushed d (quoted multi (.inText false) rest)
        | none => none
  | .code left value, c :: rest =>
      match hexValue? c with
      | none => none
      | some d =>
          if 1 < left then quoted multi (.code (left - 1) (value * 16 + d)) rest
          else
            match charOf? (value * 16 + d) with
            | some e => pushed e (quoted multi (.inText false) rest)
            | none => none
  | .lineEnd, c :: rest =>
      if isBlank c || (c = '\r' && rest.head? = some '\n') then quoted multi .lineEnd rest
      else if c = '\n' then quoted multi (.inText true) rest
      else none
  | .inText joined, c :: rest =>
      if c = '"' then
        if !multi then some ([], rest)
        else if 3 ≤ quotes '"' (c :: rest) then some (close '"' (c :: rest))
        else pushed c (quoted multi (.inText false) rest)
      else if c = '\\' then quoted multi .escape rest
      else if multi && c = '\r' && rest.head? = some '\n' then quoted multi (.inText joined) rest
      else if multi && c = '\n' then
        if joined then quoted multi (.inText true) rest
        else pushed c (quoted multi (.inText false) rest)
      else if joined && isBlank c then quoted multi (.inText true) rest
      else if isPrintable c then pushed c (quoted multi (.inText false) rest)
      else none

/-- The text of a string without escapes behind its opening quotes; `multi` allows several lines. -/
def literal (multi : Bool) : Reader (List Char)
  | [] => none
  | c :: rest =>
      if c = '\'' then
        if !multi then some ([], rest)
        else if 3 ≤ quotes '\'' (c :: rest) then some (close '\'' (c :: rest))
        else pushed c (literal multi rest)
      else if multi && c = '\r' && rest.head? = some '\n' then literal multi rest
      else if isPrintable c || (multi && c = '\n') then pushed c (literal multi rest)
      else none

/-- A string on one line. -/
def lineString? : Reader String
  | '"' :: rest => (quoted false (.inText false) rest).map fun (t, r) => (String.ofList t, r)
  | '\'' :: rest => (literal false rest).map fun (t, r) => (String.ofList t, r)
  | _ => none

/-- A string. One line end just behind three opening quotes does not belong to the text. -/
def string? (cs : List Char) : Option (String × List Char) :=
  match cs with
  | '"' :: '"' :: '"' :: rest =>
      (quoted true (.inText false) (skipLineEnd rest)).map fun (t, r) => (String.ofList t, r)
  | '\'' :: '\'' :: '\'' :: rest =>
      (literal true (skipLineEnd rest)).map fun (t, r) => (String.ofList t, r)
  | cs => lineString? cs

/-! ## Keys -/

/-- A character of a bare key. -/
def isBare (c : Char) : Bool := c.isAlphanum || c = '_' || c = '-'

/-- A key without dots. -/
def plainKey? (cs : List Char) : Option (String × List Char) :=
  match cs with
  | '"' :: _ => lineString? cs
  | '\'' :: _ => lineString? cs
  | _ =>
      if (cs.takeWhile isBare).isEmpty then none
      else some (String.ofList (cs.takeWhile isBare), cs.dropWhile isBare)

/-- A key: the tables that it leads through, and the name at its end. -/
structure Key where
  tables : List String
  name : String
  deriving DecidableEq, Repr

/-- The number of names that a key may have; also how deep values may be nested. -/
def maxDepth : Nat := 79

/-- The names of a key, at most `limit`, with blanks around each. -/
def keyNames? : (limit : Nat) → Reader (List String)
  | 0, _ => none
  | limit + 1, cs =>
      match plainKey? (skipBlanks cs) with
      | none => none
      | some (name, rest) =>
          match skipBlanks rest with
          | '.' :: rest => (keyNames? limit rest).map fun (names, r) => (name :: names, r)
          | rest => some ([name], rest)

/-- A key, with the blanks around it. -/
def key? (cs : List Char) : Option (Key × List Char) :=
  match keyNames? maxDepth cs with
  | none => none
  | some (names, rest) => names.getLast?.map fun name => (⟨names.dropLast, name⟩, rest)

end MetricFanout.Toml
