import MetricFanout.Decimal.Numeral
/-!
# JSON values and tokens

A JSON text is a sequence of tokens, and a value is what well-nested tokens build. Writing a value
goes through its tokens, without blanks between them.

## Implementation notes

A string token need not denote text: its bytes may be ill-formed or its escapes may name half a
surrogate pair. Such a token is well formed where its content does not matter, so a string carries
`none` instead of being refused. Object fields keep their order and their repetitions.
-/

namespace MetricFanout

/-- A JSON value. `string none` is a string token that denotes no text. -/
inductive Json where
  | null
  | bool (b : Bool)
  | number (n : Numeral)
  | string (content : Option String)
  | array (items : List Json)
  | object (fields : List (Option String × Json))
  deriving Inhabited

namespace Json

/-- A lexical element of a JSON text. -/
inductive Token where
  | openArray
  | closeArray
  | openObject
  | closeObject
  | comma
  | colon
  | null
  | bool (b : Bool)
  | number (n : Numeral)
  | string (content : Option String)
  deriving DecidableEq

/-- Text as a string value. -/
abbrev text (s : String) : Json := .string (some s)

/-- An integer value. -/
abbrev int (i : Int) : Json := .number (.ofInt i)

/-- A natural number. -/
abbrev nat (n : Nat) : Json := .int n

/-- A double-precision value; what is not finite is null. -/
def double (x : Binary64) : Json := ((Numeral.ofBinary64 x).map Json.number).getD .null

/-- A single-precision value; what is not finite is null. -/
def single (x : Binary32) : Json := ((Numeral.ofBinary32 x).map Json.number).getD .null

/-- An object with text keys. -/
def record (fields : List (String × Json)) : Json := .object (fields.map fun (k, v) => (some k, v))

mutual
/-- The tokens of a value. -/
def tokens : Json → List Token
  | .null => [.null]
  | .bool b => [.bool b]
  | .number n => [.number n]
  | .string s => [.string s]
  | .array items => .openArray :: itemTokens items
  | .object fields => .openObject :: fieldTokens fields

/-- The tokens of the items of an array, up to its end. -/
def itemTokens : List Json → List Token
  | [] => [.closeArray]
  | v :: rest => v.tokens ++ restItems rest

/-- The tokens behind an item. -/
def restItems : List Json → List Token
  | [] => [.closeArray]
  | v :: rest => .comma :: (v.tokens ++ restItems rest)

/-- The tokens of the fields of an object, up to its end. -/
def fieldTokens : List (Option String × Json) → List Token
  | [] => [.closeObject]
  | (k, v) :: rest => .string k :: .colon :: (v.tokens ++ restFields rest)

/-- The tokens behind a field. -/
def restFields : List (Option String × Json) → List Token
  | [] => [.closeObject]
  | (k, v) :: rest => .comma :: .string k :: .colon :: (v.tokens ++ restFields rest)
end

/-- A hexadecimal digit, lower case. -/
def hexDigit (n : Nat) : Char := Char.ofNat (if n < 10 then 48 + n else 87 + n)

/-- A character of a string. Quotes, backslashes and controls are escaped, all else stands for
itself. -/
def escape (c : Char) : List Char :=
  match c with
  | '"' => ['\\', '"']
  | '\\' => ['\\', '\\']
  | '\x08' => ['\\', 'b']
  | '\t' => ['\\', 't']
  | '\n' => ['\\', 'n']
  | '\x0c' => ['\\', 'f']
  | '\r' => ['\\', 'r']
  | c =>
      if c.toNat < 0x20 then
        ['\\', 'u', '0', '0', hexDigit (c.toNat / 16), hexDigit (c.toNat % 16)]
      else [c]

/-- The characters of a token. A string without text is written as half a surrogate pair. -/
def Token.chars : Token → List Char
  | .openArray => ['[']
  | .closeArray => [']']
  | .openObject => ['\x7b']
  | .closeObject => ['\x7d']
  | .comma => [',']
  | .colon => [':']
  | .null => ['n', 'u', 'l', 'l']
  | .bool true => ['t', 'r', 'u', 'e']
  | .bool false => ['f', 'a', 'l', 's', 'e']
  | .number n => n.text
  | .string (some s) => '"' :: (s.toList.flatMap escape ++ ['"'])
  | .string none => ['"', '\\', 'u', 'd', '8', '0', '0', '"']

/-- The compact text of a value. -/
def render (v : Json) : String := String.ofList (v.tokens.flatMap Token.chars)

end Json

end MetricFanout
