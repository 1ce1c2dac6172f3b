import MetricFanout.Text.Percent
/-!
# Form-encoded pairs

Query strings carry pairs of a name and a value: pairs are joined by ampersands, name and value by
an equals sign, blanks are plus signs, and other special characters are percent escapes.
-/

namespace MetricFanout.Form

/-- Characters that stand for themselves. -/
def isPlain (c : Char) : Bool :=
  c.isAlphanum || c = '*' || c = '-' || c = '.' || c = '_'

/-- A name or a value, encoded. -/
def encodePart (cs : List Char) : List Char :=
  cs.flatMap fun c =>
    if c = ' ' then ['+'] else if isPlain c then [c] else Percent.escapeChar c

/-- A pair, encoded. -/
def encodePair (p : String × String) : List Char :=
  encodePart p.1.toList ++ '=' :: encodePart p.2.toList

/-- Pairs, encoded and joined. -/
def encode : List (String × String) → List Char
  | [] => []
  | [p] => encodePair p
  | p :: rest => encodePair p ++ '&' :: encode rest

/-- A name or a value, decoded: plus signs first, then escapes, then the characters. -/
def decodePart (bytes : List UInt8) : String :=
  String.ofList <| Utf8.decodeLossy <| Percent.decode <|
    bytes.map fun b => if b = 0x2B then 0x20 else b

/-- The pair of a sequence without ampersands. Without an equals sign the value is empty. -/
def decodePair (bytes : List UInt8) : String × String :=
  (decodePart (bytes.takeWhile (· != 0x3D)), decodePart ((bytes.dropWhile (· != 0x3D)).drop 1))

/-- The sequences between ampersands. -/
def sequences : List UInt8 → List (List UInt8)
  | [] => [[]]
  | b :: rest =>
      if b = 0x26 then [] :: sequences rest
      else
        match sequences rest with
        | [] => [[b]]
        | s :: more => (b :: s) :: more

/-- The pairs of a query string; empty sequences are skipped. -/
def decode (query : String) : List (String × String) :=
  ((sequences (Utf8.ofString query)).filter (fun s => !s.isEmpty)).map decodePair

end MetricFanout.Form
