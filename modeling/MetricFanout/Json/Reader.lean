import MetricFanout.Json.Basic
import MetricFanout.Text.Utf8
/-!
# Reading JSON

A byte sequence is cut into tokens, and the tokens are fed one by one to a machine that keeps the
open arrays and objects on a stack. A text is accepted when it ends just behind one value.

## Implementation notes

The content of a string token is collected as raw bytes and 16-bit escapes and put together only at
its end, because a text is refused for an ill-formed *token*, but an ill-formed *content* matters
only to whoever asks for the text.
-/

namespace MetricFanout.Json

/-! ## Strings -/

/-- A part of a string token: a byte that stands for itself, or an escaped 16-bit unit. -/
inductive Piece where
  | byte (b : UInt8)
  | unit (n : Nat)

/-- The value of a hexadecimal digit. -/
def hexValue? (b : UInt8) : Option Nat :=
  let n := b.toNat
  if 48 ≤ n && n ≤ 57 then some (n - 48)
  else if 97 ≤ n && n ≤ 102 then some (n - 87)
  else if 65 ≤ n && n ≤ 70 then some (n - 55)
  else none

/-- The character that a one-letter escape stands for. -/
def shortEscape? (b : UInt8) : Option UInt8 :=
  if b = 0x22 || b = 0x5C || b = 0x2F then some b
  else if b = 0x62 then some 0x08
  else if b = 0x66 then some 0x0C
  else if b = 0x6E then some 0x0A
  else if b = 0x72 then some 0x0D
  else if b = 0x74 then some 0x09
  else none

/-- The four digits of an escaped unit. -/
def unitValue? (a b c d : UInt8) : Option Nat := do
  let a ← hexValue? a
  let b ← hexValue? b
  let c ← hexValue? c
  let d ← hexValue? d
  return ((a * 16 + b) * 16 + c) * 16 + d

/-- The pieces of a string token behind its opening quote, and the bytes behind its closing quote.
A raw control character or an unknown escape is refused. -/
def pieces : List UInt8 → Option (List Piece × List UInt8)
  | [] => none
  | b :: rest =>
      if b = 0x22 then some ([], rest)
      else if b = 0x5C then
        match rest with
        | 0x75 :: h₁ :: h₂ :: h₃ :: h₄ :: rest =>
            match unitValue? h₁ h₂ h₃ h₄ with
            | none => none
            | some n => (pieces rest).map fun (ps, r) => (.unit n :: ps, r)
        | e :: rest =>
            match shortEscape? e with
            | none => none
            | some c => (pieces rest).map fun (ps, r) => (.byte c :: ps, r)
        | [] => none
      else if b < 0x20 then none
      else (pieces rest).map fun (ps, r) => (.byte b :: ps, r)

/-- The bytes that pieces stand for. A high surrogate must be followed by a low one. -/
def bytesOfPieces : List Piece → Option (List UInt8)
  | [] => some []
  | .byte b :: rest => (bytesOfPieces rest).map (b :: ·)
  | .unit n :: rest =>
      if 0xD800 ≤ n && n ≤ 0xDBFF then
        match rest with
        | .unit m :: rest =>
            if 0xDC00 ≤ m && m ≤ 0xDFFF then
              (bytesOfPieces rest).map
                (Utf8.encodeChar (Char.ofNat (0x10000 + (n - 0xD800) * 0x400 + (m - 0xDC00))) ++ ·)
            else none
        | _ => none
      else if 0xDC00 ≤ n && n ≤ 0xDFFF then none
      else (bytesOfPieces rest).map (Utf8.encodeChar (Char.ofNat n) ++ ·)

/-- The text of a string token, if it denotes one. -/
def contentOf (ps : List Piece) : Option String := (bytesOfPieces ps).bind Utf8.toString?

theorem pieces_length {bytes : List UInt8} {ps : List Piece} {rest : List UInt8}
    (h : pieces bytes = some (ps, rest)) : rest.length ≤ bytes.length := by
  fun_induction pieces bytes generalizing ps rest <;>
    simp_all only [Option.some.injEq, Prod.mk.injEq, Option.map_eq_some_iff, Prod.exists,
      reduceCtorEq, List.length_cons]
  all_goals first
    | omega
    | (rename_i ih; obtain ⟨a, b, hp, _, rfl⟩ := h; have := ih hp; omega)

/-! ## Numbers -/

/-- The value of a decimal digit. -/
def digit? (b : UInt8) : Option Nat :=
  if 48 ≤ b.toNat && b.toNat ≤ 57 then some (b.toNat - 48) else none

/-- The digits at the front, and the bytes behind them. -/
def digits : List UInt8 → List Nat × List UInt8
  | [] => ([], [])
  | b :: rest =>
      match digit? b with
      | none => ([], b :: rest)
      | some d => let (ds, r) := digits rest; (d :: ds, r)

theorem digits_length (bytes : List UInt8) :
    (digits bytes).1.length + (digits bytes).2.length = bytes.length := by
  fun_induction digits bytes <;> simp_all; omega

/-- The whole part: a lone zero, or digits that do not start with one. -/
def wholePart (bytes : List UInt8) : Option (List Nat × List UInt8) :=
  match digits bytes with
  | ([], _) => none
  | (0 :: _, _) => some ([0], bytes.drop 1)
  | (ds, r) => some (ds, r)

/-- The fraction: a point and at least one digit, or nothing. -/
def fractionPart (bytes : List UInt8) : Option (Option (List Nat) × List UInt8) :=
  match bytes with
  | 0x2E :: rest =>
      match digits rest with
      | ([], _) => none
      | (ds, r) => some (some ds, r)
  | _ => some (none, bytes)

/-- A sign, or nothing. -/
def signPart : List UInt8 → Option Sign × List UInt8
  | 0x2B :: rest => (some .plus, rest)
  | 0x2D :: rest => (some .minus, rest)
  | bytes => (none, bytes)

/-- The exponent: a letter, perhaps a sign, and at least one digit, or nothing. -/
def exponentPart (bytes : List UInt8) :
    Option (Option (Option Sign × List Nat) × List UInt8) :=
  match bytes with
  | b :: rest =>
      if b = 0x65 || b = 0x45 then
        match digits (signPart rest).2 with
        | ([], _) => none
        | (ds, r) => some (some ((signPart rest).1, ds), r)
      else some (none, b :: rest)
  | [] => some (none, [])

/-- A number without its sign. -/
def magnitude (negative : Bool) (bytes : List UInt8) : Option (Numeral × List UInt8) :=
  match wholePart bytes with
  | none => none
  | some (whole, rest) =>
      match fractionPart rest with
      | none => none
      | some (fraction, rest) =>
          match exponentPart rest with
          | none => none
          | some (exponent, rest) => some (⟨negative, whole, fraction, exponent⟩, rest)

theorem digits_eq {bytes : List UInt8} {ds : List Nat} {rest : List UInt8}
    (h : digits bytes = (ds, rest)) : ds.length + rest.length = bytes.length := by
  simpa only [h] using digits_length bytes

theorem wholePart_length {bytes : List UInt8} {ds : List Nat} {rest : List UInt8}
    (h : wholePart bytes = some (ds, rest)) : rest.length < bytes.length := by
  unfold wholePart at h
  split at h
  · simp at h
  · rename_i hd
    have := digits_eq hd
    simp only [Option.some.injEq, Prod.mk.injEq] at h
    simp only [List.length_cons] at this
    simp only [← h.2, List.length_drop]; omega
  · rename_i ds r hne _ hd
    have := digits_eq hd
    simp only [Option.some.injEq, Prod.mk.injEq] at h
    cases ds with
    | nil => simp at hne
    | cons d ds => simp only [List.length_cons] at this; simp only [← h.2]; omega

theorem fractionPart_length {bytes : List UInt8} {ds : Option (List Nat)} {rest : List UInt8}
    (h : fractionPart bytes = some (ds, rest)) : rest.length ≤ bytes.length := by
  unfold fractionPart at h
  split at h
  · split at h
    · simp at h
    · rename_i hd
      have := digits_eq hd
      simp only [Option.some.injEq, Prod.mk.injEq] at h
      simp only [← h.2, List.length_cons]; omega
  · simp_all

theorem signPart_length (bytes : List UInt8) : (signPart bytes).2.length ≤ bytes.length := by
  unfold signPart
  split <;> simp

theorem exponentPart_length {bytes : List UInt8} {x : Option (Option Sign × List Nat)}
    {rest : List UInt8} (h : exponentPart bytes = some (x, rest)) :
    rest.length ≤ bytes.length := by
  unfold exponentPart at h
  split at h
  · rename_i r
    have := signPart_length r
    split at h
    · split at h
      · simp at h
      · rename_i hd
        have := digits_eq hd
        simp only [Option.some.injEq, Prod.mk.injEq] at h
        simp only [← h.2, List.length_cons]; omega
    · simp_all
  · simp_all

theorem magnitude_length {negative : Bool} {bytes : List UInt8} {n : Numeral} {rest : List UInt8}
    (h : magnitude negative bytes = some (n, rest)) : rest.length < bytes.length := by
  unfold magnitude at h
  split at h
  · simp at h
  · rename_i hw
    split at h
    · simp at h
    · rename_i hf
      split at h
      · simp at h
      · rename_i he
        simp only [Option.some.injEq, Prod.mk.injEq] at h
        obtain ⟨_, rfl⟩ := h
        have := wholePart_length hw
        have := fractionPart_length hf
        have := exponentPart_length he
        omega

/-! ## Tokens -/

/-- White space between tokens. -/
def isSpace (b : UInt8) : Bool := b = 0x20 || b = 0x09 || b = 0x0A || b = 0x0D

/-- The token whose remaining letters must come next. -/
def literal (t : Token) (letters rest : List UInt8) : Option (Token × List UInt8) :=
  if letters.isPrefixOf rest then some (t, rest.drop letters.length) else none

/-- The string token behind its opening quote. -/
def stringToken (rest : List UInt8) : Option (Token × List UInt8) :=
  (pieces rest).map fun (ps, r) => (.string (contentOf ps), r)

/-- The number token without its sign. -/
def numberToken (negative : Bool) (bytes : List UInt8) : Option (Token × List UInt8) :=
  (magnitude negative bytes).map fun (n, r) => (.number n, r)

/-- The token that starts with `b`, and the bytes behind it. -/
def token (b : UInt8) (rest : List UInt8) : Option (Token × List UInt8) :=
  if b = 0x5B then some (.openArray, rest)
  else if b = 0x5D then some (.closeArray, rest)
  else if b = 0x7B then some (.openObject, rest)
  else if b = 0x7D then some (.closeObject, rest)
  else if b = 0x2C then some (.comma, rest)
  else if b = 0x3A then some (.colon, rest)
  else if b = 0x22 then stringToken rest
  else if b = 0x2D then numberToken true rest
  else if b = 0x6E then literal .null [0x75, 0x6C, 0x6C] rest
  else if b = 0x74 then literal (.bool true) [0x72, 0x75, 0x65] rest
  else if b = 0x66 then literal (.bool false) [0x61, 0x6C, 0x73, 0x65] rest
  else numberToken false (b :: rest)

theorem literal_length {t u : Token} {letters bytes rest : List UInt8}
    (h : literal t letters bytes = some (u, rest)) : rest.length ≤ bytes.length := by
  unfold literal at h
  split at h
  · simp only [Option.some.injEq, Prod.mk.injEq] at h
    simp only [← h.2, List.length_drop]; omega
  · simp at h

theorem stringToken_length {t : Token} {bytes rest : List UInt8}
    (h : stringToken bytes = some (t, rest)) : rest.length ≤ bytes.length := by
  simp only [stringToken, Option.map_eq_some_iff, Prod.exists, Prod.mk.injEq] at h
  obtain ⟨ps, r, hp, _, rfl⟩ := h
  exact pieces_length hp

theorem numberToken_length {negative : Bool} {t : Token} {bytes rest : List UInt8}
    (h : numberToken negative bytes = some (t, rest)) : rest.length < bytes.length := by
  simp only [numberToken, Option.map_eq_some_iff, Prod.exists, Prod.mk.injEq] at h
  obtain ⟨n, r, hn, _, rfl⟩ := h
  exact magnitude_length hn

theorem token_length {b : UInt8} {bytes : List UInt8} {t : Token} {rest : List UInt8}
    (h : token b bytes = some (t, rest)) : rest.length ≤ bytes.length := by
  unfold token at h
  iterate 6
    split at h
    · simp only [Option.some.injEq, Prod.mk.injEq] at h
      exact Nat.le_of_eq (congrArg List.length h.2.symm)
  split at h
  · exact stringToken_length h
  split at h
  · exact Nat.le_of_lt (numberToken_length h)
  iterate 3
    split at h
    · exact literal_length h
  have := numberToken_length h
  simp only [List.length_cons] at this
  omega

/-- All tokens of a text, or `none` where no token starts. -/
def scan : List UInt8 → Option (List Token)
  | [] => some []
  | b :: bytes =>
      if isSpace b then scan bytes
      else
        match h : token b bytes with
        | none => none
        | some (t, rest) =>
            have : rest.length ≤ bytes.length := token_length h
            (scan rest).map (t :: ·)
termination_by bytes => bytes.length

/-! ## Values -/

/-- An array or object that has been opened and not yet closed. Its items or fields stand with the
latest first; the key of an object belongs to the value that is being read. -/
inductive Frame where
  | array (items : List Json)
  | object (fields : List (Option String × Json)) (key : Option String)

/-- Where a text stands between two tokens. -/
inductive Position where
  /-- A value must come. -/
  | value (stack : List Frame)
  /-- Just behind an opening bracket. -/
  | arrayStart (stack : List Frame)
  /-- Just behind an opening brace. -/
  | objectStart (stack : List Frame)
  /-- Behind a comma in an object: a key must come. -/
  | key (fields : List (Option String × Json)) (stack : List Frame)
  /-- Behind a key. -/
  | colon (fields : List (Option String × Json)) (key : Option String) (stack : List Frame)
  /-- Behind a value. -/
  | ended (v : Json) (stack : List Frame)

/-- A token where a value must come. -/
def beginValue (stack : List Frame) : Token → Option Position
  | .openArray => some (.arrayStart stack)
  | .openObject => some (.objectStart stack)
  | .null => some (.ended .null stack)
  | .bool b => some (.ended (.bool b) stack)
  | .number n => some (.ended (.number n) stack)
  | .string s => some (.ended (.string s) stack)
  | _ => none

/-- The position behind one more token. -/
def Position.feed : Position → Token → Option Position
  | .value stack, t => beginValue stack t
  | .arrayStart stack, .closeArray => some (.ended (.array []) stack)
  | .arrayStart stack, t => beginValue (.array [] :: stack) t
  | .objectStart stack, .closeObject => some (.ended (.object []) stack)
  | .objectStart stack, .string k => some (.colon [] k stack)
  | .key fields stack, .string k => some (.colon fields k stack)
  | .colon fields k stack, .colon => some (.value (.object fields k :: stack))
  | .ended v (.array items :: stack), .comma => some (.value (.array (v :: items) :: stack))
  | .ended v (.array items :: stack), .closeArray =>
      some (.ended (.array (v :: items).reverse) stack)
  | .ended v (.object fields k :: stack), .comma => some (.key ((k, v) :: fields) stack)
  | .ended v (.object fields k :: stack), .closeObject =>
      some (.ended (.object ((k, v) :: fields).reverse) stack)
  | _, _ => none

/-- The position behind a sequence of tokens. -/
def Position.run : Position → List Token → Option Position
  | p, [] => some p
  | p, t :: ts =>
      match p.feed t with
      | none => none
      | some p => p.run ts

/-- The value that exactly these tokens make up. -/
def ofTokens? (ts : List Token) : Option Json :=
  match (Position.value []).run ts with
  | some (.ended v []) => some v
  | _ => none

/-- The value of a text. -/
def parse (bytes : List UInt8) : Option Json := (scan bytes).bind ofTokens?

end MetricFanout.Json
