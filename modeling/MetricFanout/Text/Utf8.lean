/-!
# Text as UTF-8 bytes

Characters are written as one to four bytes. Reading goes character by character: `leading` looks
at the front of a byte sequence and says which character stands there and how many bytes it takes,
or how many bytes an ill-formed start spoils. Strict reading refuses an ill-formed start; lenient
reading puts U+FFFD in its place and goes on behind the spoiled bytes.

## Implementation notes

The byte after the first one decides whether a sequence is shortest-form, below the surrogates and
at most U+10FFFF, so the whole grammar is the range `second` of that byte; all later bytes are plain
continuation bytes.
-/

namespace MetricFanout.Utf8

/-- The bytes of one character. -/
abbrev encodeChar (c : Char) : List UInt8 := String.utf8EncodeChar c

/-- The bytes of a list of characters. -/
def encode (cs : List Char) : List UInt8 := cs.flatMap encodeChar

/-- The bytes of a string. -/
def ofString (s : String) : List UInt8 := encode s.toList

/-- The number of bytes a lead byte announces behind itself, with the value bits it carries. -/
def lead (b : UInt8) : Option (Nat × Nat) :=
  let n := b.toNat
  if n < 0x80 then some (0, n)
  else if n < 0xC2 then none
  else if n < 0xE0 then some (1, n - 0xC0)
  else if n < 0xF0 then some (2, n - 0xE0)
  else if n < 0xF5 then some (3, n - 0xF0)
  else none

/-- Whether `c` may follow the lead byte `b`: the range that excludes overlong forms, surrogates and
values above U+10FFFF. -/
def second (b c : UInt8) : Bool :=
  let low := if b = 0xE0 then 0xA0 else if b = 0xF0 then 0x90 else 0x80
  let high := if b = 0xED then 0x9F else if b = 0xF4 then 0x8F else 0xBF
  low ≤ c.toNat && c.toNat ≤ high

/-- A continuation byte. -/
def continues (c : UInt8) : Bool := 0x80 ≤ c.toNat && c.toNat ≤ 0xBF

/-- Read `left` more continuation bytes onto the value `acc`. The number says how many bytes were
used, also when the sequence breaks off. -/
def tail : (left acc used : Nat) → List UInt8 → Option Char × Nat
  | 0, acc, used, _ => (some (Char.ofNat acc), used)
  | left + 1, acc, used, c :: rest =>
      if continues c then tail left (acc * 64 + (c.toNat - 0x80)) (used + 1) rest else (none, used)
  | _ + 1, _, used, [] => (none, used)

/-- The character that starts with the byte `b`, when `rest` follows it, and the number of bytes of
`rest` that belong to it. Without a character the number counts the bytes of `rest` that are spoiled
together with `b`. -/
def leading (b : UInt8) (rest : List UInt8) : Option Char × Nat :=
  match lead b with
  | none => (none, 0)
  | some (0, value) => (some (Char.ofNat value), 0)
  | some (left + 1, value) =>
      match rest with
      | [] => (none, 0)
      | c :: rest =>
          if second b c then tail left (value * 64 + (c.toNat - 0x80)) 1 rest else (none, 0)

/-- Strict reading: all bytes must be well formed. -/
def decode? : List UInt8 → Option (List Char)
  | [] => some []
  | b :: rest =>
      match leading b rest with
      | (none, _) => none
      | (some c, used) => (decode? (rest.drop used)).map (c :: ·)
termination_by bytes => bytes.length
decreasing_by simp only [List.length_drop, List.length_cons]; omega

/-- Lenient reading: each ill-formed start becomes one U+FFFD. -/
def decodeLossy : List UInt8 → List Char
  | [] => []
  | b :: rest =>
      let (c, used) := leading b rest
      c.getD (Char.ofNat 0xFFFD) :: decodeLossy (rest.drop used)
termination_by bytes => bytes.length
decreasing_by simp only [List.length_drop, List.length_cons]; omega

/-- Strict reading into a string. -/
def toString? (bytes : List UInt8) : Option String := (decode? bytes).map String.ofList

end MetricFanout.Utf8
