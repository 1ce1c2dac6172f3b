import MetricFanout.Text.Punycode
/-!
# Names of hosts

The name of a host may be written in many ways, also with characters beyond ASCII. It is mapped to
one form: labels beyond ASCII are encoded and marked, and all letters are in lower case.

## Implementation notes

What the mapping does beyond ASCII follows from tables of all characters, so that it is a parameter
of everything that reads a host. The program takes `Idna.ascii`, which has no tables: it takes the
names that are written in ASCII, and of the encoded labels those in letters that stand for
themselves in every table. It refuses other names.
-/

namespace MetricFanout

/-- A mapping of names of hosts to their one form in ASCII. -/
class Idna where
  /-- The form of a name that is spelled by bytes without escapes. -/
  toAscii? : List UInt8 → Option (List Char)

/-- Split at every character of a class; there is one part more than such characters. -/
def splitAt (p : Char → Bool) : List Char → List (List Char)
  | [] => [[]]
  | c :: rest =>
      match splitAt p rest with
      | [] => [[c]]
      | part :: more => if p c then [] :: part :: more else (c :: part) :: more

/-- Characters that cannot stand in a name. -/
def Host.isForbidden (c : Char) : Bool :=
  c.toNat ≤ 0x20 || c.toNat = 0x7F || "#/:<>?@[\\]^|%".toList.contains c

namespace Idna

/-- What marks an encoded label. -/
def mark : List Char := ['x', 'n', '-', '-']

/-- Letters beyond ASCII that stand for themselves, as ranges of codes: Latin, Greek and Cyrillic in
lower case, both kinds of kana, ideographs and Hangul syllables. -/
def letters : List (Nat × Nat) :=
  [(0xDF, 0xF6), (0xF8, 0xFF), (0x3AC, 0x3CE), (0x430, 0x45F), (0x3041, 0x3096), (0x30A1, 0x30FA),
    (0x4E00, 0x9FA5), (0xAC00, 0xD7A3)]

/-- Whether a character is one of the letters. -/
def isLetter (c : Char) : Bool := letters.any fun r => r.1 ≤ c.toNat && c.toNat ≤ r.2

/-- Whether a label is not encoded, or stands for one with letters beyond ASCII. -/
def isLabel (label : List Char) : Bool :=
  match label with
  | 'x' :: 'n' :: '-' :: '-' :: digits =>
      match Punycode.decode? digits with
      | some cs =>
          cs.any isLetter && cs.all (fun c => c.toNat < 0x80 || isLetter c) && !mark.isPrefixOf cs
      | none => false
  | _ => true

/-- The form of a name that is written in ASCII: it is brought to lower case. -/
def lower? (bytes : List UInt8) : Option (List Char) :=
  if bytes.all (· < 0x80) then
    let name := bytes.map fun b => (Char.ofNat b.toNat).toLower
    if name.any Host.isForbidden || !(splitAt (· == '.') name).all isLabel then none
    else some name
  else none

/-- The mapping without tables. -/
@[reducible]
def ascii : Idna := ⟨lower?⟩

end Idna

namespace Program

/-- The mapping that the program takes. -/
scoped instance : Idna := Idna.ascii

end Program

end MetricFanout
