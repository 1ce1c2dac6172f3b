/-!
# Socket addresses

The text of an internet address with a port: four decimal numbers and a port, or a bracketed address
of eight hexadecimal groups, perhaps with a numeric zone, and a port. Names are not resolved.

A run of zero groups may be written as two colons, and the last two groups as four decimal numbers.
Every function steps over what stands at the front and hands back the rest. Decimal numbers of an
address do not start with a zero; those of ports and zones may.
-/

namespace MetricFanout.SocketAddress

/-- The value of a digit in a base up to sixteen. -/
def digit? (base : Nat) (c : Char) : Option Nat :=
  let value :=
    if c.isDigit then c.toNat - 48
    else if 'a' ≤ c ∧ c ≤ 'f' then c.toNat - 87
    else if 'A' ≤ c ∧ c ≤ 'F' then c.toNat - 55
    else base
  if value < base then some value else none

/-- The digits at the front. -/
def digits (base : Nat) (cs : List Char) : List Nat :=
  (cs.takeWhile fun c => (digit? base c).isSome).filterMap (digit? base)

/-- The number that digits denote. -/
def valueOf (base : Nat) (ds : List Nat) : Nat := ds.foldl (fun n d => n * base + d) 0

/-- Step over one given character. -/
def skip? (c : Char) : List Char → Option (List Char)
  | d :: rest => if c = d then some rest else none
  | [] => none

/-- Step over a decimal number up to 255. -/
def octet? (cs : List Char) : Option (List Char) :=
  let ds := digits 10 cs
  if ds.isEmpty || 3 < ds.length || (1 < ds.length && ds.head? = some 0) || 255 < valueOf 10 ds then
    none
  else some (cs.drop ds.length)

/-- Step over four decimal numbers with points between. -/
def dotted? (cs : List Char) : Option (List Char) := do
  let cs ← octet? cs
  let cs ← octet? (← skip? '.' cs)
  let cs ← octet? (← skip? '.' cs)
  octet? (← skip? '.' cs)

/-- Step over one to four hexadecimal digits. -/
def group? (cs : List Char) : Option (List Char) :=
  let ds := digits 16 cs
  if ds.isEmpty || 4 < ds.length then none else some (cs.drop ds.length)

/-- Step over a decimal number up to a bound. -/
def bounded? (bound : Nat) (cs : List Char) : Option (List Char) :=
  let ds := digits 10 cs
  if ds.isEmpty || bound < valueOf 10 ds then none else some (cs.drop ds.length)

/-- Step over a port with its colon. -/
def port? (cs : List Char) : Option (List Char) := (skip? ':' cs).bind (bounded? (UInt16.size - 1))

/-- Step over what parts a group from the one before it. -/
def skipColon? (first : Bool) (cs : List Char) : Option (List Char) :=
  if first then some cs else skip? ':' cs

/-- Step over at most `left` groups. Says how many there were, and whether they ended in a dotted
address, which counts for two and needs room for two. -/
def groups : (left : Nat) → (first : Bool) → List Char → Nat × Bool × List Char
  | 0, _, cs => (0, false, cs)
  | left + 1, first, cs =>
      match if left = 0 then none else (skipColon? first cs).bind dotted? with
      | some rest => (2, true, rest)
      | none =>
          match (skipColon? first cs).bind group? with
          | none => (0, false, cs)
          | some rest => let (n, ended, r) := groups left false rest; (n + 1, ended, r)

/-- Step over an address of eight groups. Two colons stand for at least one group of zeros, and no
dotted address stands in front of them. -/
def grouped? (cs : List Char) : Option (List Char) :=
  match groups 8 true cs with
  | (8, _, rest) => some rest
  | (_, true, _) => none
  | (n, false, rest) => do
      let rest ← skip? ':' (← skip? ':' rest)
      return (groups (7 - n) true rest).2.2

/-- Step over a zone, if there is one. -/
def skipZone (cs : List Char) : List Char :=
  ((skip? '%' cs).bind (bounded? (UInt32.size - 1))).getD cs

/-- Whether a text is a socket address. -/
def isValid (text : String) : Bool :=
  let cs := text.toList
  (dotted? cs).bind port? = some [] ||
    (do
      let rest ← grouped? (← skip? '[' cs)
      port? (← skip? ']' (skipZone rest))) = some []

end MetricFanout.SocketAddress
