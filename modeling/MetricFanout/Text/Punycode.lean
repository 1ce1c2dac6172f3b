/-!
# Names beyond ASCII, written in ASCII

A label of a name that holds characters beyond ASCII is written with letters, digits and hyphens:
first its ASCII characters and a hyphen, then digits that say which other characters go where.

The digits spell numbers in base 36. Each number is the distance to the next insertion, counted over
all places of the label for one character after the other, and a digit below a threshold ends its
number. The thresholds follow the sizes of the numbers met so far.
-/

namespace MetricFanout.Punycode

/-- The base of the numbers. -/
def base : Nat := 36

/-- The value of a digit: letters of lower case come before the ten digits. -/
def digit? (c : Char) : Option Nat :=
  if 'a' ≤ c && c ≤ 'z' then some (c.toNat - 97)
  else if '0' ≤ c && c ≤ '9' then some (c.toNat - 22)
  else none

/-- Reading in progress. -/
structure State where
  output : List Char
  /-- The character that is inserted next, if the next number is small. -/
  code : Nat := 0x80
  /-- The place behind the last insertion. -/
  place : Nat := 0
  bias : Nat := 72
  /-- The number read so far, the weight of its next digit, and the rank of that digit. -/
  number : Nat := 0
  weight : Nat := 1
  rank : Nat := base

/-- The threshold of a digit. -/
def threshold (rank bias : Nat) : Nat := max 1 (min 26 (rank - bias))

/-- The bias for a distance that has been brought to scale. -/
def biasOf (rank distance : Nat) : Nat :=
  if 455 < distance then biasOf (rank + base) (distance / 35)
  else rank + base * distance / (distance + 38)
termination_by distance

/-- The bias after an insertion at a distance, by the length of the label behind it. -/
def adapt (distance length : Nat) (first : Bool) : Nat :=
  let distance := distance / (if first then 700 else 2)
  biasOf 0 (distance + distance / length)

/-- Insert the character that a finished number stands for. -/
def State.insert (s : State) (number : Nat) : Option State :=
  let length := s.output.length + 1
  let code := s.code + (s.place + number) / length
  let place := (s.place + number) % length
  if code.isValidChar then
    some {
      output := s.output.insertIdx place (Char.ofNat code)
      code := code
      place := place + 1
      bias := adapt number length (s.place = 0) }
  else none

/-- Read one more digit. -/
def State.next (s : State) (c : Char) : Option State := do
  let d ← digit? c
  let number := s.number + d * s.weight
  let least := threshold s.rank s.bias
  if d < least then s.insert number
  else
    return { s with
      number := number, weight := s.weight * (base - least), rank := s.rank + base }

/-- The label that a text stands for. -/
def decode? (cs : List Char) : Option (List Char) :=
  let digits := (cs.reverse.takeWhile (· ≠ '-')).reverse
  let plain := cs.take (cs.length - digits.length)
  if plain = ['-'] then none
  else
    match digits.foldlM State.next { output := plain.dropLast } with
    | some s => if s.rank = base then some s.output else none
    | none => none

end MetricFanout.Punycode
