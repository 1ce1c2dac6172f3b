import MetricFanout.Decimal.Shortest
/-!
# Numerals

A numeral is a number as it is written: sign, whole digits, fraction, exponent. It is read as an
integer, if it has neither fraction nor exponent, or as a double-precision value; and the integers
and floating-point values that the program writes are laid out as numerals.

Reading a value collects digits into a 64-bit significand while they fit and then scales it once by
a power of ten, each of the two steps rounded. Further whole digits count as powers of ten, further
fraction digits are dropped. Writing uses the shortest digits, positionally for the exponents that a
`Layout` lists.
-/

namespace MetricFanout

/-- A sign written in front of an exponent. -/
inductive Sign where
  | plus
  | minus
  deriving DecidableEq, Repr

/-- A number as it is written, by its decimal digits. -/
structure Numeral where
  negative : Bool
  whole : List Nat
  fraction : Option (List Nat)
  exponent : Option (Option Sign × List Nat)
  deriving DecidableEq, Repr

namespace Numeral

/-- The number that a list of decimal digits denotes. -/
def valueOf (digits : List Nat) : Nat := digits.foldl (fun n d => n * 10 + d) 0

/-- A digit as a character. -/
def digitChar (d : Nat) : Char := Char.ofNat (48 + d)

/-- The digits of a natural number; zero has one. -/
def digitsOf (n : Nat) : List Nat := if n = 0 then [0] else Shortest.digitsOf n

/-- The characters of a numeral. -/
def text (n : Numeral) : List Char :=
  let sign := if n.negative then ['-'] else []
  let fraction := match n.fraction with
    | none => []
    | some ds => '.' :: ds.map digitChar
  let exponent := match n.exponent with
    | none => []
    | some (none, ds) => 'e' :: ds.map digitChar
    | some (some .plus, ds) => 'e' :: '+' :: ds.map digitChar
    | some (some .minus, ds) => 'e' :: '-' :: ds.map digitChar
  sign ++ n.whole.map digitChar ++ fraction ++ exponent

/-- An integer, written out. -/
def ofInt (i : Int) : Numeral := ⟨i < 0, digitsOf i.natAbs, none, none⟩

/-- The integer of a numeral without fraction and exponent. Minus zero is no integer. -/
def toInt? (n : Numeral) : Option Int :=
  if n.fraction.isSome || n.exponent.isSome then none
  else
    let v := valueOf n.whole
    if n.negative then (if v = 0 then none else some (-(v : Int))) else some v

/-- The largest significand. -/
def maxSignificand : Nat := UInt64.size - 1

/-- Append digits to a significand while it fits; the rest is handed back. -/
def absorb (acc : Nat) : List Nat → Nat × List Nat
  | [] => (acc, [])
  | d :: rest =>
      if acc * 10 + d ≤ maxSignificand then absorb (acc * 10 + d) rest else (acc, d :: rest)

/-- The value of `10^k`, rounded. -/
def powerOfTen (k : Nat) : Binary64 := Binary64.ofNat (Nat.pow 10 k)

/-- The product of two magnitudes, rounded. -/
def times (a b : Binary64) : Binary64 :=
  let (n, d) := a.quotient
  let (n', d') := b.quotient
  .ofCode false (BinaryFormat.double.round (n * n') (d * d'))

/-- The quotient of two magnitudes, rounded. -/
def divided (a b : Binary64) : Binary64 :=
  let (n, d) := a.quotient
  let (n', d') := b.quotient
  .ofCode false (BinaryFormat.double.round (n * d') (d * n'))

/-- The largest exponent of a finite power of ten. -/
def maxPower : Nat := 308

/-- Scale a magnitude by `10^e`. An infinite result is refused. -/
def scale (f : Binary64) (e : Int) : Option Binary64 :=
  if e.natAbs ≤ maxPower then
    if 0 ≤ e then
      let g := times f (powerOfTen e.natAbs)
      if g.isFinite then some g else none
    else some (divided f (powerOfTen e.natAbs))
  else if f.code = 0 then some f
  else if 0 ≤ e then none
  else scale (divided f (powerOfTen maxPower)) (e + maxPower)
termination_by (-e).toNat
decreasing_by simp only [maxPower] at *; omega

/-- The largest exponent that is still counted. -/
def maxExponent : Nat := 2147483647

/-- The finite double-precision value that a numeral is read as. -/
def toBinary64? (n : Numeral) : Option Binary64 :=
  let (s, surplus) := absorb 0 n.whole
  let (s, dropped) := absorb s (n.fraction.getD [])
  let shift : Int := (surplus.length : Int) - ((n.fraction.getD []).length - dropped.length : Nat)
  let magnitude : Option Binary64 :=
    match n.exponent with
    | none => scale (.ofNat s) shift
    | some (sign, ds) =>
        let e := valueOf ds
        if maxExponent < e then
          if s ≠ 0 && sign ≠ some Sign.minus then none else some .zero
        else scale (.ofNat s) (if sign = some Sign.minus then shift - e else shift + e)
  magnitude.map fun m => .ofCode n.negative m.code

/-- The exponents of the first digit, from lowest to highest, that are written positionally. -/
structure Layout where
  lowest : Int
  highest : Int

/-- Double precision is written positionally from `0.00001` up to sixteen whole digits. -/
def Layout.double : Layout := ⟨-5, 15⟩

/-- Single precision is written positionally from `0.000001` up to thirteen whole digits. -/
def Layout.single : Layout := ⟨-6, 12⟩

/-- Lay out a decimal. A whole number keeps one zero behind the point; an exponent has a sign. -/
def Layout.numeral (l : Layout) (negative : Bool) (d : Shortest.Decimal) : Numeral :=
  let first := d.scale - 1
  if l.lowest ≤ first && first ≤ l.highest then
    if d.scale ≤ 0 then
      ⟨negative, [0], some (List.replicate (-d.scale).toNat 0 ++ d.digits), none⟩
    else
      let whole := d.digits.take d.scale.toNat
      let rest := d.digits.drop d.scale.toNat
      ⟨negative, whole ++ List.replicate (d.scale.toNat - whole.length) 0,
        some (if rest.isEmpty then [0] else rest), none⟩
  else
    let rest := d.digits.drop 1
    ⟨negative, d.digits.take 1, if rest.isEmpty then none else some rest,
      some (some (if first < 0 then .minus else .plus), digitsOf first.natAbs)⟩

/-- Zero with one fraction digit. -/
def zero (negative : Bool) : Numeral := ⟨negative, [0], some [0], none⟩

/-- A code of a format, laid out; infinities and non-numbers have no numeral. -/
def ofCode (f : BinaryFormat) (l : Layout) (negative : Bool) (code : Nat) : Option Numeral :=
  if f.infinity ≤ code then none
  else if code = 0 then some (zero negative)
  else (Shortest.ofCode f code).map (l.numeral negative)

/-- A double-precision value, written with its shortest digits. -/
def ofBinary64 (x : Binary64) : Option Numeral := ofCode .double .double x.negative x.code

/-- A single-precision value, written with its shortest digits. -/
def ofBinary32 (x : Binary32) : Option Numeral := ofCode .single .single x.negative x.code

end Numeral

end MetricFanout
