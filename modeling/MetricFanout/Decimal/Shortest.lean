import MetricFanout.Decimal.Binary
/-!
# The fewest digits that read back

A binary value stands for the interval of reals that round to it. Its shortest decimal is the one
with the fewest digits in that interval and, among those, the one nearest to the value. The search
goes through the decimal grids from coarse to fine; on each grid only the two neighbours of the
value can be nearest, so only they are tested.

## Implementation notes

The value and the ends of its interval share the unit `2^(e-2)`: the value is `4m`, the upper end
`4m + 2`, and the lower end `4m - 2`, or `4m - 1` just above a power of two, where the next smaller
value is only half a step away. The ends belong to the interval exactly when `m` is even.
-/

namespace MetricFanout.Shortest

/-- A positive decimal `0.d₁d₂d₃… · 10^scale`; the first digit is not zero. -/
structure Decimal where
  digits : List Nat
  scale : Int
  deriving DecidableEq, Repr

/-- The decimal digits of a natural number, the most significant first; none for zero. -/
def digitsOf (n : Nat) : List Nat :=
  if n = 0 then [] else digitsOf (n / 10) ++ [n % 10]

/-- The reals that round to one binary value, as multiples of a common unit. -/
structure Interval where
  low : Nat
  value : Nat
  high : Nat
  closed : Bool
  /-- The unit is `unitNum / unitDen`. -/
  unitNum : Nat
  unitDen : Nat

/-- The interval of the value `m · 2^e` of a format. -/
def Interval.of (f : BinaryFormat) (m : Nat) (e : Int) : Interval :=
  let (unitNum, unitDen) := BinaryFormat.scaled 1 (e - 2)
  let narrow := m = f.hidden && f.minExponent < e
  { low := if narrow then 4 * m - 1 else 4 * m - 2
    value := 4 * m
    high := 4 * m + 2
    closed := m % 2 = 0
    unitNum := unitNum
    unitDen := unitDen }

/-- Whether the decimal `n · num / den` lies in the interval. -/
def Interval.holds (i : Interval) (n num den : Nat) : Bool :=
  let x := n * num * i.unitDen
  let low := i.low * i.unitNum * den
  let high := i.high * i.unitNum * den
  if i.closed then low ≤ x && x ≤ high else low < x && x < high

/-- The least `k` with `num / den < 10^k`. -/
def decimalScale (num den : Nat) : Int :=
  if den ≤ num then (digitsOf (num / den)).length
  else
    -- The least `j` with `den ≤ num · 10^j` is the length of what is below the quotient's ceiling.
    1 - ((digitsOf ((den + num - 1) / num - 1)).length : Int)

/-- The nearest point of the grid `10^p` in the interval, if there is one. A value halfway between
two points goes to the even one. -/
def onGrid (i : Interval) (p : Int) : Option Nat :=
  let num := if 0 ≤ p then Nat.pow 10 p.toNat else 1
  let den := if 0 ≤ p then 1 else Nat.pow 10 (-p).toNat
  -- the value is `a / b` grid steps
  let a := i.value * i.unitNum * den
  let b := i.unitDen * num
  let below := a / b
  let twice := 2 * (a % b)
  let lowHit := i.holds below num den
  let highHit := i.holds (below + 1) num den
  if lowHit && highHit then
    if twice < b || (twice = b && below % 2 = 0) then some below else some (below + 1)
  else if lowHit then some below
  else if highHit then some (below + 1)
  else none

/-- Search the grids with `n`, `n + 1`, … digits, at most `fuel` of them. -/
def search (i : Interval) (scale : Int) : (fuel n : Nat) → Option Decimal
  | 0, _ => none
  | fuel + 1, n =>
      match onGrid i (scale - n) with
      | some d =>
          let digits := digitsOf d
          -- The grid point `10^n` has one digit more than the grid.
          some ⟨(digits.reverse.dropWhile (· = 0)).reverse, scale - n + digits.length⟩
      | none => search i scale fuel (n + 1)

/-- The shortest decimal of a positive finite code of a format. Seventeen digits always suffice for
the formats used here; the bound of the search is larger. -/
def ofCode (f : BinaryFormat) (code : Nat) : Option Decimal :=
  let (m, e) := f.parts code
  let i := Interval.of f m e
  search i (decimalScale (i.value * i.unitNum) i.unitDen) 20 1

end MetricFanout.Shortest
