/-!
# Binary floating-point values as exact numbers

A finite value of a binary format is `m · 2^e` with whole `m`. This module reads a bit pattern as
such a pair and rounds an exact quotient of naturals to the nearest bit pattern, ties to the even
one. All of it is arithmetic of naturals: `Binary64` and `Binary32` hold their bits, so two values
are equal exactly when their bits are, also for zeros of both signs.

## Implementation notes

Without its sign a bit pattern is a natural number, its *code*, and codes are ordered as the values
are: the next larger value has the next code. Rounding therefore yields a code by one division,
and a carry out of the fraction lands in the exponent by itself.
-/

namespace MetricFanout

/-- The sizes that make up a binary format: bits of the fraction and bits of the exponent. -/
structure BinaryFormat where
  fractionBits : Nat
  exponentBits : Nat

namespace BinaryFormat

/-- Double precision. -/
def double : BinaryFormat := ⟨52, 11⟩

/-- Single precision. -/
def single : BinaryFormat := ⟨23, 8⟩

/-- The number of codes in one binade. -/
def hidden (f : BinaryFormat) : Nat := Nat.pow 2 f.fractionBits

/-- The exponent of the smallest step: that of the subnormal values. -/
def minExponent (f : BinaryFormat) : Int :=
  2 - (Nat.pow 2 (f.exponentBits - 1) : Int) - f.fractionBits

/-- The code of infinity; larger codes are no numbers. -/
def infinity (f : BinaryFormat) : Nat := (Nat.pow 2 f.exponentBits - 1) * f.hidden

/-- The code of the plain non-number. -/
def nonNumber (f : BinaryFormat) : Nat := f.infinity + f.hidden / 2

/-- The code's sign bit. -/
def signBit (f : BinaryFormat) : Nat := Nat.pow 2 (f.exponentBits + f.fractionBits)

/-- The pair `(m, e)` with value `m · 2^e` of a finite code. -/
def parts (f : BinaryFormat) (code : Nat) : Nat × Int :=
  let field := code / f.hidden
  let fraction := code % f.hidden
  if field = 0 then (fraction, f.minExponent)
  else (f.hidden + fraction, f.minExponent + (field - 1 : Nat))

/-- `n · 2^e` as a quotient of naturals. -/
def scaled (n : Nat) (e : Int) : Nat × Nat :=
  if 0 ≤ e then (n * Nat.pow 2 e.toNat, 1) else (n, Nat.pow 2 (-e).toNat)

/-- The exponent `k` with `2^k ≤ num / den < 2^(k+1)`, for positive `num` and `den`. -/
def binade (num den : Nat) : Int :=
  let guess : Int := (num.log2 : Int) - (den.log2 : Int)
  let (a, b) := scaled 1 guess
  if den * a ≤ num * b then guess else guess - 1

/-- The quotient `num / den` rounded to a whole number, a half to the even neighbour. -/
def roundHalfEven (num den : Nat) : Nat :=
  let q := num / den
  let r := num % den
  if 2 * r < den then q
  else if den < 2 * r then q + 1
  else if q % 2 = 0 then q else q + 1

/-- The code nearest to `num / den`; a half goes to the even code, and what is beyond the largest
value by half a step or more becomes infinity. -/
def round (f : BinaryFormat) (num den : Nat) : Nat :=
  if num = 0 then 0
  else
    let e := max f.minExponent (binade num den - f.fractionBits)
    let (up, down) := scaled 1 e
    let m := roundHalfEven (num * down) (den * up)
    min ((e - f.minExponent).toNat * f.hidden + m) f.infinity

end BinaryFormat

/-- A double-precision value, by its bits. -/
structure Binary64 where
  bits : UInt64
  deriving DecidableEq, Repr, Inhabited

/-- A single-precision value, by its bits. -/
structure Binary32 where
  bits : UInt32
  deriving DecidableEq, Repr, Inhabited

namespace Binary64

/-- The value of a sign and a code. -/
def ofCode (negative : Bool) (code : Nat) : Binary64 :=
  ⟨UInt64.ofNat (if negative then BinaryFormat.double.signBit + code else code)⟩

/-- Whether the sign bit is set, which it also is for minus zero. -/
def negative (x : Binary64) : Bool := BinaryFormat.double.signBit ≤ x.bits.toNat

/-- The bits without the sign. -/
def code (x : Binary64) : Nat := x.bits.toNat % BinaryFormat.double.signBit

/-- Neither an infinity nor a non-number. -/
def isFinite (x : Binary64) : Bool := x.code < BinaryFormat.double.infinity

/-- Plus zero. -/
def zero : Binary64 := ⟨0⟩

/-- The whole number `n`, rounded. -/
def ofNat (n : Nat) : Binary64 := ofCode false (BinaryFormat.double.round n 1)

/-- The magnitude as a quotient of naturals; meant for finite values. -/
def quotient (x : Binary64) : Nat × Nat :=
  let (m, e) := BinaryFormat.double.parts x.code
  BinaryFormat.scaled m e

end Binary64

namespace Binary32

/-- The value nearest to a magnitude with a sign. -/
def ofQuotient (negative : Bool) (num den : Nat) : Binary32 :=
  let code := BinaryFormat.single.round num den
  ⟨UInt32.ofNat (if negative then BinaryFormat.single.signBit + code else code)⟩

/-- The value nearest to an integer. -/
def ofInt (i : Int) : Binary32 := ofQuotient (i < 0) i.natAbs 1

/-- Whether the sign bit is set. -/
def negative (x : Binary32) : Bool := BinaryFormat.single.signBit ≤ x.bits.toNat

/-- The bits without the sign. -/
def code (x : Binary32) : Nat := x.bits.toNat % BinaryFormat.single.signBit

/-- Plus zero. -/
def zero : Binary32 := ⟨0⟩

end Binary32

/-- The single-precision value nearest to a finite double-precision one. -/
def Binary64.toSingle (x : Binary64) : Binary32 :=
  let (num, den) := x.quotient
  .ofQuotient x.negative num den

end MetricFanout
