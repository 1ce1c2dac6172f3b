import MetricFanout.Text.Utf8
/-!
# Percent escapes

A byte that may not stand for itself is written as a percent sign and two hexadecimal digits.
Reading is lenient: a percent sign without two digits stands for itself.
-/

namespace MetricFanout.Percent

/-- An upper-case hexadecimal digit. -/
def digit (n : Nat) : Char := Char.ofNat (if n < 10 then 48 + n else 55 + n)

/-- The escape of a byte. -/
def escapeByte (b : UInt8) : List Char := ['%', digit (b.toNat / 16), digit (b.toNat % 16)]

/-- The value of a hexadecimal digit of either case. -/
def value? (n : Nat) : Option Nat :=
  if 48 ≤ n && n ≤ 57 then some (n - 48)
  else if 97 ≤ n && n ≤ 102 then some (n - 87)
  else if 65 ≤ n && n ≤ 70 then some (n - 55)
  else none

/-- Replace escapes by their bytes. -/
def decode : List UInt8 → List UInt8
  | [] => []
  | b :: rest =>
      if b = 0x25 then
        match rest with
        | h :: l :: rest' =>
            match value? h.toNat, value? l.toNat with
            | some hi, some lo => UInt8.ofNat (hi * 16 + lo) :: decode rest'
            | _, _ => b :: decode (h :: l :: rest')
        | rest => b :: decode rest
      else b :: decode rest
termination_by bytes => bytes.length

/-- The escapes of the bytes of a character. -/
def escapeChar (c : Char) : List Char := (Utf8.encodeChar c).flatMap escapeByte

/-- Escape the characters of a class. -/
def encodeWith (mustEscape : Char → Bool) (cs : List Char) : List Char :=
  cs.flatMap fun c => if mustEscape c then escapeChar c else [c]

end MetricFanout.Percent
