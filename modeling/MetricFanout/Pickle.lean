import MetricFanout.Decimal.Binary
import MetricFanout.Text.Utf8
/-!
# Pickled values

A pickle is a program for a stack machine that builds one value. This module writes the programs of
protocol 3 for the values that answers are made of.

A list is built in batches: after each thousandth item the items so far are appended and a new batch
is begun, even if nothing follows.
-/

namespace MetricFanout

/-- A value that can be pickled. -/
inductive Pickle where
  | none
  | bool (b : Bool)
  /-- An integer of at most 64 bits. -/
  | int (i : Int)
  | float (x : Binary64)
  | text (s : String)
  | list (items : List Pickle)
  | tuple (items : List Pickle)
  | dict (fields : List (String × Pickle))
  deriving Inhabited

namespace Pickle

/-- The `count` lowest bytes of a natural number, the least significant first. -/
def littleEndian : (count n : Nat) → List UInt8
  | 0, _ => []
  | count + 1, n => UInt8.ofNat (n % 256) :: littleEndian count (n / 256)

/-- The number of items in a batch. -/
def batchSize : Nat := 1000

/-- An integer: four bytes if it fits, else eight, in two's complement. -/
def intBytes (i : Int) : List UInt8 :=
  if Int32.minValue.toInt ≤ i ∧ i ≤ Int32.maxValue.toInt then
    0x4A :: littleEndian 4 (i % UInt32.size).toNat
  else 0x8A :: 8 :: littleEndian 8 (i % UInt64.size).toNat

/-- A text: its length in bytes, then the bytes. -/
def textBytes (s : String) : List UInt8 :=
  let bytes := Utf8.ofString s
  0x58 :: (littleEndian 4 bytes.length ++ bytes)

/-- A double-precision value, the most significant byte first. -/
def floatBytes (x : Binary64) : List UInt8 := 0x47 :: (littleEndian 8 x.bits.toNat).reverse

mutual
/-- The instructions that push a value. -/
def code : Pickle → List UInt8
  | .none => [0x4E]
  | .bool true => [0x88]
  | .bool false => [0x89]
  | .int i => intBytes i
  | .float x => floatBytes x
  | .text s => textBytes s
  | .list [] => [0x5D]
  | .list (v :: rest) => 0x5D :: 0x28 :: batches 0 (v :: rest)
  | .tuple items => 0x28 :: (sequence items ++ [0x74])
  | .dict fields => 0x7D :: 0x28 :: (fieldCode fields ++ [0x75])

/-- The items of a list behind `done` items of it, with the ends of their batches. -/
def batches (done : Nat) : List Pickle → List UInt8
  | [] => [0x65]
  | v :: rest =>
      v.code ++ (if (done + 1) % batchSize = 0 then [0x65, 0x28] else []) ++ batches (done + 1) rest

/-- Values one after the other. -/
def sequence : List Pickle → List UInt8
  | [] => []
  | v :: rest => v.code ++ sequence rest

/-- Keys and values one after the other. -/
def fieldCode : List (String × Pickle) → List UInt8
  | [] => []
  | (k, v) :: rest => textBytes k ++ (v.code ++ fieldCode rest)
end

/-- The whole program: version, value, stop. -/
def encode (v : Pickle) : List UInt8 := 0x80 :: 3 :: (v.code ++ [0x2E])

end Pickle

end MetricFanout
