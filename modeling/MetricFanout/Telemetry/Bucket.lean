/-!
# Latency buckets

Latencies are counted in buckets whose bounds double: bucket `i` ends at `50 · 2^i` milliseconds.
All slower requests fall into one more bucket behind the last.

Bounds are 128-bit words. The bits that a bound would need above them are dropped, and a bound whose
index is 128 or more is the largest word.
-/

namespace MetricFanout.Bucket

/-- The upper bound of bucket 0 in milliseconds. -/
def base : Nat := 50

/-- The number of bits of a bound. -/
def width : Nat := 128

/-- The number of words of that many bits. -/
def words : Nat := Nat.pow 2 width

/-- The upper bound of a bucket in milliseconds. -/
def upper (i : Nat) : Nat := if i < width then (base <<< i) % words else words - 1

/-- The first of the next `count` buckets from `i` on whose bound is above `ms`, or the one behind
them. -/
def find (ms : Nat) : (count i : Nat) → Nat
  | 0, i => i
  | count + 1, i => if ms < upper i then i else find ms count (i + 1)

/-- The bucket of a latency among `buckets` buckets. -/
def ofMillis (ms buckets : Nat) : Nat := find ms buckets 0

/-- The whole milliseconds of a duration. -/
def millis (secs nanos : Nat) : Nat := (secs * 1000000000 + nanos) / 1000000

/-- A number with at least five digits. -/
def padded (n : Nat) : String :=
  let digits := (toString n).toList
  String.ofList (List.replicate (5 - digits.length) '0' ++ digits)

/-- The label of a bucket: its bounds. -/
def label (i : Nat) : String :=
  padded (if i = 0 then 0 else upper (i - 1)) ++ "ms_to_" ++ padded (upper i) ++ "ms"

/-- The largest number of buckets that a configuration may ask for. -/
def maxCount : Nat := 32

end MetricFanout.Bucket
