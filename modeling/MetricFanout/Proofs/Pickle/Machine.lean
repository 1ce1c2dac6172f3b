import MetricFanout.Pickle
import MetricFanout.Proofs.Text.Utf8
/-!
# The machine that reads pickles

A pickle is read by a stack machine. Most instructions push a value. A mark puts the stack aside and
begins a new one; what has been pushed since then is later taken together: appended to a list, set in a
dictionary, or made a tuple. A stop ends the program, wherever its bytes end.

## Implementation notes

The machine knows the instructions of protocol 3 that build the values of `Pickle`, and refuses all other
bytes. Integers and texts are read as they are defined, not as the writer happens to use them: an integer
may have any number of bytes up to 255, keys may repeat, and a list may be appended to many times.
-/

namespace MetricFanout

namespace Unpickle

open Pickle (littleEndian)

/-! ## Numbers -/

/-- The natural number whose bytes these are, the least significant first. -/
def unsigned (bytes : List UInt8) : Nat := bytes.foldr (fun b n => b.toNat + 256 * n) 0

/-- The integer whose bytes in two's complement these are, the least significant first. -/
def signed (bytes : List UInt8) : Int :=
  if 2 * unsigned bytes < Nat.pow 256 bytes.length then unsigned bytes
  else unsigned bytes - Nat.pow 256 bytes.length

theorem length_littleEndian (count n : Nat) : (littleEndian count n).length = count := by
  induction count generalizing n with
  | zero => rfl
  | succ count ih => rw [littleEndian, List.length_cons, ih]

/-- Bytes keep a number up to multiples of the first number that they cannot hold. -/
theorem unsigned_littleEndian (count n : Nat) :
    unsigned (littleEndian count n) = n % Nat.pow 256 count := by
  induction count generalizing n with
  | zero => exact (Nat.mod_one n).symm
  | succ count ih =>
      have hbyte : (UInt8.ofNat (n % 256)).toNat = n % 256 :=
        Utf8.toNat_ofNat (Nat.mod_lt n (by decide))
      have hcons : unsigned (littleEndian (count + 1) n) =
          (UInt8.ofNat (n % 256)).toNat + 256 * unsigned (littleEndian count (n / 256)) := rfl
      rw [hcons, hbyte, ih]
      change _ = n % 256 ^ (count + 1)
      rw [Nat.pow_succ, Nat.mul_comm (256 ^ count) 256, Nat.mod_mul]
      rfl

/-- The integer between the two halves of what bytes can hold is kept. -/
theorem signed_littleEndian {count : Nat} {i : Int} {size : Nat} (hsize : Nat.pow 256 count = size)
    (hlow : -(size : Int) ≤ 2 * i) (hhigh : 2 * i < size) :
    signed (littleEndian count (i % size).toNat) = i := by
  have hpos : (0 : Int) < size := by omega
  have hnonneg : 0 ≤ i % size := Int.emod_nonneg i (by omega)
  have hlt : i % size < size := Int.emod_lt_of_pos i hpos
  have hvalue : unsigned (littleEndian count (i % size).toNat) = (i % size).toNat := by
    rw [unsigned_littleEndian, hsize, Nat.mod_eq_of_lt (by omega)]
  rw [signed, hvalue, length_littleEndian, hsize]
  by_cases hi : i < 0
  · have hmod : i % size = i + size := by
      rw [← Int.add_emod_right, Int.emod_eq_of_lt (by omega) (by omega)]
    rw [if_neg (by omega)]
    omega
  · have hmod : i % size = i := Int.emod_eq_of_lt (by omega) (by omega)
    rw [if_pos (by omega)]
    omega

/-! ## Instructions -/

/-- What a machine is told to do. -/
inductive Instruction where
  /-- The version of the protocol that follows. -/
  | version (n : UInt8)
  | push (v : Pickle)
  | mark
  /-- Append what has been pushed since the mark to the list below it. -/
  | appends
  /-- Set the keys and values that have been pushed since the mark in the dictionary below it. -/
  | setItems
  /-- Make what has been pushed since the mark a tuple. -/
  | tuple
  | stop

/-- The first `count` bytes, and the bytes behind them. -/
def split? (count : Nat) (bytes : List UInt8) : Option (List UInt8 × List UInt8) :=
  if count ≤ bytes.length then some (bytes.take count, bytes.drop count) else none

/-- Push what the first `count` bytes mean. -/
def operand? (count : Nat) (bytes : List UInt8) (meaning : List UInt8 → Pickle) :
    Option (Instruction × List UInt8) :=
  (split? count bytes).map fun (first, rest) => (.push (meaning first), rest)

/-- A text at the front of bytes. -/
def text? (bytes : List UInt8) : Option (String × List UInt8) :=
  (split? 4 bytes).bind fun (size, rest) =>
    (split? (unsigned size) rest).bind fun (content, rest) =>
      (Utf8.toString? content).map fun s => (s, rest)

/-- The instruction at the front of bytes, and the bytes behind it. -/
def Instruction.read? : List UInt8 → Option (Instruction × List UInt8)
  | 0x80 :: n :: rest => some (.version n, rest)
  | 0x4E :: rest => some (.push .none, rest)
  | 0x88 :: rest => some (.push (.bool true), rest)
  | 0x89 :: rest => some (.push (.bool false), rest)
  | 0x4A :: rest => operand? 4 rest fun bytes => .int (signed bytes)
  | 0x8A :: size :: rest => operand? size.toNat rest fun bytes => .int (signed bytes)
  | 0x47 :: rest =>
      operand? 8 rest fun bytes => .float ⟨UInt64.ofNat (unsigned bytes.reverse)⟩
  | 0x58 :: rest => (text? rest).map fun (s, rest) => (.push (.text s), rest)
  | 0x5D :: rest => some (.push (.list []), rest)
  | 0x7D :: rest => some (.push (.dict []), rest)
  | 0x28 :: rest => some (.mark, rest)
  | 0x65 :: rest => some (.appends, rest)
  | 0x75 :: rest => some (.setItems, rest)
  | 0x74 :: rest => some (.tuple, rest)
  | 0x2E :: rest => some (.stop, rest)
  | _ => none

/-! ## The machine -/

/-- A machine: its stack, the last value first, and the stacks that marks have put aside. -/
structure Machine where
  stack : List Pickle := []
  aside : List (List Pickle) := []

/-- Set a key: an old key keeps its place. -/
def setField (fields : List (String × Pickle)) (k : String) (v : Pickle) : List (String × Pickle) :=
  if fields.any (fun f => f.1 == k) then fields.map fun f => if f.1 = k then (k, v) else f
  else fields ++ [(k, v)]

/-- Set keys and values in turn. -/
def setAll? (fields : List (String × Pickle)) : List Pickle → Option (List (String × Pickle))
  | [] => some fields
  | .text k :: v :: rest => setAll? (setField fields k v) rest
  | _ => none

/-- The newest protocol that is read. -/
def maxVersion : UInt8 := 3

namespace Machine

/-- Push a value. -/
def push (m : Machine) (v : Pickle) : Machine := { m with stack := v :: m.stack }

/-- Follow an instruction that does not end the program. -/
def exec (m : Machine) : Instruction → Option Machine
  | .version n => if n ≤ maxVersion then some m else none
  | .push v => some (m.push v)
  | .mark => some ⟨[], m.stack :: m.aside⟩
  | .appends =>
      match m.aside with
      | (.list items :: stack) :: aside => some ⟨.list (items ++ m.stack.reverse) :: stack, aside⟩
      | _ => none
  | .setItems =>
      match m.aside with
      | (.dict fields :: stack) :: aside =>
          (setAll? fields m.stack.reverse).map fun fields => ⟨.dict fields :: stack, aside⟩
      | _ => none
  | .tuple =>
      match m.aside with
      | stack :: aside => some ⟨.tuple m.stack.reverse :: stack, aside⟩
      | [] => none
  | .stop => none

end Machine

theorem split?_length {count : Nat} {bytes first rest : List UInt8}
    (h : split? count bytes = some (first, rest)) : rest.length ≤ bytes.length := by
  rw [split?] at h
  split at h
  · cases h
    rw [List.length_drop]
    omega
  · cases h

theorem text?_length {bytes rest : List UInt8} {s : String} (h : text? bytes = some (s, rest)) :
    rest.length ≤ bytes.length := by
  obtain ⟨⟨size, behind⟩, hsize, h⟩ := Option.bind_eq_some_iff.1 h
  obtain ⟨⟨content, behind'⟩, hcontent, h⟩ := Option.bind_eq_some_iff.1 h
  obtain ⟨s', _, h⟩ := Option.map_eq_some_iff.1 h
  cases h
  exact Nat.le_trans (split?_length hcontent) (split?_length hsize)

theorem operand?_length {count : Nat} {bytes rest : List UInt8} {meaning : List UInt8 → Pickle}
    {i : Instruction} (h : operand? count bytes meaning = some (i, rest)) :
    rest.length ≤ bytes.length := by
  obtain ⟨⟨first, behind⟩, hsplit, h⟩ := Option.map_eq_some_iff.1 h
  cases h
  exact split?_length hsplit

/-- An instruction has at least one byte. -/
theorem Instruction.read?_length {bytes rest : List UInt8} {i : Instruction}
    (h : read? bytes = some (i, rest)) : rest.length < bytes.length := by
  fun_cases read? bytes
  all_goals simp only [read?] at h
  case case5 => exact Nat.lt_succ_of_le (operand?_length h)
  case case6 => exact Nat.lt_succ_of_le (Nat.le_succ_of_le (operand?_length h))
  case case7 => exact Nat.lt_succ_of_le (operand?_length h)
  case case8 =>
    obtain ⟨⟨s, behind⟩, htext, h⟩ := Option.map_eq_some_iff.1 h
    cases h
    exact Nat.lt_succ_of_le (text?_length htext)
  case case16 => cases h
  -- the other instructions have no operand that has to be looked at
  all_goals
    cases h
    simp only [List.length_cons]
    omega

/-- Follow a program until it stops: the machine at that time, and the bytes that have not been read. -/
def Machine.run (m : Machine) (bytes : List UInt8) : Option (Machine × List UInt8) :=
  match _hread : Instruction.read? bytes with
  | some (.stop, rest) => some (m, rest)
  | some (i, rest) => (m.exec i).bind fun next => next.run rest
  | none => none
termination_by bytes.length
decreasing_by exact Instruction.read?_length _hread

/-- Where there is one more instruction, it is followed. -/
theorem Machine.run_of_exec {m next : Machine} {bytes rest : List UInt8} {i : Instruction}
    (hread : Instruction.read? bytes = some (i, rest)) (hexec : m.exec i = some next) :
    m.run bytes = next.run rest := by
  rw [run]
  split
  · rename_i behind hstop
    rw [hread] at hstop
    cases hstop
    cases hexec
  · rename_i j behind hj hsome
    rw [hread] at hsome
    cases hsome
    rw [hexec, Option.bind_some]
  · rename_i hnone
    rw [hread] at hnone
    cases hnone

theorem Machine.run_stop (m : Machine) (rest : List UInt8) : m.run (0x2E :: rest) = some (m, rest) := by
  rw [run]
  rfl

end Unpickle

end MetricFanout
