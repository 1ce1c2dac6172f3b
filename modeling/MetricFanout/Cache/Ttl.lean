import MetricFanout.Metric.Basic
/-!
# A cache whose entries expire

An entry is live for a fixed time after it was put. A look-up of an expired entry removes it and is
a miss; a purge removes all expired entries at once. The cache counts hits and misses and keeps an
account of the bytes that its entries take.

## Implementation notes

The account is kept by adding and subtracting weights as entries come and go, and it is a signed
number, shown as zero when it is negative. An entry remembers the weight that was added for it.
-/

namespace MetricFanout

/-- Values that take a number of bytes. -/
class Weigh (α : Type) where
  weight : α → Nat

/-- A text weighs its bytes. -/
instance : Weigh String := ⟨String.utf8ByteSize⟩

/-- A match weighs its path, and one byte for its flag. -/
instance : Weigh Match := ⟨fun m => m.path.utf8ByteSize + 1⟩

/-- A list weighs what its items weigh. -/
instance {α : Type} [Weigh α] : Weigh (List α) :=
  ⟨List.foldr (fun x total => Weigh.weight x + total) 0⟩

/-- A find answer kept for later: its matches and the backends that reported them. -/
structure CachedFind where
  found : List Match
  backends : List String
  deriving DecidableEq, Inhabited

/-- The matches and the backends. -/
instance : Weigh CachedFind := ⟨fun c => Weigh.weight c.found + Weigh.weight c.backends⟩

/-- A stored value, the time at which it was put, and the weight that was counted for it. -/
structure CacheEntry (α : Type) where
  value : α
  putAt : Nat
  weight : Nat
  deriving DecidableEq, Inhabited

/-- A cache. Keys are distinct; times are in milliseconds. -/
structure TtlCache (α : Type) where
  name : String
  ttl : Nat
  entries : List (String × CacheEntry α) := []
  bytes : Int := 0
  hits : Nat := 0
  misses : Nat := 0
  deriving Inhabited

namespace TtlCache

variable {α : Type}

/-- Whether an entry is still live at a time. -/
def live (c : TtlCache α) (now : Nat) (e : CacheEntry α) : Bool := now - e.putAt < c.ttl

/-- The stored entry of a key, live or not. -/
def entry? (c : TtlCache α) (key : String) : Option (CacheEntry α) :=
  (c.entries.find? (fun e => e.1 == key)).map Prod.snd

/-- Entries without that of a key. -/
def without (key : String) (entries : List (String × CacheEntry α)) :
    List (String × CacheEntry α) :=
  entries.filter fun e => e.1 != key

/-- Look a key up. An expired entry is removed. -/
def get (c : TtlCache α) (now : Nat) (key : String) : Option α × TtlCache α :=
  match c.entry? key with
  | some e =>
      if c.live now e then (some e.value, { c with hits := c.hits + 1 })
      else
        (none, { c with entries := without key c.entries, bytes := c.bytes - e.weight
                        misses := c.misses + 1 })
  | none => (none, { c with misses := c.misses + 1 })

/-- Put a value under a key; its time starts again. -/
def put [Weigh α] (c : TtlCache α) (now : Nat) (key : String) (value : α) : TtlCache α :=
  let weight := key.utf8ByteSize + Weigh.weight value
  let old := ((c.entry? key).map CacheEntry.weight).getD 0
  { c with entries := without key c.entries ++ [(key, ⟨value, now, weight⟩)]
           bytes := c.bytes + weight - old }

/-- Remove all expired entries, and say how many there were. -/
def purge (c : TtlCache α) (now : Nat) : Nat × TtlCache α :=
  let expired := c.entries.filter fun e => !c.live now e.2
  let freed : Nat := expired.foldr (fun e total => e.2.weight + total) 0
  (expired.length,
    { c with entries := c.entries.filter fun e => c.live now e.2, bytes := c.bytes - freed })

/-- The bytes that the entries take. -/
def size (c : TtlCache α) : Nat := c.bytes.toNat

/-- The number of stored entries, expired ones that nobody has met included. -/
def count (c : TtlCache α) : Nat := c.entries.length

end TtlCache

end MetricFanout
