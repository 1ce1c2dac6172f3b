import MetricFanout.Metric.Basic
/-!
# Unions in first-seen order

A union keeps the first item under each key, in the order in which keys were first seen. It grows
batch by batch.
-/

namespace MetricFanout

/-- Items that are told apart by a key. -/
class Keyed (α : Type) where
  key : α → String

instance : Keyed Match := ⟨Match.path⟩

instance : Keyed Series := ⟨Series.name⟩

/-- A union under construction: the keys seen so far and the items kept, in order. -/
structure FirstSeen (α : Type) where
  seen : List String := []
  items : List α := []

namespace FirstSeen

variable {α : Type} [Keyed α]

/-- Keep an item unless its key has been seen. -/
def insert (u : FirstSeen α) (a : α) : FirstSeen α :=
  if u.seen.contains (Keyed.key a) then u
  else { seen := Keyed.key a :: u.seen, items := u.items ++ [a] }

/-- Add a batch of items, one after the other. -/
def extend (u : FirstSeen α) (batch : List α) : FirstSeen α := batch.foldl insert u

/-- The number of items kept. -/
def size (u : FirstSeen α) : Nat := u.items.length

/-- Whether nothing has been kept. -/
def isEmpty (u : FirstSeen α) : Bool := u.items.isEmpty

/-- The items kept. -/
def toList (u : FirstSeen α) : List α := u.items

end FirstSeen

end MetricFanout
