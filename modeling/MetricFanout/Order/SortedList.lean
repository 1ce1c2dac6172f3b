/-!
# Entries in the order of their keys
-/

namespace MetricFanout.SortedList

variable {κ α : Type} [LT κ] [DecidableRel (α := κ) (· < ·)] [DecidableEq κ]

/-- Set the entry of a key in a list that is sorted by key. -/
def insert (key : κ) (value : α) : List (κ × α) → List (κ × α)
  | [] => [(key, value)]
  | e :: rest =>
      if key < e.1 then (key, value) :: e :: rest
      else if key = e.1 then (key, value) :: rest
      else e :: insert key value rest

omit [LT κ] [DecidableRel (α := κ) (· < ·)] in
/-- The entry of a key. -/
def get? (key : κ) (entries : List (κ × α)) : Option α :=
  (entries.find? (fun e => e.1 = key)).map Prod.snd

omit [LT κ] [DecidableRel (α := κ) (· < ·)] in
/-- The list without the entry of a key. -/
def erase (key : κ) (entries : List (κ × α)) : List (κ × α) := entries.filter fun e => e.1 ≠ key

end MetricFanout.SortedList
