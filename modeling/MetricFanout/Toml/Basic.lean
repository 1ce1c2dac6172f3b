import MetricFanout.Decimal.Binary
/-!
# TOML values

A value of a TOML document, and how records are read out of values. A record is written as a table,
or as an array of its fields in their declared order; what is unknown or surplus is skipped, and a
field that is missing keeps its default.

A moment has no fields that a record could know, so where a record is wanted it is a table with
unknown fields only.
-/

namespace MetricFanout

/-- A calendar date. -/
structure Date where
  year : Nat
  month : Nat
  day : Nat
  deriving DecidableEq, Repr, Inhabited

/-- A time of day, with the digits of its fraction of a second. -/
structure Clock where
  hour : Nat
  minute : Nat
  second : Nat
  fraction : List Nat
  deriving DecidableEq, Repr, Inhabited

/-- A date, a time of day, or both; the offset from universal time is in minutes. -/
structure Moment where
  date : Option Date
  clock : Option Clock
  offset : Option Int
  deriving DecidableEq, Repr, Inhabited

/-- A TOML value. The keys of a table are distinct. -/
inductive Toml where
  | text (s : String)
  | int (i : Int)
  | float (x : Binary64)
  | bool (b : Bool)
  | moment (m : Moment)
  | array (items : List Toml)
  | table (fields : List (String × Toml))
  deriving Inhabited

namespace Toml

/-- The declared fields of a record, each with its value if it is present. -/
def fields? (names : List String) : Toml → Option (List (Option Toml))
  | .table fields => some (names.map fun n => (fields.find? (fun f => f.1 == n)).map Prod.snd)
  | .array items => some ((List.range names.length).map fun i => items[i]?)
  | .moment _ => some (names.map fun _ => none)
  | _ => none

/-- A text. -/
def text? : Toml → Option String
  | .text s => some s
  | _ => none

/-- A truth value. -/
def bool? : Toml → Option Bool
  | .bool b => some b
  | _ => none

/-- An integer that is not negative. -/
def nat? : Toml → Option Nat
  | .int i => if 0 ≤ i then some i.toNat else none
  | _ => none

/-- An array whose items are all read. -/
def list? {α : Type} (read : Toml → Option α) : Toml → Option (List α)
  | .array items => items.mapM read
  | _ => none

end Toml

end MetricFanout
