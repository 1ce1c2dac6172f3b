import MetricFanout.Json.Basic
/-!
# Reading records out of JSON

A record is written as an object, or as an array of its fields in their declared order. In an object
unknown fields are skipped and a declared one may stand only once; in an array fields may be missing
at the end only. What a missing field means is for the record to say: `required` or `withDefault`.
-/

namespace MetricFanout.Json

/-- The value of a field that stands at most once; `none` for a repeated field. -/
def once (name : String) (fields : List (Option String × Json)) : Option (Option Json) :=
  match fields.filter (fun f => f.1 == some name) with
  | [] => some none
  | [f] => some (some f.2)
  | _ => none

/-- The declared fields of a record, in declared order, each with its value if it is present. -/
def fields? (names : List String) : Json → Option (List (Option Json))
  | .object fields =>
      if fields.all (fun f => f.1.isSome) then names.mapM (once · fields) else none
  | .array items =>
      if items.length ≤ names.length then
        some (items.map some ++ List.replicate (names.length - items.length) none)
      else none
  | _ => none

/-- A field that must be present. -/
def required {α : Type} (read : Json → Option α) (field : Option Json) : Option α := field.bind read

/-- A field that may be missing. -/
def withDefault {α : Type} (missing : α) (read : Json → Option α) (field : Option Json) :
    Option α :=
  match field with
  | none => some missing
  | some v => read v

/-- A text. -/
def string? : Json → Option String
  | .string s => s
  | _ => none

/-- A truth value. -/
def bool? : Json → Option Bool
  | .bool b => some b
  | _ => none

/-- An integer from `low` to `high`. -/
def intIn? (low high : Int) : Json → Option Int
  | .number n => n.toInt?.bind fun i => if low ≤ i && i ≤ high then some i else none
  | _ => none

/-- A signed 32-bit integer. -/
def int32? (v : Json) : Option Int32 :=
  (v.intIn? Int32.minValue.toInt Int32.maxValue.toInt).map Int32.ofInt

/-- An unsigned 64-bit integer. -/
def word? (v : Json) : Option Nat := (v.intIn? 0 (UInt64.size - 1)).map Int.toNat

/-- A finite double-precision value. -/
def double? : Json → Option Binary64
  | .number n => n.toBinary64?
  | _ => none

/-- A single-precision value. An integer of 64 bits is rounded to it at once, any other number
through double precision. -/
def single? (v : Json) : Option Binary32 :=
  match v.intIn? Int64.minValue.toInt (UInt64.size - 1) with
  | some i => some (.ofInt i)
  | none => v.double?.map Binary64.toSingle

/-- An array whose items are all read. -/
def list? {α : Type} (read : Json → Option α) : Json → Option (List α)
  | .array items => items.mapM read
  | _ => none

end MetricFanout.Json
