import MetricFanout.Metric.Basic
import MetricFanout.Reply.Basic
/-!
# Merging render replies

One series per name, in the order in which names were first reported. Several copies of a series are
reconciled point by point: the first copy sets the shape, and where it has nothing the first later
copy of the same shape that has something fills the gap.
-/

namespace MetricFanout

namespace Series

/-- Two series whose points stand at the same times: equal start, step and number of values. -/
def aligned (a b : Series) : Bool :=
  a.start = b.start && a.step = b.step && a.values.length = b.values.length

/-- One flag per value: missing flags are added as absent, surplus ones are dropped. -/
def fitFlags (count : Nat) (flags : List Bool) : List Bool :=
  flags.take count ++ List.replicate (count - flags.length) true

/-- The value at position `i` of the first series that has one there. -/
def present? (others : List Series) (i : Nat) : Option Binary64 :=
  match others.find? (fun o => !o.absentAt i) with
  | some o => o.values[i]?
  | none => none

/-- Fill the absent positions, counted from `i`. -/
def fill (others : List Series) : Nat → List Binary64 → List Bool → List Binary64 × List Bool
  | i, v :: vs, absent :: flags =>
      let (vs', flags') := fill others (i + 1) vs flags
      match if absent then present? others i else none with
      | some w => (w :: vs', false :: flags')
      | none => (v :: vs', absent :: flags')
  | _, vs, flags => (vs, flags)

/-- One series out of its copies. A single copy is left as it is. -/
def reconcile (base : Series) (copies : List Series) : Series :=
  if copies.isEmpty then base
  else
    let others := copies.filter base.aligned
    let (values, absent) := fill others 0 base.values (fitFlags base.values.length base.absent)
    { base with values := values, absent := absent }

end Series

/-- The copies of a series: the first one and those that came later. -/
structure Copies where
  base : Series
  later : List Series

/-- One series out of all its copies. -/
def Copies.merge (c : Copies) : Series := c.base.reconcile c.later

/-- Put a series to the copies of its name, or at the end under a new name. -/
def Copies.insert (s : Series) : List Copies → List Copies
  | [] => [⟨s, []⟩]
  | c :: rest =>
      if c.base.name == s.name then { c with later := c.later ++ [s] } :: rest
      else c :: Copies.insert s rest

/-- All copies by name, in the order in which names were first seen. -/
def Copies.group (series : List Series) : List Copies :=
  series.foldl (fun groups s => Copies.insert s groups) []

/-- The series of all answers, in order of arrival. -/
def answeredSeries (replies : List (Reply (List Series))) : List Series :=
  replies.flatMap fun r => r.answer?.getD []

/-- Merge the replies to a render. Without any success there is no result. -/
def mergeRender (replies : List (Reply (List Series))) : Except CallError (List Series) :=
  if replies.any Reply.isSuccess then
    .ok ((Copies.group (answeredSeries replies)).map Copies.merge)
  else .error (.allBackendsFailed .render)

end MetricFanout
