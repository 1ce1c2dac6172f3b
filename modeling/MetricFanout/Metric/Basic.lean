import MetricFanout.Decimal.Binary
/-!
# What metric stores answer

A store knows metrics by dotted paths. It answers a find with matches, a render with series, and an
info with the storage parameters of one metric.

A series carries its values and, apart from them, a flag per position that says whether the position
is absent. The two lists come from outside and need not have one length: a position without a flag
is absent, a flag without a value has no meaning. `Series.points` is what a series says.
-/

namespace MetricFanout

/-- A path that matched a find query. A leaf is a metric; other paths lead on to metrics. -/
structure Match where
  path : String
  isLeaf : Bool
  deriving DecidableEq, Repr, Inhabited

/-- Values at regular times from `start` to `stop`. -/
structure Series where
  name : String
  start : Int32
  stop : Int32
  step : Int32
  values : List Binary64
  absent : List Bool
  deriving DecidableEq, Inhabited

namespace Series

/-- Whether nothing is recorded at position `i`. -/
def absentAt (s : Series) (i : Nat) : Bool := s.absent[i]?.getD true

/-- Values beside their flags; what has no flag is absent. -/
def pair : List Binary64 → List Bool → List (Option Binary64)
  | [], _ => []
  | _ :: vs, [] => none :: pair vs []
  | v :: vs, a :: as => (if a then none else some v) :: pair vs as

/-- The recorded values, position by position. -/
def points (s : Series) : List (Option Binary64) := pair s.values s.absent

theorem pair_getElem? (vs : List Binary64) (as : List Bool) (i : Nat) :
    (pair vs as)[i]? = vs[i]?.map fun v => if as[i]?.getD true then none else some v := by
  induction vs, as using pair.induct generalizing i with
  | case1 => simp [pair]
  | case2 v vs ih => cases i <;> simp [pair, ih]
  | case3 v vs a as ih => cases i <;> simp [pair, ih]

theorem points_getElem? (s : Series) (i : Nat) :
    s.points[i]? = s.values[i]?.map fun v => if s.absentAt i then none else some v :=
  pair_getElem? s.values s.absent i

theorem length_points (s : Series) : s.points.length = s.values.length := by
  unfold points
  induction s.values, s.absent using pair.induct <;> simp_all [pair]

end Series

/-- One archive of a metric: how far apart its points are and how many it keeps. -/
structure Retention where
  secondsPerPoint : Int32
  numberOfPoints : Int32
  deriving DecidableEq, Inhabited

/-- How a store keeps a metric. -/
structure StorageInfo where
  name : String
  aggregation : String
  maxRetention : Int32
  xFilesFactor : Binary32
  retentions : List Retention
  deriving DecidableEq, Inhabited

end MetricFanout
