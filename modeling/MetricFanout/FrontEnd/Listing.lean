import MetricFanout.Metric.Wire
import MetricFanout.Pickle
/-!
# What answers contain

The bodies of answers in their two forms. A find in JSON lists paths and leaf flags; pickled it is a
listing for a web front end, whose rows also carry the interval in which data may exist, or the two
fields that older front ends know. A render lists series with their points.
-/

namespace MetricFanout

/-- A match in a JSON answer. -/
def Match.answerJson (m : Match) : Json :=
  .record [("path", .text m.path), ("isLeaf", .bool m.isLeaf)]

/-- A find answer in JSON. -/
def findJson (found : List Match) : Json := .array (found.map Match.answerJson)

/-- A row of a listing. -/
inductive ListingRow where
  /-- A path with the interval in which data may exist. -/
  | current (path : String) (isLeaf : Bool) (first last : Int64)
  /-- The row that older front ends read. -/
  | legacy (path : String) (isLeaf : Bool)
  deriving DecidableEq

/-- Seconds after the present time in which data may still arrive. -/
def listingSlack : Int64 := 60

/-- The listing of a find at a time in seconds. -/
def listing (found : List Match) (legacy : Bool) (now : Int64) : List ListingRow :=
  found.map fun m =>
    if legacy then .legacy m.path m.isLeaf else .current m.path m.isLeaf 0 (now + listingSlack)

namespace ListingRow

/-- A row in JSON. -/
def toJson : ListingRow → Json
  | .current path isLeaf first last =>
      .record [("path", .text path), ("is_leaf", .bool isLeaf),
        ("intervals", .array [.array [.int first.toInt, .int last.toInt]])]
  | .legacy path isLeaf => .record [("metric_path", .text path), ("isLeaf", .bool isLeaf)]

/-- A row, pickled. -/
def toPickle : ListingRow → Pickle
  | .current path isLeaf first last =>
      .dict [("path", .text path), ("is_leaf", .bool isLeaf),
        ("intervals", .tuple [.tuple [.int first.toInt, .int last.toInt]])]
  | .legacy path isLeaf => .dict [("metric_path", .text path), ("isLeaf", .bool isLeaf)]

end ListingRow

/-- A listing, pickled. -/
def listingPickle (rows : List ListingRow) : Pickle := .list (rows.map ListingRow.toPickle)

/-- A series in a JSON answer; absent points are null. -/
def Series.answerJson (s : Series) : Json :=
  .record [("name", .text s.name), ("start", .int s.start.toInt), ("step", .int s.step.toInt),
    ("end", .int s.stop.toInt),
    ("values", .array (s.points.map fun p => (p.map Json.double).getD .null))]

/-- A series in a pickled answer; absent points are none. -/
def Series.answerPickle (s : Series) : Pickle :=
  .dict [("name", .text s.name), ("start", .int s.start.toInt), ("step", .int s.step.toInt),
    ("end", .int s.stop.toInt),
    ("values", .list (s.points.map fun p => (p.map Pickle.float).getD .none))]

/-- An info answer: what each backend said, under its name. -/
def infoJson (infos : List (String × StorageInfo)) : Json :=
  .record (infos.map fun e => (e.1, e.2.toJson))

/-- A render answer in JSON. -/
def renderJson (series : List Series) : Json := .array (series.map Series.answerJson)

/-- A render answer, pickled. -/
def renderPickle (series : List Series) : Pickle := .list (series.map Series.answerPickle)

end MetricFanout
