import MetricFanout.Metric.Basic
import MetricFanout.Json.Record
import MetricFanout.Json.Reader
/-!
# The wire form of metric answers

How matches, series and storage parameters stand in the JSON replies of a store: field names are in
camel case, fields are written in declared order, and reading follows the rules for records.
-/

namespace MetricFanout

/-- What a store answers to a find. -/
structure FindReply where
  name : String
  found : List Match
  deriving DecidableEq, Inhabited

/-- What a store answers to a render. -/
structure RenderReply where
  metrics : List Series
  deriving DecidableEq, Inhabited

open Json (required withDefault)

namespace Match

/-- The wire form of a match. -/
def toJson (m : Match) : Json := .record [("path", .text m.path), ("isLeaf", .bool m.isLeaf)]

/-- Read a match; a path without a flag is no leaf. -/
def ofJson? (v : Json) : Option Match := do
  match ← v.fields? ["path", "isLeaf"] with
  | [path, isLeaf] => return ⟨← required Json.string? path, ← withDefault false Json.bool? isLeaf⟩
  | _ => none

end Match

namespace FindReply

/-- The wire form of a find reply. -/
def toJson (r : FindReply) : Json :=
  .record [("name", .text r.name), ("matches", .array (r.found.map Match.toJson))]

/-- Read a find reply; both fields may be missing. -/
def ofJson? (v : Json) : Option FindReply := do
  match ← v.fields? ["name", "matches"] with
  | [name, found] =>
      return ⟨← withDefault "" Json.string? name, ← withDefault [] (Json.list? Match.ofJson?) found⟩
  | _ => none

end FindReply

namespace Series

/-- The wire form of a series. -/
def toJson (s : Series) : Json :=
  .record [("name", .text s.name), ("startTime", .int s.start.toInt),
    ("stopTime", .int s.stop.toInt), ("stepTime", .int s.step.toInt),
    ("values", .array (s.values.map Json.double)), ("isAbsent", .array (s.absent.map Json.bool))]

/-- Read a series; values and flags may be missing. -/
def ofJson? (v : Json) : Option Series := do
  match ← v.fields? ["name", "startTime", "stopTime", "stepTime", "values", "isAbsent"] with
  | [name, start, stop, step, values, absent] =>
      return {
        name := ← required Json.string? name
        start := ← required Json.int32? start
        stop := ← required Json.int32? stop
        step := ← required Json.int32? step
        values := ← withDefault [] (Json.list? Json.double?) values
        absent := ← withDefault [] (Json.list? Json.bool?) absent }
  | _ => none

end Series

namespace RenderReply

/-- The wire form of a render reply. -/
def toJson (r : RenderReply) : Json := .record [("metrics", .array (r.metrics.map Series.toJson))]

/-- Read a render reply. -/
def ofJson? (v : Json) : Option RenderReply := do
  match ← v.fields? ["metrics"] with
  | [metrics] => return ⟨← withDefault [] (Json.list? Series.ofJson?) metrics⟩
  | _ => none

end RenderReply

namespace Retention

/-- The wire form of an archive. -/
def toJson (r : Retention) : Json :=
  .record [("secondsPerPoint", .int r.secondsPerPoint.toInt),
    ("numberOfPoints", .int r.numberOfPoints.toInt)]

/-- Read an archive; both fields must be present. -/
def ofJson? (v : Json) : Option Retention := do
  match ← v.fields? ["secondsPerPoint", "numberOfPoints"] with
  | [seconds, points] => return ⟨← required Json.int32? seconds, ← required Json.int32? points⟩
  | _ => none

end Retention

namespace StorageInfo

/-- The wire form of storage parameters. -/
def toJson (i : StorageInfo) : Json :=
  .record [("name", .text i.name), ("aggregationMethod", .text i.aggregation),
    ("maxRetention", .int i.maxRetention.toInt), ("xFilesFactor", .single i.xFilesFactor),
    ("retentions", .array (i.retentions.map Retention.toJson))]

/-- Read storage parameters; every field may be missing. -/
def ofJson? (v : Json) : Option StorageInfo := do
  match ← v.fields? ["name", "aggregationMethod", "maxRetention", "xFilesFactor", "retentions"] with
  | [name, aggregation, maxRetention, xFilesFactor, retentions] =>
      return {
        name := ← withDefault "" Json.string? name
        aggregation := ← withDefault "" Json.string? aggregation
        maxRetention := ← withDefault 0 Json.int32? maxRetention
        xFilesFactor := ← withDefault .zero Json.single? xFilesFactor
        retentions := ← withDefault [] (Json.list? Retention.ofJson?) retentions }
  | _ => none

end StorageInfo

/-- Read a whole text as a value of a wire type. -/
def decode? {α : Type} (read : Json → Option α) (body : List UInt8) : Option α :=
  (Json.parse body).bind read

end MetricFanout
