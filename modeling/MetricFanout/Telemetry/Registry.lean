import MetricFanout.Cache.Ttl
import MetricFanout.Decimal.Binary
import MetricFanout.Reply.Stats
import MetricFanout.Telemetry.Bucket
/-!
# Telemetry

What is counted about front-end requests: how many there were and how they ended, how long they
took, what the engine counted for them, and how large the caches are.

A quantity appears once it has been recorded, with whatever value; one that has never been recorded
is not there. Durations are kept one by one, in seconds.
-/

namespace MetricFanout

/-- What is counted. -/
inductive Counter where
  | requests
  | responses
  | errors
  | operationRequests (op : Operation)
  /-- A counter of the engine, by name. -/
  | stat (name : String)
  /-- Requests in a latency bucket. -/
  | bucket (index : Nat)
  deriving DecidableEq, Repr

/-- The counter's name. -/
def Counter.name : Counter → String
  | .requests => "zipper_requests_total"
  | .responses => "zipper_responses_total"
  | .errors => "zipper_errors_total"
  | .operationRequests op => "zipper_" ++ op.name ++ "_requests_total"
  | .stat name => "zipper_" ++ name ++ "_total"
  | .bucket i => "zipper_request_buckets_total\x7bbucket=" ++ Bucket.label i ++ "\x7d"

/-- What is measured. -/
inductive Gauge where
  | pathBytes
  | pathItems
  | searchBytes
  | searchItems
  deriving DecidableEq, Repr

/-- The gauge's name. -/
def Gauge.name : Gauge → String
  | .pathBytes => "zipper_cache_size_bytes"
  | .pathItems => "zipper_cache_items"
  | .searchBytes => "zipper_search_cache_size_bytes"
  | .searchItems => "zipper_search_cache_items"

/-- The name under which durations of an operation are listed. -/
def Operation.durationName (op : Operation) : String :=
  "zipper_request_duration_seconds\x7boperation=" ++ op.name ++ "\x7d"

/-- All that has been recorded. -/
structure Registry where
  counters : List (Counter × Nat) := []
  gauges : List (Gauge × Binary64) := []
  durations : List (Operation × List Binary64) := []
  deriving DecidableEq

namespace Registry

/-- Change the entry of a key, or make one out of the given start. -/
def update {κ α : Type} [DecidableEq κ] (key : κ) (start : α) (f : α → α) :
    List (κ × α) → List (κ × α)
  | [] => [(key, f start)]
  | e :: rest => if e.1 = key then (key, f e.2) :: rest else e :: update key start f rest

/-- Add to a counter. -/
def count (r : Registry) (c : Counter) (n : Nat) : Registry :=
  { r with counters := update c 0 (· + n) r.counters }

/-- Set a gauge to a whole number. -/
def set (r : Registry) (g : Gauge) (n : Nat) : Registry :=
  { r with gauges := update g .zero (fun _ => .ofNat n) r.gauges }

/-- A duration in milliseconds as seconds: the fraction is rounded first, then the sum. -/
def seconds (ms : Nat) : Binary64 :=
  let fraction : Binary64 := .ofCode false (BinaryFormat.double.round (ms % 1000) 1000)
  let (n, d) := fraction.quotient
  .ofCode false (BinaryFormat.double.round (ms / 1000 * d + n) d)

/-- A request has come in. -/
def recordRequest (r : Registry) (op : Operation) : Registry :=
  (r.count .requests 1).count (.operationRequests op) 1

/-- A request has been answered, well or not, after some milliseconds. -/
def recordResponse (r : Registry) (op : Operation) (ms : Nat) (ok : Bool) (buckets : Nat) :
    Registry :=
  let r := r.count (if ok then .responses else .errors) 1
  let r := { r with durations := update op [] (· ++ [seconds ms]) r.durations }
  r.count (.bucket (Bucket.ofMillis ms buckets)) 1

/-- What a call has counted. -/
def recordStats (r : Registry) (s : Stats) : Registry :=
  s.toList.foldl (fun r c => r.count (.stat c.1) c.2) r

/-- How large the caches are. -/
def recordCaches {α β : Type} (r : Registry) (paths : TtlCache α) (searches : TtlCache β) :
    Registry :=
  (((r.set .pathBytes paths.size).set .pathItems paths.count).set .searchBytes searches.size).set
    .searchItems searches.count

end Registry

end MetricFanout
