import MetricFanout.Backend.Pool
import MetricFanout.Metric.Wire
import MetricFanout.Text.Form
/-!
# Requests to backends

How an operation is put to a backend, and how its answer is understood. Every request asks for JSON.
-/

namespace MetricFanout

/-- What a backend is asked. -/
inductive Request where
  | find (query : String)
  | render (target : String) (since upTo : Int32)
  | info (target : String)
  deriving DecidableEq, Repr

namespace Request

/-- The operation of a request. -/
def operation : Request → Operation
  | .find _ => .find
  | .render _ _ _ => .render
  | .info _ => .info

/-- What a request is about: the query of a find, or the target. -/
def key : Request → String
  | .find query => query
  | .render target _ _ => target
  | .info target => target

/-- The same request about something else. -/
def withKey (r : Request) (key : String) : Request :=
  match r with
  | .find _ => .find key
  | .render _ since upTo => .render key since upTo
  | .info _ => .info key

/-- The endpoint, as a path below the base URL. -/
def endpoint : Operation → String
  | .find => "metrics/find/"
  | .render => "render/"
  | .info => "info/"

/-- The parameters that are sent. -/
def params : Request → List (String × String)
  | .find query => [("query", query), ("format", "json")]
  | .render target since upTo =>
      [("target", target), ("from", toString since.toInt), ("until", toString upTo.toInt),
        ("format", "json")]
  | .info target => [("target", target), ("format", "json")]

/-- The URL of a request to a backend. -/
def url (r : Request) (b : Backend) : Url :=
  { b.base.resolve (endpoint r.operation).toList with query := some (Form.encode r.params) }

end Request

/-- What a backend answers to a request that it understood. -/
inductive Answer where
  | found (found : List Match)
  | fetched (series : List Series)
  | described (info : StorageInfo)
  deriving Inhabited

namespace Answer

/-- The matches of an answer to a find. -/
def found? : Answer → List Match
  | .found ms => ms
  | _ => []

/-- The series of an answer to a render. -/
def fetched? : Answer → List Series
  | .fetched ss => ss
  | _ => []

/-- The storage parameters of an answer to an info. -/
def described? : Answer → StorageInfo
  | .described i => i
  | _ => default

/-- Read the body of an answer to an operation. -/
def read? (op : Operation) (body : List UInt8) : Option Answer :=
  match op with
  | .find => (decode? FindReply.ofJson? body).map fun r => .found r.found
  | .render => (decode? RenderReply.ofJson? body).map fun r => .fetched r.metrics
  | .info => (decode? StorageInfo.ofJson? body).map .described

end Answer

/-- What comes back on the connection to a backend. -/
inductive Response where
  /-- No connection was made. -/
  | refused (message : String)
  /-- No connection was made in time. -/
  | noConnection
  /-- The connection was closed without an answer. -/
  | closed (message : String)
  /-- An answer, whose body may break off. -/
  | answer (status : Nat) (body : List UInt8) (complete : Bool)
  deriving Inhabited

/-- The outcome of a response. The status decides first: 404 is an ordinary miss, anything outside
200 to 299 a failure; then the body must be complete and readable. -/
def Response.outcome (op : Operation) : Response → Outcome Answer
  | .refused m => .error (.connect m)
  | .noConnection => .error .timeout
  | .closed m => .error (.transport m)
  | .answer status body complete =>
      if status = 404 then .error .notFound
      else if status < 200 || 300 ≤ status then .error (.status status)
      else if !complete then .error (.malformed "the body ends early")
      else
        match Answer.read? op body with
        | some a => .ok a
        | none => .error (.malformed "the body cannot be read")

end MetricFanout
