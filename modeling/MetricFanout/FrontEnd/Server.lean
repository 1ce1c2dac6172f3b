import MetricFanout.Engine.Run
import MetricFanout.FrontEnd.Listing
import MetricFanout.FrontEnd.Params
import MetricFanout.FrontEnd.Uri
import MetricFanout.Telemetry.Registry
/-!
# The front end

Requests over HTTP: the three operations, a check for load balancers, and three pages about the
state of the program. Paths are compared as they stand. An operation is recorded when it comes in
and when it has been answered, whether it was rejected, failed or succeeded.

The body of a response to HEAD is left out after everything else has been done as for GET. The time
in listings is that of a wall clock which runs along with the clock of the session.
-/

namespace MetricFanout

/-- A request over HTTP. -/
structure HttpRequest where
  method : String
  target : String
  headers : List (String × String)

/-- The type of a body. -/
inductive ContentType where
  | text
  | json
  | pickle
  deriving DecidableEq, Repr

/-- The type's name. -/
def ContentType.name : ContentType → String
  | .text => "text/plain; charset=utf-8"
  | .json => "application/json"
  | .pickle => "application/pickle"

/-- A body. -/
inductive Body where
  | text (s : String)
  | bytes (bs : List UInt8)
  deriving DecidableEq

/-- A response over HTTP. The identifier is that of the request, if the request has one. -/
structure HttpResponse where
  status : Nat
  contentType : Option ContentType := none
  allow : Option String := none
  requestId : Option String := none
  body : Body := .text ""

/-- What can be asked for. -/
inductive Resource where
  | operation (op : Operation)
  /-- A check that the program answers at all. -/
  | check
  | status
  | backends
  | caches
  deriving DecidableEq, Repr

/-- The resource of a path. -/
def Resource.ofPath? : String → Option Resource
  | "/metrics/find/" => some (.operation .find)
  | "/metrics/find" => some (.operation .find)
  | "/render/" => some (.operation .render)
  | "/render" => some (.operation .render)
  | "/info/" => some (.operation .info)
  | "/info" => some (.operation .info)
  | "/lb_check" => some .check
  | "/admin/status" => some .status
  | "/admin/backends" => some .backends
  | "/admin/cache" => some .caches
  | _ => none

/-- A running program: its session, its configuration, and what has been recorded. -/
structure FrontEnd where
  session : Session
  config : Config
  registry : Registry := {}

namespace FrontEnd

/-- The wall clock, in seconds, at the start of a session. -/
def epoch : Nat := 1700000000

/-- The wall clock in seconds. -/
def wallClock (f : FrontEnd) : Int64 := Int64.ofNat (epoch + f.session.now / 1000)

/-! ## Operations -/

/-- Accept the parameters of an operation: the request and the form of its answer. -/
def accept (op : Operation) (p : Params) : Except Rejection (Request × Format) :=
  match op with
  | .find =>
      let q := FindParams.ofParams p
      q.validate.map fun format => (.find q.query, format)
  | .render =>
      (RenderParams.ofParams p).validate.map fun r => (.render r.target r.since r.upTo, r.format)
  | .info =>
      let q := InfoParams.ofParams p
      q.validate.map fun _ => (.info q.target, .json)

/-- The answer in JSON. -/
def answerJson : CallResult → Json
  | .found found => findJson found
  | .fetched series => renderJson series
  | .described infos => infoJson infos

/-- The answer, pickled. -/
def answerPickle (f : FrontEnd) : CallResult → Pickle
  | .found found => listingPickle (listing found f.config.graphite09Compat f.wallClock)
  | .fetched series => renderPickle series
  | .described _ => .none

/-- A page in JSON. -/
def jsonPage (v : Json) : HttpResponse :=
  { status := 200, contentType := some .json, body := .text v.render }

/-- A line of text. -/
def textPage (status : Nat) (s : String) : HttpResponse :=
  { status := status, contentType := some .text, body := .text s }

/-- The answer to a call that succeeded. -/
def success (f : FrontEnd) (format : Format) (r : CallResult) : HttpResponse :=
  match format with
  | .json => jsonPage (answerJson r)
  | .pickle =>
      { status := 200, contentType := some .pickle, body := .bytes (f.answerPickle r).encode }

/-- The answer to a call that failed says no more than that. -/
def failure : Operation → HttpResponse
  | .find => textPage 500 "error fetching the data"
  | .render => textPage 500 "error fetching the data"
  | .info => textPage 500 "info: error processing request"

/-- Whether a result is a success. -/
def succeeded (r : Except CallError CallResult) : Bool := r.toOption.isSome

/-- Perform an operation. -/
def perform (f : FrontEnd) (behaviour : Behaviour) (op : Operation) (p : Params) :
    HttpResponse × FrontEnd :=
  let f := { f with registry := f.registry.recordRequest op }
  match accept op p with
  | .error rejection =>
      (textPage 400 rejection.message,
        { f with registry := f.registry.recordResponse op 0 false f.config.buckets })
  | .ok (request, format) =>
      let (report, session) := f.session.call behaviour request
      let registry := ((f.registry.recordStats report.stats).recordResponse op
        (session.now - f.session.now) (succeeded report.result) f.config.buckets).recordCaches
          session.engine.paths session.engine.searches
      let f := { f with session := session, registry := registry }
      match report.result with
      | .ok r => (f.success format r, f)
      | .error _ => (failure op, f)

/-! ## Pages about the program -/

/-- The version of the program. -/
def version : String := "0.1.0"

/-- The page about the program as a whole. -/
def statusJson (e : Engine) : Json :=
  .record [("version", .text version), ("status", .text "operational"),
    ("backends", .nat e.pool.size),
    ("carbonsearch", ((e.search.map SearchRoute.trigger).map Json.text).getD .null),
    ("timeouts_ms", .record [("global", .nat e.timeouts.globalMs),
      ("after_started", .nat e.timeouts.afterStartedMs), ("connect", .nat e.timeouts.connectMs)])]

/-- The page about the backends. -/
def backendsJson (s : Session) : Json :=
  .array <| (s.engine.pool.backends.zip s.floor.inFlight).map fun (b, inFlight) =>
    .record [("address", .text b.identity), ("concurrency_limit", .nat b.limit),
      ("in_flight", .nat inFlight)]

/-- What there is to say about a cache. -/
def cacheJson {α : Type} (c : TtlCache α) : Json :=
  .record [("name", .text c.name), ("size_bytes", .nat c.size), ("items", .nat c.count),
    ("hits", .nat c.hits), ("misses", .nat c.misses), ("ttl_secs", .nat (c.ttl / 1000))]

/-- The page about the caches. -/
def cachesJson (e : Engine) : Json := .array [cacheJson e.paths, cacheJson e.searches]

/-! ## Requests -/

/-- Answer a request for a resource. -/
def get (f : FrontEnd) (behaviour : Behaviour) (query : Option String) :
    Resource → HttpResponse × FrontEnd
  | .operation op => f.perform behaviour op (Params.parse query)
  | .check => (textPage 200 "Ok\n", f)
  | .status => (jsonPage (statusJson f.session.engine), f)
  | .backends => (jsonPage (backendsJson f.session), f)
  | .caches => (jsonPage (cachesJson f.session.engine), f)

/-- The methods that a resource has. -/
def methods : String := "GET,HEAD"

/-- Answer a request by its method. -/
def respond (f : FrontEnd) (behaviour : Behaviour) (method : String) (uri : Uri) :
    HttpResponse × FrontEnd :=
  match Resource.ofPath? uri.path with
  | none => ({ status := 404 }, f)
  | some resource =>
      if method = "GET" then f.get behaviour uri.query resource
      else if method = "HEAD" then
        let (r, f) := f.get behaviour uri.query resource
        ({ r with body := .text "" }, f)
      else ({ status := 405, allow := some methods }, f)

/-- The identifier that a request brings. -/
def requestId? (headers : List (String × String)) : Option String :=
  (headers.find? fun h => h.1.toLower = "x-request-id").map Prod.snd

/-- Answer a request. One whose target is malformed is not answered. -/
def handle (f : FrontEnd) (behaviour : Behaviour) (r : HttpRequest) :
    Option (HttpResponse × FrontEnd) :=
  (Uri.parse r.target).map fun uri =>
    let (response, f) := f.respond behaviour r.method uri
    ({ response with requestId := requestId? r.headers }, f)

end FrontEnd

end MetricFanout
