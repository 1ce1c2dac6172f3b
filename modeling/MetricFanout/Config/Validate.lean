import MetricFanout.Backend.Address
import MetricFanout.Config.Read
import MetricFanout.Config.SocketAddress
import MetricFanout.Telemetry.Bucket
import MetricFanout.Text.Utf8
import MetricFanout.Toml.Reader
/-!
# Valid configurations

What a configuration must fulfil before it is accepted. All problems are found, not only the first.
A text is accepted when it is TOML, has the right types, and is valid.
-/

namespace MetricFanout

/-- The time limits that must not be zero. -/
inductive TimeoutField where
  | global
  | connect
  deriving DecidableEq, Repr

/-- The name of a time limit. -/
def TimeoutField.name : TimeoutField → String
  | .global => "global_ms"
  | .connect => "connect_ms"

/-- The fields that hold addresses to listen on. -/
inductive AddressField where
  | listen
  | metrics
  deriving DecidableEq, Repr

/-- The name of a field with an address to listen on. -/
def AddressField.name : AddressField → String
  | .listen => "listen"
  | .metrics => "metrics_address"

/-- What can be wrong with a configuration. -/
inductive ConfigProblem where
  | noBackends
  | invalidBackend (address : String) (reason : AddressError)
  | incompleteSearch
  | zeroTimeout (field : TimeoutField)
  | tooManyBuckets (count : Nat)
  | notSocketAddress (field : AddressField) (text : String)
  deriving DecidableEq, Repr

/-- The problem in words. -/
def ConfigProblem.message : ConfigProblem → String
  | .noBackends => "no backends configured"
  | .invalidBackend address reason => "backend '" ++ address ++ "': " ++ reason.message
  | .incompleteSearch => "carbonsearch needs both prefix and backend"
  | .zeroTimeout field => "timeouts." ++ field.name ++ " must be greater than zero"
  | .tooManyBuckets count =>
      "buckets must be at most " ++ toString Bucket.maxCount ++ ", got " ++ toString count
  | .notSocketAddress field text =>
      field.name ++ " '" ++ text ++ "' is not a socket address"

namespace Config

/-- A problem that arises under a condition. -/
def problemIf (condition : Bool) (p : ConfigProblem) : List ConfigProblem :=
  if condition then [p] else []

/-- The problem of an address that is no backend. -/
def addressProblems [Idna] (address : String) : List ConfigProblem :=
  match baseUrl address with
  | .ok _ => []
  | .error reason => [.invalidBackend address reason]

/-- The problems of search routing. -/
def searchProblems [Idna] (s : SearchConfig) : List ConfigProblem :=
  if s.isPartial then [.incompleteSearch]
  else if s.isEnabled then addressProblems s.backend
  else []

/-- The problem of an address to listen on. -/
def listenProblems (field : AddressField) (text : String) : List ConfigProblem :=
  problemIf (!SocketAddress.isValid text) (.notSocketAddress field text)

/-- All problems of a configuration, in the order of its parts. -/
def problems [Idna] (c : Config) : List ConfigProblem :=
  problemIf c.backends.isEmpty .noBackends ++
    c.backends.flatMap addressProblems ++
    searchProblems c.search ++
    problemIf (c.timeouts.globalMs = 0) (.zeroTimeout .global) ++
    problemIf (c.timeouts.connectMs = 0) (.zeroTimeout .connect) ++
    problemIf (Bucket.maxCount < c.buckets) (.tooManyBuckets c.buckets) ++
    listenProblems .listen c.listen ++
    (if c.observability.metricsEnabled then
      listenProblems .metrics c.observability.metricsAddress else [])

end Config

/-- Why there is no configuration. -/
inductive ConfigError where
  /-- The file cannot be opened. -/
  | missing
  /-- The file is not text. -/
  | notText
  /-- The text is not TOML, or has other types. -/
  | unreadable
  | invalid (problems : List ConfigProblem)
  deriving DecidableEq, Repr

namespace ConfigError

/-- The kind of error, as a word. -/
def kind : ConfigError → String
  | .missing => "Io"
  | .notText => "Io"
  | .unreadable => "Parse"
  | .invalid _ => "Validation"

/-- The error in words, as far as they are this library's own. -/
def message? : ConfigError → Option String
  | .missing => none
  | .notText => some "IO error: stream did not contain valid UTF-8"
  | .unreadable => none
  | .invalid problems =>
      some ("Validation failed: " ++ String.intercalate ", " (problems.map ConfigProblem.message))

end ConfigError

namespace Config

/-- The configuration of a TOML text, valid or not. -/
def read (text : String) : Except ConfigError Config :=
  match (Toml.parse text).bind ofToml? with
  | some c => .ok c
  | none => .error .unreadable

/-- The configuration, if it has no problems. -/
def validate [Idna] (c : Config) : Except ConfigError Config :=
  if c.problems.isEmpty then .ok c else .error (.invalid c.problems)

/-- The valid configuration of a TOML text. -/
def parse [Idna] (text : String) : Except ConfigError Config := (read text).bind validate

/-- The valid configuration of a file, by its content if there is such a file. -/
def load [Idna] : Option (List UInt8) → Except ConfigError Config
  | none => .error .missing
  | some bytes =>
      match Utf8.toString? bytes with
      | none => .error .notText
      | some text => parse text

end Config

end MetricFanout
