/-!
# Replies of backends

An operation is sent to several backends. What comes back from each of them is a reply: the outcome
of that backend and the time it took.
-/

namespace MetricFanout

/-- The three operations. -/
inductive Operation where
  | find
  | render
  | info
  deriving DecidableEq, Repr, Inhabited

/-- The operation's name in messages and metric names. -/
def Operation.name : Operation → String
  | .find => "find"
  | .render => "render"
  | .info => "info"

/-- Why a backend has no answer. -/
inductive Failure where
  /-- The backend did not answer in time, or the call no longer waited for it. -/
  | timeout
  /-- No connection could be made. -/
  | connect (message : String)
  /-- The backend knows nothing about the request. -/
  | notFound
  /-- An answer with another status than success. -/
  | status (code : Nat)
  /-- An answer that cannot be read. -/
  | malformed (message : String)
  /-- The connection broke down. -/
  | transport (message : String)
  /-- The request ended without an outcome. -/
  | aborted
  deriving DecidableEq, Repr, Inhabited

namespace Failure

/-- The failure in words. -/
def message : Failure → String
  | .timeout => "timed out"
  | .connect m => "connection failed: " ++ m
  | .notFound => "not found"
  | .status code => "unexpected status " ++ toString code
  | .malformed m => "malformed reply: " ++ m
  | .transport m => "transport error: " ++ m
  | .aborted => "request aborted"

/-- The kind of failure, as a word. -/
def kind : Failure → String
  | .timeout => "Timeout"
  | .connect _ => "Connect"
  | .notFound => "NotFound"
  | .status _ => "Status"
  | .malformed _ => "Malformed"
  | .transport _ => "Transport"
  | .aborted => "Aborted"

/-- A timeout. -/
def isTimeout (f : Failure) : Bool := f = .timeout

/-- An ordinary miss. -/
def isNotFound (f : Failure) : Bool := f = .notFound

end Failure

/-- The outcome of one backend. -/
abbrev Outcome (α : Type) := Except Failure α

/-- One backend's part in a call. -/
structure Reply (α : Type) where
  backend : String
  outcome : Outcome α
  /-- Milliseconds from the start of the call. -/
  elapsed : Nat

namespace Reply

/-- The reply with its answer changed. -/
def map {α β : Type} (f : α → β) (r : Reply α) : Reply β :=
  { backend := r.backend, outcome := r.outcome.map f, elapsed := r.elapsed }

/-- Whether the backend answered. -/
def isSuccess {α : Type} (r : Reply α) : Bool :=
  match r.outcome with
  | .ok _ => true
  | .error _ => false

/-- The answer, if there is one. -/
def answer? {α : Type} (r : Reply α) : Option α :=
  match r.outcome with
  | .ok a => some a
  | .error _ => none

/-- The failure, if there is one. -/
def failure? {α : Type} (r : Reply α) : Option Failure :=
  match r.outcome with
  | .ok _ => none
  | .error f => some f

end Reply

/-- Why a call has no result, or why no engine can be built. -/
inductive CallError where
  /-- No backend answered. -/
  | allBackendsFailed (operation : Operation)
  /-- A configured address is no backend. -/
  | invalidBackend (address reason : String)
  /-- Only one half of the search configuration is present. -/
  | incompleteSearch
  deriving DecidableEq, Repr, Inhabited

namespace CallError

/-- The error in words. -/
def message : CallError → String
  | .allBackendsFailed op => "all backends failed for " ++ op.name
  | .invalidBackend address reason => "invalid backend address '" ++ address ++ "': " ++ reason
  | .incompleteSearch => "carbonsearch requires both prefix and backend"

/-- The kind of error, as a word. -/
def kind : CallError → String
  | .allBackendsFailed _ => "AllBackendsFailed"
  | .invalidBackend _ _ => "InvalidBackend"
  | .incompleteSearch => "IncompleteSearch"

end CallError

end MetricFanout
