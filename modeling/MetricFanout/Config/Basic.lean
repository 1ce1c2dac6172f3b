/-!
# Configuration

What can be configured, with the values that hold when nothing is said, and what follows from a
configuration.
-/

namespace MetricFanout

/-- The tiered time limits of a call, in milliseconds. -/
structure Timeouts where
  /-- The whole call. -/
  globalMs : Nat := 10000
  /-- Waiting for further answers once there is one. -/
  afterStartedMs : Nat := 2000
  /-- Making a connection. -/
  connectMs : Nat := 200
  deriving DecidableEq, Repr, Inhabited

/-- Whether every limit lies within the next larger one. -/
def Timeouts.wellOrdered (t : Timeouts) : Bool :=
  t.connectMs ≤ t.afterStartedMs && t.afterStartedMs ≤ t.globalMs

/-- Search routing: the beginning of queries that trigger it, and the address of the search backend.
-/
structure SearchConfig where
  trigger : String := ""
  backend : String := ""
  deriving DecidableEq, Repr, Inhabited

namespace SearchConfig

/-- Both halves are present. -/
def isEnabled (s : SearchConfig) : Bool := !s.trigger.isEmpty && !s.backend.isEmpty

/-- Just one half is present. -/
def isPartial (s : SearchConfig) : Bool := s.trigger.isEmpty != s.backend.isEmpty

end SearchConfig

/-- What is told about the running program, and where. -/
structure Observability where
  logLevel : String := "info"
  metricsEnabled : Bool := true
  metricsAddress : String := "0.0.0.0:9090"
  deriving DecidableEq, Repr, Inhabited

/-- How backends are connected to. -/
structure Transport where
  maxIdle : Nat
  keepAliveSecs : Nat
  connectMs : Nat
  limit : Nat
  deriving DecidableEq, Repr

/-- A configuration. -/
structure Config where
  listen : String := "0.0.0.0:8080"
  backends : List String := []
  /-- Requests that a backend serves at a time; zero for any number. -/
  concurrencyLimit : Nat := 0
  maxIdleConnsPerHost : Nat := 100
  keepAliveIntervalSecs : Nat := 30
  /-- How long cache entries live. -/
  expireDelaySecs : Nat := 600
  /-- The time between sweeps of the caches; zero for none. -/
  cacheSweepIntervalSecs : Nat := 0
  /-- The number of latency buckets. -/
  buckets : Nat := 10
  /-- Whether pickled listings have the rows that older front ends read. -/
  graphite09Compat : Bool := false
  timeouts : Timeouts := {}
  search : SearchConfig := {}
  observability : Observability := {}
  deriving DecidableEq, Repr, Inhabited

namespace Config

/-- How the backends are connected to. -/
def transport (c : Config) : Transport :=
  ⟨c.maxIdleConnsPerHost, c.keepAliveIntervalSecs, c.timeouts.connectMs, c.concurrencyLimit⟩

/-- The time between sweeps, if there are any. -/
def sweepInterval (c : Config) : Option Nat :=
  if 0 < c.cacheSweepIntervalSecs then some c.cacheSweepIntervalSecs else none

end Config

end MetricFanout
