import MetricFanout.Config.Basic
import MetricFanout.Json.Record
import MetricFanout.Toml.Basic
/-!
# Reading a configuration

A configuration may be given in TOML or in JSON. Both are read by one set of rules: fields have the
same names, unknown ones are skipped, and those that are missing keep their defaults.
-/

namespace MetricFanout

/-- How values of a data format are looked into. -/
structure DataFormat (ν : Type) where
  fields? : List String → ν → Option (List (Option ν))
  text? : ν → Option String
  bool? : ν → Option Bool
  nat? : ν → Option Nat
  texts? : ν → Option (List String)

/-- TOML values. -/
def DataFormat.toml : DataFormat Toml :=
  ⟨Toml.fields?, Toml.text?, Toml.bool?, Toml.nat?, Toml.list? Toml.text?⟩

/-- JSON values. -/
def DataFormat.json : DataFormat Json :=
  ⟨Json.fields?, Json.string?, Json.bool?, Json.word?, Json.list? Json.string?⟩

namespace DataFormat

variable {ν : Type} (f : DataFormat ν)

/-- A field that may be missing. -/
def field {α : Type} (missing : α) (read : ν → Option α) : Option ν → Option α
  | none => some missing
  | some v => read v

/-- Read time limits. -/
def timeouts? (v : ν) : Option Timeouts := do
  let d : Timeouts := {}
  match ← f.fields? ["global_ms", "after_started_ms", "connect_ms"] v with
  | [globalMs, afterStartedMs, connectMs] =>
      return {
        globalMs := ← field d.globalMs f.nat? globalMs
        afterStartedMs := ← field d.afterStartedMs f.nat? afterStartedMs
        connectMs := ← field d.connectMs f.nat? connectMs }
  | _ => none

/-- Read search routing. -/
def search? (v : ν) : Option SearchConfig := do
  let d : SearchConfig := {}
  match ← f.fields? ["prefix", "backend"] v with
  | [trigger, backend] =>
      return {
        trigger := ← field d.trigger f.text? trigger
        backend := ← field d.backend f.text? backend }
  | _ => none

/-- Read what is told about the program. -/
def observability? (v : ν) : Option Observability := do
  let d : Observability := {}
  match ← f.fields? ["log_level", "metrics_enabled", "metrics_address"] v with
  | [logLevel, metricsEnabled, metricsAddress] =>
      return {
        logLevel := ← field d.logLevel f.text? logLevel
        metricsEnabled := ← field d.metricsEnabled f.bool? metricsEnabled
        metricsAddress := ← field d.metricsAddress f.text? metricsAddress }
  | _ => none

/-- The fields of a configuration, in declared order. -/
def configFields : List String :=
  ["listen", "backends", "concurrency_limit", "max_idle_conns_per_host", "keep_alive_interval_secs",
    "expire_delay_secs", "cache_sweep_interval_secs", "buckets", "graphite09_compat", "timeouts",
    "carbonsearch", "observability"]

/-- Read a configuration. -/
def config? (v : ν) : Option Config := do
  let d : Config := {}
  match ← f.fields? configFields v with
  | [listen, backends, concurrencyLimit, maxIdle, keepAlive, expireDelay, sweepInterval, buckets,
      graphite09, timeouts, search, observability] =>
      return {
        listen := ← field d.listen f.text? listen
        backends := ← field d.backends f.texts? backends
        concurrencyLimit := ← field d.concurrencyLimit f.nat? concurrencyLimit
        maxIdleConnsPerHost := ← field d.maxIdleConnsPerHost f.nat? maxIdle
        keepAliveIntervalSecs := ← field d.keepAliveIntervalSecs f.nat? keepAlive
        expireDelaySecs := ← field d.expireDelaySecs f.nat? expireDelay
        cacheSweepIntervalSecs := ← field d.cacheSweepIntervalSecs f.nat? sweepInterval
        buckets := ← field d.buckets f.nat? buckets
        graphite09Compat := ← field d.graphite09Compat f.bool? graphite09
        timeouts := ← field d.timeouts f.timeouts? timeouts
        search := ← field d.search f.search? search
        observability := ← field d.observability f.observability? observability }
  | _ => none

end DataFormat

/-- The configuration of a TOML value. -/
def Config.ofToml? (v : Toml) : Option Config := DataFormat.toml.config? v

/-- The configuration of a JSON value. -/
def Config.ofJson? (v : Json) : Option Config := DataFormat.json.config? v

end MetricFanout
