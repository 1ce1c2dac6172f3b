import MetricFanout.Reply.Basic
/-!
# Counting what a call did

Nine counters describe one call: failed replies by kind, look-ups in the two caches, and whether the
search backend took part. Calls made on behalf of another call are added to it.
-/

namespace MetricFanout

/-- The counters of a call. -/
structure Stats where
  timeouts : Nat := 0
  findErrors : Nat := 0
  renderErrors : Nat := 0
  infoErrors : Nat := 0
  searchRequests : Nat := 0
  cacheHits : Nat := 0
  cacheMisses : Nat := 0
  searchCacheHits : Nat := 0
  searchCacheMisses : Nat := 0
  deriving DecidableEq, Repr, Inhabited

namespace Stats

/-- Counter by counter. -/
def add (a b : Stats) : Stats where
  timeouts := a.timeouts + b.timeouts
  findErrors := a.findErrors + b.findErrors
  renderErrors := a.renderErrors + b.renderErrors
  infoErrors := a.infoErrors + b.infoErrors
  searchRequests := a.searchRequests + b.searchRequests
  cacheHits := a.cacheHits + b.cacheHits
  cacheMisses := a.cacheMisses + b.cacheMisses
  searchCacheHits := a.searchCacheHits + b.searchCacheHits
  searchCacheMisses := a.searchCacheMisses + b.searchCacheMisses

instance : Add Stats := ⟨add⟩

/-- The error counter of an operation. -/
def errors (s : Stats) : Operation → Nat
  | .find => s.findErrors
  | .render => s.renderErrors
  | .info => s.infoErrors

/-- One more error of an operation. -/
def countError (s : Stats) : Operation → Stats
  | .find => { s with findErrors := s.findErrors + 1 }
  | .render => { s with renderErrors := s.renderErrors + 1 }
  | .info => { s with infoErrors := s.infoErrors + 1 }

/-- Count one failure: a timeout as such, an ordinary miss not at all, anything else as an error of
the operation. -/
def countFailure (s : Stats) (op : Operation) (f : Failure) : Stats :=
  if f.isTimeout then { s with timeouts := s.timeouts + 1 }
  else if f.isNotFound then s
  else s.countError op

/-- Count one reply. -/
def countReply {α : Type} (op : Operation) (s : Stats) (r : Reply α) : Stats :=
  match r.failure? with
  | none => s
  | some f => s.countFailure op f

/-- Count the failed replies of one gathering. -/
def recordFailures {α : Type} (s : Stats) (op : Operation) (replies : List (Reply α)) : Stats :=
  replies.foldl (countReply op) s

/-- One more look-up in the path cache. -/
def countLookup (s : Stats) (hit : Bool) : Stats :=
  if hit then { s with cacheHits := s.cacheHits + 1 }
  else { s with cacheMisses := s.cacheMisses + 1 }

/-- One more look-up in the search cache. -/
def countSearchLookup (s : Stats) (hit : Bool) : Stats :=
  if hit then { s with searchCacheHits := s.searchCacheHits + 1 }
  else { s with searchCacheMisses := s.searchCacheMisses + 1 }

/-- One more call that asks the search backend. -/
def countSearch (s : Stats) : Stats := { s with searchRequests := s.searchRequests + 1 }

/-- The counters under their names, in order. -/
def toList (s : Stats) : List (String × Nat) :=
  [("timeouts", s.timeouts), ("find_errors", s.findErrors), ("render_errors", s.renderErrors),
    ("info_errors", s.infoErrors), ("search_requests", s.searchRequests),
    ("cache_hits", s.cacheHits), ("cache_misses", s.cacheMisses),
    ("search_cache_hits", s.searchCacheHits), ("search_cache_misses", s.searchCacheMisses)]

/-- The counters read back from names; a name that is missing counts nothing. -/
def ofList (counters : List (String × Nat)) : Stats :=
  let get name := ((counters.find? (fun c => c.1 == name)).map Prod.snd).getD 0
  { timeouts := get "timeouts", findErrors := get "find_errors"
    renderErrors := get "render_errors", infoErrors := get "info_errors"
    searchRequests := get "search_requests", cacheHits := get "cache_hits"
    cacheMisses := get "cache_misses", searchCacheHits := get "search_cache_hits"
    searchCacheMisses := get "search_cache_misses" }

end Stats

end MetricFanout
