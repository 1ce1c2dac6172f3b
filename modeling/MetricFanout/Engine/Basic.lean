import MetricFanout.Backend.Pool
import MetricFanout.Backend.Request
import MetricFanout.Cache.Ttl
import MetricFanout.Config.Basic
import MetricFanout.Merge.Find
import MetricFanout.Merge.FirstSeen
import MetricFanout.Merge.Info
import MetricFanout.Merge.Render
import MetricFanout.Reply.Stats
import MetricFanout.Routing
/-!
# The engine

The engine knows the pool, the search route, the time limits and two caches. This module holds what
it decides by itself, between asking backends and hearing from them: whom to ask, what to take from
a cache, what to remember, and how replies and partial results become a result.

The path cache maps a query or a path to the matches found for it and the backends that reported
them. A find is answered from it; a render or an info only asks fewer backends. Empty results are
never remembered. The search cache maps a search query to the paths that it stands for.
-/

namespace MetricFanout

/-- An engine. -/
structure Engine where
  pool : Pool
  search : Option (SearchRoute Backend)
  timeouts : Timeouts
  paths : TtlCache CachedFind
  searches : TtlCache (List String)

/-- The result of a call. -/
inductive CallResult where
  | found (found : List Match)
  | fetched (series : List Series)
  | described (infos : List (String × StorageInfo))

/-- Whether a plain call is answered at once, or whom it asks. -/
inductive Plan where
  | known (found : List Match)
  | ask (backends : List Backend)

namespace Engine

/-- The search route of a configuration, if there is one. -/
def searchOf [Idna] (pool : Pool) (s : SearchConfig) : Except CallError (Option (SearchRoute Backend)) :=
  if s.isEnabled then (pool.detached s.backend).map fun b => some ⟨s.trigger, b⟩
  else if s.isPartial then .error .incompleteSearch
  else .ok none

/-- The engine of a configuration. The pool is built first. -/
def ofConfig [Idna] (c : Config) : Except CallError Engine := do
  let pool ← Pool.ofAddresses c.backends c.concurrencyLimit
  let search ← searchOf pool c.search
  return {
    pool := pool
    search := search
    timeouts := c.timeouts
    paths := { name := "path", ttl := c.expireDelaySecs * 1000 }
    searches := { name := "search", ttl := c.expireDelaySecs * 1000 } }

/-! ## Plain calls -/

/-- Look the subject of a plain call up in the path cache. -/
def consult (e : Engine) (now : Nat) (r : Request) : Plan × Stats × Engine :=
  let (cached, paths) := e.paths.get now r.key
  let plan :=
    match cached, r with
    | none, _ => .ask e.pool.backends
    | some c, .find _ => .known c.found
    | some c, _ => .ask (e.pool.select c.backends)
  (plan, Stats.countLookup {} cached.isSome, { e with paths := paths })

/-- Remember a find: its matches under its query, and each other path with its holders. -/
def remember (e : Engine) (now : Nat) (query : String) (m : FindMerge) : Engine :=
  if m.found.isEmpty then e
  else
    { e with
      paths := (m.found.filter fun x => x.path != query).foldl
        (fun c x => c.put now x.path ⟨[x], m.holdersOf x.path⟩)
        (e.paths.put now query ⟨m.found, m.responders⟩) }

/-- The result of a plain call out of its replies. A find is remembered. -/
def conclude (e : Engine) (now : Nat) (r : Request) (replies : List (Reply Answer)) :
    Except CallError CallResult × Engine :=
  match r with
  | .find query =>
      match mergeFind (replies.map (Reply.map Answer.found?)) with
      | .ok m => (.ok (.found m.found), e.remember now query m)
      | .error err => (.error err, e)
  | .render _ _ _ => ((mergeRender (replies.map (Reply.map Answer.fetched?))).map .fetched, e)
  | .info _ => ((mergeInfo (replies.map (Reply.map Answer.described?))).map .described, e)

/-! ## Search -/

/-- The route of a call. There is none but the plain one for an info. -/
def route (e : Engine) : Request → Route
  | .find query => routeFind e.search query
  | .render target _ _ => routeRender e.search target
  | .info _ => .plain

/-- Look a search query up. -/
def consultSearch (e : Engine) (now : Nat) (query : String) :
    Option (List String) × Stats × Engine :=
  let (leaves, searches) := e.searches.get now query
  (leaves, Stats.countSearchLookup {} leaves.isSome, { e with searches := searches })

/-- A backend that knows nothing about the request. -/
def isMiss {α : Type} (r : Reply α) : Bool :=
  match r.failure? with
  | some f => f.isNotFound
  | none => false

/-- What a search query stands for, out of the replies of the search backend: the leaves among the
matches. A backend that does not know the query leaves nothing to resolve. Leaves are remembered. -/
def resolve (e : Engine) (now : Nat) (query : String) (replies : List (Reply Answer)) :
    Except CallError (List String) × Engine :=
  match mergeFind (replies.map (Reply.map Answer.found?)) with
  | .ok m =>
      let leaves := (m.found.filter Match.isLeaf).map Match.path
      (.ok leaves,
        if leaves.isEmpty then e else { e with searches := e.searches.put now query leaves })
  | .error err => (if replies.all isMiss then .ok [] else .error err, e)

/-- What a completion found. -/
def complete (replies : List (Reply Answer)) : Except CallError CallResult :=
  (mergeFind (replies.map (Reply.map Answer.found?))).map fun m => .found m.found

end Engine

namespace CallResult

/-- The result without anything in it. -/
def empty : Operation → CallResult
  | .find => .found []
  | .render => .fetched []
  | .info => .described []

/-- The matches of a find. -/
def found? : CallResult → List Match
  | .found ms => ms
  | _ => []

/-- The series of a render. -/
def fetched? : CallResult → List Series
  | .fetched ss => ss
  | _ => []

/-- The storage parameters of an info. -/
def described? : CallResult → List (String × StorageInfo)
  | .described is => is
  | _ => []

/-- Items of several batches in first-seen order. -/
def union {α : Type} [Keyed α] (batches : List (List α)) : List α :=
  (batches.foldl FirstSeen.extend ({} : FirstSeen α)).toList

/-- The results of all leaves together. Without any success there is none. -/
def join (op : Operation) (results : List (Except CallError CallResult)) :
    Except CallError CallResult :=
  let successes := results.filterMap Except.toOption
  if successes.isEmpty then .error (.allBackendsFailed op)
  else
    .ok (match op with
      | .find => .found (union (successes.map found?))
      | .render => .fetched (union (successes.map fetched?))
      | .info => .described (successes.flatMap described?))

end CallResult

end MetricFanout
