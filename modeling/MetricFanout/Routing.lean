/-!
# Routing

Queries that start with a configured prefix go through a search backend: ordinary ones are resolved
to metric paths there, and completions, which also end in a star, are answered there.

An empty prefix matches nothing, because it stands for routing that is switched off. Completions are
recognised first; they are the narrower class.
-/

namespace MetricFanout

/-- A condition on queries. -/
inductive Pattern where
  | startsWith (text : String)
  | endsWith (text : String)
  | all (parts : List Pattern)
  deriving Inhabited

mutual
/-- Whether a query fulfils a condition. An empty start matches nothing, and neither does an empty
conjunction. -/
def Pattern.holds : Pattern → String → Bool
  | .startsWith text, query => !text.isEmpty && text.toList.isPrefixOf query.toList
  | .endsWith text, query => text.toList.isSuffixOf query.toList
  | .all [], _ => false
  | .all (p :: rest), query => p.holds query && Pattern.allHold rest query

/-- Whether a query fulfils all of several conditions. -/
def Pattern.allHold : List Pattern → String → Bool
  | [], _ => true
  | p :: rest, query => p.holds query && Pattern.allHold rest query
end

/-- Search routing: the prefix that triggers it and the backend that is asked. -/
structure SearchRoute (β : Type) where
  trigger : String
  backend : β

/-- How a query is answered. -/
inductive Route where
  /-- By the pool. -/
  | plain
  /-- The search backend resolves the query, then the pool answers for each path. -/
  | search
  /-- By the search backend alone. -/
  | completer
  deriving DecidableEq, Repr

namespace SearchRoute

variable {β : Type}

/-- The queries that the search backend resolves. -/
def pattern (r : SearchRoute β) : Pattern := .startsWith r.trigger

/-- The queries that the search backend completes. -/
def completion (r : SearchRoute β) : Pattern := .all [.startsWith r.trigger, .endsWith "*"]

end SearchRoute

/-- The route of a find. -/
def routeFind {β : Type} (search : Option (SearchRoute β)) (query : String) : Route :=
  match search with
  | none => .plain
  | some r =>
      if r.completion.holds query then .completer
      else if r.pattern.holds query then .search
      else .plain

/-- The route of a render; there is nothing to complete. -/
def routeRender {β : Type} (search : Option (SearchRoute β)) (query : String) : Route :=
  match search with
  | none => .plain
  | some r => if r.pattern.holds query then .search else .plain

end MetricFanout
