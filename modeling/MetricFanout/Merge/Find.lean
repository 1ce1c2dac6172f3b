import MetricFanout.Metric.Basic
import MetricFanout.Reply.Basic
/-!
# Merging find replies

All matches in the order in which their paths were first reported, the backends that hold each path,
and the backends that reported anything.
-/

namespace MetricFanout

/-- A merged find. -/
structure FindMerge where
  /-- One match per path; the first report decides whether it is a leaf. -/
  found : List Match := []
  /-- For each path the backends that reported it, in order of arrival. -/
  holders : List (String × List String) := []
  /-- The backends that reported at least one match. -/
  responders : List String := []
  deriving DecidableEq, Repr, Inhabited

namespace FindMerge

/-- The backends that hold a path. -/
def holdersOf (m : FindMerge) (path : String) : List String :=
  ((m.holders.find? (fun h => h.1 == path)).map Prod.snd).getD []

/-- Add a backend behind the others, unless it is there already. -/
def addDistinct (backend : String) (backends : List String) : List String :=
  if backends.contains backend then backends else backends ++ [backend]

/-- Note that `backend` holds `path`. -/
def addHolder (path backend : String) : List (String × List String) → List (String × List String)
  | [] => [(path, [backend])]
  | h :: rest =>
      if h.1 == path then (path, addDistinct backend h.2) :: rest
      else h :: addHolder path backend rest

/-- Add one match that a backend reported. It is the first one of its path if nobody holds that path. -/
def addMatch (backend : String) (m : FindMerge) (x : Match) : FindMerge :=
  { m with
    found := if (m.holdersOf x.path).isEmpty then m.found ++ [x] else m.found
    holders := addHolder x.path backend m.holders }

/-- Add the answer of one backend. -/
def addAnswer (m : FindMerge) (backend : String) (answer : List Match) : FindMerge :=
  answer.foldl (addMatch backend)
    { m with responders := if answer.isEmpty then m.responders else m.responders ++ [backend] }

/-- Add a reply; a failed one changes nothing. -/
def addReply (m : FindMerge) (r : Reply (List Match)) : FindMerge :=
  match r.outcome with
  | .ok answer => m.addAnswer r.backend answer
  | .error _ => m

end FindMerge

/-- Merge the replies to a find. Without any success there is no result. -/
def mergeFind (replies : List (Reply (List Match))) : Except CallError FindMerge :=
  if replies.any Reply.isSuccess then .ok (replies.foldl FindMerge.addReply {})
  else .error (.allBackendsFailed .find)

end MetricFanout
