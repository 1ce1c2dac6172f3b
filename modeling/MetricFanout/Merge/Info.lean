import MetricFanout.Metric.Basic
import MetricFanout.Order.SortedList
import MetricFanout.Reply.Basic
/-!
# Merging info replies

Storage parameters are not merged: the result says for each backend what it answered, in the order
of the backends' names. UTF-8 keeps the order of code points, so the order of names is that of their
bytes as well.
-/

namespace MetricFanout

/-- Add a reply; a later answer of a backend replaces an earlier one. -/
def addInfo (infos : List (String × StorageInfo)) (r : Reply StorageInfo) :
    List (String × StorageInfo) :=
  match r.outcome with
  | .ok info => SortedList.insert r.backend info infos
  | .error _ => infos

/-- Merge the replies to an info. Without any success there is no result. -/
def mergeInfo (replies : List (Reply StorageInfo)) :
    Except CallError (List (String × StorageInfo)) :=
  if replies.any Reply.isSuccess then .ok (replies.foldl addInfo [])
  else .error (.allBackendsFailed .info)

end MetricFanout
