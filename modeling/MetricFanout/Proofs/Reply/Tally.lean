import MetricFanout.Reply.Stats
/-!
# What the counters of a call count

A reply is a success, an ordinary miss, a timeout or a fault. Counting the replies of a gathering adds its
timeouts to one counter and its faults to the error counter of the operation, and leaves the other error
counters as they are.
-/

namespace MetricFanout

variable {α : Type}

namespace Reply

/-- Whether the backend knows nothing about the request. -/
def isMiss (r : Reply α) : Bool := r.failure?.any Failure.isNotFound

/-- Whether the backend did not answer in time. -/
def isTimeout (r : Reply α) : Bool := r.failure?.any Failure.isTimeout

/-- Whether there is another failure than these. -/
def isFault (r : Reply α) : Bool := r.failure?.any fun f => !f.isTimeout && !f.isNotFound

/-- Every reply is of exactly one of four kinds. -/
theorem length_eq_countP (replies : List (Reply α)) : replies.length =
    replies.countP isSuccess + replies.countP isMiss + replies.countP isTimeout +
      replies.countP isFault := by
  induction replies with
  | nil => rfl
  | cons r rest ih =>
      have hone : (if r.isSuccess then 1 else 0) + (if r.isMiss then 1 else 0) +
          (if r.isTimeout then 1 else 0) + (if r.isFault then 1 else 0) = 1 := by
        obtain ⟨backend, outcome, elapsed⟩ := r
        cases outcome with
        | ok a => rfl
        | error f => cases f <;> rfl
      simp only [List.length_cons, List.countP_cons, ih]
      omega

end Reply

namespace Stats

/-- The error counters are told apart by their operations. -/
theorem errors_countError (s : Stats) (op o : Operation) :
    (s.countError op).errors o = s.errors o + if o = op then 1 else 0 := by
  cases op <;> cases o <;> rfl

@[simp] theorem timeouts_countError (s : Stats) (op : Operation) :
    (s.countError op).timeouts = s.timeouts := by
  cases op <;> rfl

@[simp] theorem errors_withTimeouts (s : Stats) (n : Nat) (o : Operation) :
    ({ s with timeouts := n } : Stats).errors o = s.errors o := by
  cases o <;> rfl

theorem timeouts_countReply (op : Operation) (s : Stats) (r : Reply α) :
    (countReply op s r).timeouts = s.timeouts + if r.isTimeout then 1 else 0 := by
  obtain ⟨backend, outcome, elapsed⟩ := r
  cases outcome with
  | ok a => rfl
  | error f => cases f <;> simp [countReply, countFailure, Reply.failure?, Reply.isTimeout,
      Failure.isTimeout, Failure.isNotFound]

theorem errors_countReply (op : Operation) (s : Stats) (r : Reply α) (o : Operation) :
    (countReply op s r).errors o = s.errors o + if o = op ∧ r.isFault then 1 else 0 := by
  obtain ⟨backend, outcome, elapsed⟩ := r
  cases outcome with
  | ok a => simp [countReply, Reply.failure?, Reply.isFault]
  | error f => cases f <;> simp [countReply, countFailure, Reply.failure?, Reply.isFault,
      Failure.isTimeout, Failure.isNotFound, errors_countError]

/-- Timeouts are counted as such. -/
theorem timeouts_recordFailures (s : Stats) (op : Operation) (replies : List (Reply α)) :
    (s.recordFailures op replies).timeouts = s.timeouts + replies.countP Reply.isTimeout := by
  induction replies generalizing s with
  | nil => rfl
  | cons r rest ih =>
      have hrest := ih (countReply op s r)
      simp only [recordFailures, List.foldl_cons] at hrest ⊢
      rw [hrest, timeouts_countReply, List.countP_cons]
      omega

/-- Faults are counted as errors of the operation, and of no other. -/
theorem errors_recordFailures (s : Stats) (op : Operation) (replies : List (Reply α)) (o : Operation) :
    (s.recordFailures op replies).errors o =
      s.errors o + if o = op then replies.countP Reply.isFault else 0 := by
  induction replies generalizing s with
  | nil => simp [recordFailures]
  | cons r rest ih =>
      have hrest := ih (countReply op s r)
      simp only [recordFailures, List.foldl_cons] at hrest ⊢
      rw [hrest, errors_countReply, List.countP_cons]
      by_cases ho : o = op
      · simp only [ho, true_and, if_true]
        omega
      · simp [ho]

end Stats

end MetricFanout
