import MetricFanout.Engine.Call
/-!
# Running calls

Calls are started together and run until nothing happens any more; the clock jumps from one event to
the next. A gathering that has ended is handed over before anything else happens.

## Implementation notes

Handing a gathering over can begin others only when it ends a resolution, so the run ends by the
number of resolutions still to come and, within that, by the work on the floor.
-/

namespace MetricFanout

/-- Calls in progress in a session. -/
structure Run where
  session : Session
  calls : List Call

namespace Run

/-- Start calls, one after the other. -/
def startAll (s : Session) (behaviour : Behaviour) : List Request → List Call × Session
  | [] => ([], s)
  | r :: rest =>
      let (c, s) := Call.start s behaviour r
      let (cs, s) := startAll s behaviour rest
      (c :: cs, s)

/-- Hand a gathering to the call that waits for it. -/
def receiveAll (s : Session) (behaviour : Behaviour) (f : Finished Answer) :
    List Call → List Call × Session
  | [] => ([], s)
  | c :: rest =>
      let (c, s) := c.receive s behaviour f
      let (cs, s) := receiveAll s behaviour f rest
      (c :: cs, s)

/-- Take a gathering that has ended and hand it over. -/
def handOver (r : Run) (behaviour : Behaviour) (f : Finished Answer)
    (rest : List (Finished Answer)) : Run :=
  let s := { r.session with floor := { r.session.floor with finished := rest } }
  let (calls, s) := receiveAll s behaviour f r.calls
  ⟨s, calls⟩

/-- Let something happen on the floor. -/
def happen (r : Run) (behaviour : Behaviour) (e : FloorEvent Ask Answer) : Run :=
  { r with
    session := { r.session with
      now := max r.session.now e.time
      floor := r.session.floor.happen behaviour.network e } }

/-- The next step, if there is one. -/
def step? (r : Run) (behaviour : Behaviour) : Option Run :=
  match r.session.floor.finished with
  | f :: rest => some (r.handOver behaviour f rest)
  | [] => (r.session.floor.next? behaviour.network).map (r.happen behaviour)

/-- The number of resolutions still to come. -/
def resolutions (r : Run) : Nat := r.calls.countP Call.isResolving

theorem receiveAll_progress (s : Session) (behaviour : Behaviour) (f : Finished Answer)
    (cs : List Call) :
    (receiveAll s behaviour f cs).1.countP Call.isResolving < cs.countP Call.isResolving ∨
    ((receiveAll s behaviour f cs).1.countP Call.isResolving = cs.countP Call.isResolving ∧
      (receiveAll s behaviour f cs).2.floor = s.floor) := by
  induction cs generalizing s with
  | nil => exact .inr ⟨rfl, rfl⟩
  | cons c rest ih =>
      simp only [receiveAll, List.countP_cons]
      rcases c.receive_progress s behaviour f with ⟨hr, hf⟩ | ⟨hr, hc⟩ <;>
        rcases ih (c.receive s behaviour f).2 with h | ⟨h, h'⟩
      · rw [hr]; omega
      · exact .inr ⟨by rw [hr, h], h'.trans hf⟩
      · simp only [hr, hc]; simp; omega
      · simp only [hr, hc, h]; simp

theorem step?_progress {r q : Run} {behaviour : Behaviour} (h : r.step? behaviour = some q) :
    q.resolutions < r.resolutions ∨
      (q.resolutions = r.resolutions ∧ q.session.floor.work < r.session.floor.work) := by
  unfold step? at h
  split at h
  · rename_i f rest hf
    obtain rfl := Option.some.inj h
    rcases receiveAll_progress { r.session with floor := { r.session.floor with finished := rest } }
      behaviour f r.calls with h | ⟨h, h'⟩
    · exact .inl h
    · refine .inr ⟨h, ?_⟩
      simp only [handOver, h', Floor.work, hf, List.length_cons]
      omega
  · obtain ⟨e, he, rfl⟩ := Option.map_eq_some_iff.1 h
    exact .inr ⟨rfl, Floor.work_happen_lt he⟩

/-- Run to the end. -/
def finish (behaviour : Behaviour) (r : Run) : Run :=
  match _h : r.step? behaviour with
  | none => r
  | some q => finish behaviour q
termination_by (r.resolutions, r.session.floor.work)
decreasing_by
  rcases step?_progress _h with h | ⟨h, h'⟩
  · exact Prod.Lex.left _ _ h
  · rw [← h]; exact Prod.Lex.right _ h'

end Run

/-- What came of a call: its result, its counters, and the time at which it ended. -/
structure CallReport where
  result : Except CallError CallResult
  stats : Stats
  time : Nat

/-- The report of a call at a time. A call that has not ended counts as failed. -/
def Call.report (c : Call) (now : Nat) : CallReport :=
  match c.result? with
  | some (result, stats) => ⟨result, stats, c.endedAt.getD now⟩
  | none => ⟨.error (.allBackendsFailed c.request.operation), c.stats, now⟩

namespace Session

/-- Run requests that are made at once. -/
def run (s : Session) (behaviour : Behaviour) (requests : List Request) :
    List CallReport × Session :=
  let (calls, s) := Run.startAll s behaviour requests
  let r := Run.finish behaviour ⟨s, calls⟩
  (r.calls.map fun c => c.report r.session.now, r.session)

/-- Run one request. -/
def call (s : Session) (behaviour : Behaviour) (r : Request) : CallReport × Session :=
  let (reports, s) := s.run behaviour [r]
  (reports.headD ⟨.error (.allBackendsFailed r.operation), {}, s.now⟩, s)

/-- Put a request to one backend of the pool, outside of any call and without a deadline. Nobody
else holds a permit at that time. A backend that never answers leaves no outcome. -/
def ask (s : Session) (behaviour : Behaviour) (index : Nat) (r : Request) :
    Option (Outcome Answer) × Session :=
  match s.engine.pool.backends[index]? with
  | none => (none, s)
  | some b =>
      let a : Ask := ⟨b, r⟩
      let s := { s with floor := { s.floor with sent := s.floor.sent ++ [a] } }
      match behaviour a with
      | none => (none, s)
      | some (delay, response) =>
          (some (response.outcome r.operation), { s with now := s.now + delay })

/-- Let time pass. -/
def advance (s : Session) (ms : Nat) : Session := { s with now := s.now + ms }

/-- Purge both caches, and say how many entries were removed from each. -/
def purge (s : Session) : (Nat × Nat) × Session :=
  let (p, paths) := s.engine.paths.purge s.now
  let (q, searches) := s.engine.searches.purge s.now
  ((p, q), { s with engine := { s.engine with paths := paths, searches := searches } })

end Session

end MetricFanout
