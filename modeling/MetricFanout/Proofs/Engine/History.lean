import MetricFanout.Engine.Run
import MetricFanout.Proofs.Merge.Find
/-!
# Runs and their histories

A run of an engine: calls start at any time, gatherings go on and end, time passes, caches are purged,
and callers stop waiting. Its history says which plain calls and sub-calls of leaves started, and in
which session, and which finds that were put to the pool came to an end.

## Implementation notes

A history is computed beside a move by functions that follow those of the engine and add nothing to
what they do. Every move may have another behaviour of the backends. Time may pass at any moment, also
beyond what would have happened meanwhile, so that moves cover more orders of events than the clock
allows.
-/

namespace MetricFanout

/-- A find that was put to the pool is over. -/
structure Harvest where
  /-- The number of its gathering. -/
  gather : Nat
  time : Nat
  query : String
  replies : List (Reply (List Match))

/-- What happens in a run. -/
inductive Event where
  /-- A plain call, or the sub-call of a leaf, starts in a session. -/
  | start (s : Session) (behaviour : Behaviour) (deadline : Nat) (request : Request)
  | harvest (h : Harvest)

namespace Session

/-- The sub-calls of leaves start one after the other. -/
def leafEvents (s : Session) (behaviour : Behaviour) (deadline : Nat) (r : Request) :
    List String → List Event
  | [] => []
  | leaf :: rest =>
      .start s behaviour deadline (r.withKey leaf) ::
        leafEvents (s.startPlain behaviour deadline (r.withKey leaf)).2 behaviour deadline r rest

/-- What starts when a call is entered. -/
def enterEvents (s : Session) (behaviour : Behaviour) (deadline : Nat) (r : Request) : List Event :=
  match s.engine.route r, s.engine.search with
  | .completer, some _ => []
  | .search, some _ =>
      match (s.engine.consultSearch s.now r.key).1 with
      | some leaves =>
          { s with engine := (s.engine.consultSearch s.now r.key).2.2 }.leafEvents behaviour deadline
            r leaves
      | none => []
  | _, _ => [.start s behaviour deadline r]

end Session

/-- What it means for a sub-call that a gathering is over. -/
def Branch.events (now : Nat) (f : Finished Answer) : Branch → List Event
  | .waiting (.find query) id _ =>
      if id = f.gather then
        [.harvest ⟨id, now, query, f.replies.map (Reply.map Answer.found?)⟩]
      else []
  | _ => []

namespace Call

/-- What it means for a call that a gathering is over. -/
def receiveEvents (s : Session) (behaviour : Behaviour) (f : Finished Answer) (c : Call) :
    List Event :=
  match c.stage with
  | .resolving id =>
      if id = f.gather then
        match (s.engine.resolve s.now c.request.key f.replies).1 with
        | .ok leaves =>
            { s with engine := (s.engine.resolve s.now c.request.key f.replies).2 }.leafEvents
              behaviour c.deadline c.request leaves
        | .error _ => []
      else []
  | .plain b => b.events s.now f
  | .leaves bs => bs.flatMap (Branch.events s.now f)
  | _ => []

end Call

namespace Run

/-- What it means for several calls that a gathering is over. -/
def receiveAllEvents (s : Session) (behaviour : Behaviour) (f : Finished Answer) :
    List Call → List Event
  | [] => []
  | c :: rest =>
      c.receiveEvents s behaviour f ++ receiveAllEvents (c.receive s behaviour f).2 behaviour f rest

/-- A step hands a gathering over that has ended, or lets something happen on the floor. -/
theorem step?_cases {r q : Run} {behaviour : Behaviour} (h : r.step? behaviour = some q) :
    (∃ f rest, r.session.floor.finished = f :: rest ∧ q = r.handOver behaviour f rest) ∨
      r.session.floor.finished = [] ∧
        ∃ ev, r.session.floor.next? behaviour.network = some ev ∧ q = r.happen behaviour ev := by
  unfold step? at h
  split at h
  · rename_i f rest hfinished
    exact .inl ⟨f, rest, hfinished, (Option.some.inj h).symm⟩
  · rename_i hfinished
    obtain ⟨ev, hnext, rfl⟩ := Option.map_eq_some_iff.1 h
    exact .inr ⟨hfinished, ev, hnext, rfl⟩

/-- What happens in a step. -/
def stepEvents (r : Run) (behaviour : Behaviour) : List Event :=
  match r.session.floor.finished with
  | [] => []
  | f :: rest =>
      receiveAllEvents { r.session with floor := { r.session.floor with finished := rest } }
        behaviour f r.calls

/-- A move of a run, with what happens in it. -/
inductive Move : Run → List Event → Run → Prop where
  | call (r : Run) (behaviour : Behaviour) (request : Request) :
      Move r
        (r.session.enterEvents behaviour (r.session.now + r.session.engine.timeouts.globalMs) request)
        ⟨(Call.start r.session behaviour request).2,
          r.calls ++ [(Call.start r.session behaviour request).1]⟩
  | step {r q : Run} (behaviour : Behaviour) (h : r.step? behaviour = some q) :
      Move r (r.stepEvents behaviour) q
  | wait (r : Run) (ms : Nat) : Move r [] { r with session := r.session.advance ms }
  | purge (r : Run) : Move r [] { r with session := r.session.purge.2 }
  | leave {r : Run} {calls : List Call} (h : calls.Sublist r.calls) :
      Move r [] { r with calls := calls }

/-- The runs that moves lead to, with everything that happened on the way. -/
inductive Reach (start : Run) : List Event → Run → Prop where
  | refl : Reach start [] start
  | move {r q : Run} {log events : List Event} (h : Reach start log r) (m : Move r events q) :
      Reach start (log ++ events) q

theorem Reach.trans {start r q : Run} {log log' : List Event} (h : Reach start log r)
    (h' : Reach r log' q) : Reach start (log ++ log') q := by
  induction h' with
  | refl =>
      rw [List.append_nil]
      exact h
  | move _ m ih =>
      rw [← List.append_assoc]
      exact ih.move m

/-- A number of steps, or fewer if nothing happens any more. -/
def steps (behaviour : Behaviour) : Nat → Run → Run
  | 0, r => r
  | n + 1, r =>
      match r.step? behaviour with
      | some q => steps behaviour n q
      | none => r

theorem reach_steps (behaviour : Behaviour) (n : Nat) (r : Run) :
    ∃ log, Reach r log (r.steps behaviour n) := by
  induction n generalizing r with
  | zero => exact ⟨[], .refl⟩
  | succ n ih =>
      unfold steps
      split
      · rename_i q hq
        obtain ⟨log, hlog⟩ := ih q
        have hfirst : Reach r _ q := .move .refl (.step behaviour hq)
        exact ⟨_, hfirst.trans hlog⟩
      · exact ⟨[], .refl⟩

theorem reach_startAll (s : Session) (behaviour : Behaviour) (calls : List Call)
    (requests : List Request) :
    ∃ log, Reach ⟨s, calls⟩ log
      ⟨(startAll s behaviour requests).2, calls ++ (startAll s behaviour requests).1⟩ := by
  induction requests generalizing s calls with
  | nil =>
      simp only [startAll, List.append_nil]
      exact ⟨[], .refl⟩
  | cons r rest ih =>
      obtain ⟨log, hrest⟩ := ih (Call.start s behaviour r).2 (calls ++ [(Call.start s behaviour r).1])
      have hfirst : Reach ⟨s, calls⟩ _ _ := .move .refl (.call ⟨s, calls⟩ behaviour r)
      have h := hfirst.trans hrest
      rw [List.append_assoc calls] at h
      exact ⟨_, h⟩

theorem reach_finish (behaviour : Behaviour) (r : Run) : ∃ log, Reach r log (finish behaviour r) := by
  fun_induction finish behaviour r with
  | case1 r _ => exact ⟨[], .refl⟩
  | case2 r q h ih =>
      obtain ⟨log, hlog⟩ := ih
      have hfirst : Reach r _ q := .move .refl (.step behaviour h)
      exact ⟨_, hfirst.trans hlog⟩

/-- Requests that are made at once in a session, and run to the end, are moves of a run. -/
theorem reach_run (s : Session) (behaviour : Behaviour) (requests : List Request) :
    ∃ log, Reach ⟨s, []⟩ log ⟨(s.run behaviour requests).2, []⟩ := by
  obtain ⟨log, hstart⟩ := reach_startAll s behaviour [] requests
  obtain ⟨log', hfinish⟩ := reach_finish behaviour
    ⟨(startAll s behaviour requests).2, (startAll s behaviour requests).1⟩
  exact ⟨_, (hstart.trans hfinish).move (.leave (List.nil_sublist _))⟩

end Run

end MetricFanout
