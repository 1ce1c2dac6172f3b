import MetricFanout.Engine.Basic
import MetricFanout.Gather.Floor
/-!
# Calls in progress

A call goes through stages: a plain one gathers replies once; a completion asks the search backend;
a search first resolves its query there, and then one plain sub-call is made for every leaf. All
that a call waits for has one deadline, which is fixed when it starts.

A session is an engine with its clock and the floor on which gatherings go on. Backends are
numbered: those of the pool by their place, and the search backend behind them. Gatherings are
numbered in the order in which they begin. When one has ended, its replies are handed to the call
that waits for it; that is the only way in which a call goes on.
-/

namespace MetricFanout

/-- A request put to a backend. -/
structure Ask where
  backend : Backend
  request : Request

/-- How backends behave: when the response to a request comes, if it ever does, and what it is. -/
abbrev Behaviour := Ask → Option (Nat × Response)

namespace Ask

/-- The URL that is asked for. -/
def url (a : Ask) : Url := a.request.url a.backend

/-- Simultaneous responses come in the order of ports, then of what was asked for. -/
def before (a b : Ask) : Bool :=
  let p := a.url.effectivePort
  let q := b.url.effectivePort
  p < q || (p = q && String.ofList a.url.target < String.ofList b.url.target)

end Ask

/-- The network of a behaviour. -/
def Behaviour.network (b : Behaviour) : Network Ask Answer where
  deliver a :=
    match b a with
    | none => ⟨none, none⟩
    | some (delay, response) => ⟨some delay, some (response.outcome a.request.operation)⟩
  before := Ask.before

/-- An engine at work. -/
structure Session where
  engine : Engine
  now : Nat := 0
  floor : Floor Ask Answer
  nextGather : Nat := 0

/-- A plain call, or the sub-call of a leaf. -/
inductive Branch where
  | waiting (request : Request) (gather : Nat) (stats : Stats)
  | done (result : Except CallError CallResult) (stats : Stats)

/-- Where a call stands. -/
inductive Stage where
  /-- The search backend completes the query. -/
  | completing (gather : Nat)
  /-- The search backend resolves the query. -/
  | resolving (gather : Nat)
  | plain (branch : Branch)
  /-- One sub-call per leaf. -/
  | leaves (branches : List Branch)
  | ended (result : Except CallError CallResult)

/-- A call: its request, its deadline, what it has counted besides its sub-calls, and its stage. -/
structure Call where
  request : Request
  deadline : Nat
  stats : Stats
  stage : Stage
  /-- When it ended. -/
  endedAt : Option Nat := none

namespace Session

/-- The session of an engine that has just been built. -/
def ofEngine (e : Engine) : Session where
  engine := e
  floor := .ofLimits (e.pool.backends.map Backend.limit ++
    (match e.search with
    | none => []
    | some s => [s.backend.limit]))

/-- The number of a backend of the pool. -/
def numberOf (s : Session) (b : Backend) : Nat :=
  s.engine.pool.backends.findIdx fun c => c.identity == b.identity

/-- Begin a gathering: put a request to numbered backends. -/
def gather (s : Session) (behaviour : Behaviour) (deadline : Nat) (r : Request)
    (backends : List (Nat × Backend)) : Nat × Session :=
  let targets := backends.map fun (number, b) => ⟨number, b.identity, ⟨b, r⟩⟩
  (s.nextGather,
    { s with
      floor := s.floor.begin behaviour.network s.now s.nextGather s.engine.timeouts.afterStartedMs
        deadline targets
      nextGather := s.nextGather + 1 })

/-- Start a plain call. -/
def startPlain (s : Session) (behaviour : Behaviour) (deadline : Nat) (r : Request) :
    Branch × Session :=
  let (plan, stats, engine) := s.engine.consult s.now r
  let s := { s with engine := engine }
  match plan with
  | .known found => (.done (.ok (.found found)) stats, s)
  | .ask backends =>
      let (id, s) := s.gather behaviour deadline r (backends.map fun b => (s.numberOf b, b))
      (.waiting r id stats, s)

/-- Start the sub-calls of leaves, one after the other. -/
def startLeaves (s : Session) (behaviour : Behaviour) (deadline : Nat) (r : Request) :
    List String → List Branch × Session
  | [] => ([], s)
  | leaf :: rest =>
      let (b, s) := s.startPlain behaviour deadline (r.withKey leaf)
      let (bs, s) := startLeaves s behaviour deadline r rest
      (b :: bs, s)

/-- Go on with the leaves of a search. Without leaves the result is empty. -/
def enterLeaves (s : Session) (behaviour : Behaviour) (deadline : Nat) (r : Request)
    (leaves : List String) : Stage × Session :=
  if leaves.isEmpty then (.ended (.ok (.empty r.operation)), s)
  else
    let (bs, s) := s.startLeaves behaviour deadline r leaves
    (.leaves bs, s)

theorem enterLeaves_ne_resolving (s : Session) (behaviour : Behaviour) (deadline : Nat)
    (r : Request) (leaves : List String) (gather : Nat) :
    (s.enterLeaves behaviour deadline r leaves).1 ≠ .resolving gather := by
  unfold enterLeaves
  split <;> simp

/-- Ask the search backend about a query. -/
def gatherSearch (s : Session) (behaviour : Behaviour) (deadline : Nat)
    (route : SearchRoute Backend) (query : String) : Nat × Session :=
  s.gather behaviour deadline (.find query) [(s.engine.pool.size, route.backend)]

/-- Start the stages of a call that starts now, and say what it counts besides its sub-calls. -/
def enter (s : Session) (behaviour : Behaviour) (deadline : Nat) (r : Request) :
    Stage × Stats × Session :=
  match s.engine.route r, s.engine.search with
  | .completer, some route =>
      let (id, s) := s.gatherSearch behaviour deadline route r.key
      (.completing id, Stats.countSearch {}, s)
  | .search, some route =>
      let (leaves, stats, engine) := s.engine.consultSearch s.now r.key
      let s := { s with engine := engine }
      match leaves with
      | some leaves =>
          let (stage, s) := s.enterLeaves behaviour deadline r leaves
          (stage, stats.countSearch, s)
      | none =>
          let (id, s) := s.gatherSearch behaviour deadline route r.key
          (.resolving id, stats.countSearch, s)
  | _, _ =>
      let (b, s) := s.startPlain behaviour deadline r
      (.plain b, {}, s)

end Session

namespace Branch

/-- The result and the counters of a sub-call that has ended. -/
def result? : Branch → Option (Except CallError CallResult × Stats)
  | .waiting _ _ _ => none
  | .done result stats => some (result, stats)

/-- Hand a gathering to a sub-call, if it waits for it. -/
def receive (s : Session) (f : Finished Answer) (b : Branch) : Branch × Session :=
  match b with
  | .waiting r id stats =>
      if id = f.gather then
        let (result, engine) := s.engine.conclude s.now r f.replies
        (.done result (stats.recordFailures r.operation f.replies), { s with engine := engine })
      else (b, s)
  | .done _ _ => (b, s)

/-- Hand a gathering to several sub-calls. -/
def receiveAll (s : Session) (f : Finished Answer) : List Branch → List Branch × Session
  | [] => ([], s)
  | b :: rest =>
      let (b, s) := b.receive s f
      let (bs, s) := receiveAll s f rest
      (b :: bs, s)

theorem receive_floor (s : Session) (f : Finished Answer) (b : Branch) :
    (b.receive s f).2.floor = s.floor := by
  unfold receive
  split
  · split <;> rfl
  · rfl

theorem receiveAll_floor (s : Session) (f : Finished Answer) (bs : List Branch) :
    (receiveAll s f bs).2.floor = s.floor := by
  induction bs generalizing s with
  | nil => rfl
  | cons b rest ih => simp only [receiveAll, ih, receive_floor]

end Branch

namespace Call

/-- The result and the counters of a call that has ended. The counters of sub-calls are added. -/
def result? (c : Call) : Option (Except CallError CallResult × Stats) :=
  match c.stage with
  | .completing _ => none
  | .resolving _ => none
  | .plain b => b.result?.map fun (r, s) => (r, c.stats + s)
  | .leaves bs =>
      (bs.mapM Branch.result?).map fun rs =>
        (CallResult.join c.request.operation (rs.map Prod.fst),
          (rs.map Prod.snd).foldl (· + ·) c.stats)
  | .ended r => some (r, c.stats)

/-- Note when a call has ended. -/
def stamp (c : Call) (now : Nat) : Call :=
  if c.endedAt.isNone && c.result?.isSome then { c with endedAt := some now } else c

/-- Start a call. Its deadline is the global time limit. -/
def start (s : Session) (behaviour : Behaviour) (r : Request) : Call × Session :=
  let deadline := s.now + s.engine.timeouts.globalMs
  let (stage, stats, s) := s.enter behaviour deadline r
  (stamp ⟨r, deadline, stats, stage, none⟩ s.now, s)

/-- Hand a gathering to a call, if it waits for it. -/
def receive (s : Session) (behaviour : Behaviour) (f : Finished Answer) (c : Call) :
    Call × Session :=
  match c.stage with
  | .completing id =>
      if id = f.gather then
        ({ c with
            stage := .ended (Engine.complete f.replies)
            stats := c.stats.recordFailures .find f.replies }.stamp s.now, s)
      else (c, s)
  | .resolving id =>
      if id = f.gather then
        let stats := c.stats.recordFailures .find f.replies
        let (leaves, engine) := s.engine.resolve s.now c.request.key f.replies
        let s := { s with engine := engine }
        match leaves with
        | .error e => ({ c with stage := .ended (.error e), stats := stats }.stamp s.now, s)
        | .ok leaves =>
            let (stage, s) := s.enterLeaves behaviour c.deadline c.request leaves
            ({ c with stage := stage, stats := stats }.stamp s.now, s)
      else (c, s)
  | .plain b =>
      let (b, s) := b.receive s f
      ({ c with stage := .plain b }.stamp s.now, s)
  | .leaves bs =>
      let (bs, s) := Branch.receiveAll s f bs
      ({ c with stage := .leaves bs }.stamp s.now, s)
  | .ended _ => (c, s)

/-- Whether a call still has to be resolved. -/
def isResolving (c : Call) : Bool :=
  match c.stage with
  | .resolving _ => true
  | _ => false

theorem isResolving_stamp (c : Call) (now : Nat) : (c.stamp now).isResolving = c.isResolving := by
  unfold stamp
  split <;> rfl

/-- A gathering is handed to a call without anything new on the floor, unless it ends a resolution.
-/
theorem receive_progress (s : Session) (behaviour : Behaviour) (f : Finished Answer) (c : Call) :
    ((c.receive s behaviour f).1.isResolving = c.isResolving ∧
      (c.receive s behaviour f).2.floor = s.floor) ∨
    ((c.receive s behaviour f).1.isResolving = false ∧ c.isResolving = true) := by
  unfold receive
  split
  · rename_i h
    split
    · exact .inl ⟨by rw [isResolving_stamp]; simp [isResolving, h], rfl⟩
    · exact .inl ⟨rfl, rfl⟩
  · rename_i h
    split
    · refine .inr ⟨?_, by simp [isResolving, h]⟩
      simp only
      split
      · rw [isResolving_stamp]; rfl
      · rw [isResolving_stamp]
        simp only [isResolving]
        split
        · exact absurd ‹_› (Session.enterLeaves_ne_resolving _ _ _ _ _ _)
        · rfl
    · exact .inl ⟨rfl, rfl⟩
  · rename_i h
    exact .inl ⟨by rw [isResolving_stamp]; simp [isResolving, h], Branch.receive_floor _ _ _⟩
  · rename_i h
    exact .inl ⟨by rw [isResolving_stamp]; simp [isResolving, h], Branch.receiveAll_floor _ _ _⟩
  · exact .inl ⟨rfl, rfl⟩

end Call

end MetricFanout
