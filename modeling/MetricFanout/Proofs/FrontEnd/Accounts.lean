import MetricFanout.FrontEnd.Server
import MetricFanout.Proofs.Engine.Narrowing
import MetricFanout.Proofs.Engine.Served
import MetricFanout.Proofs.Telemetry.Registry
/-!
# The accounts of the front end

A front end handles one request after the other. An operation whose parameters are rejected never comes to
the engine; any other one is a call of the engine, and the answer says how the call ended. What has been
recorded in the end agrees with the requests and their answers.

Between two requests the session may become any other one: time passes, caches are swept, and calls are made
that do not come over HTTP. Requests for other resources than the operations may come in between as well.
They are not counted.
-/

namespace MetricFanout

/-- The operation that a request asks for, and the parameters that it brings. -/
def HttpRequest.asks? (r : HttpRequest) : Option (Operation × Params) :=
  (Uri.parse r.target).bind fun uri =>
    match Resource.ofPath? uri.path with
    | some (.operation op) =>
        if r.method = "GET" ∨ r.method = "HEAD" then some (op, Params.parse uri.query) else none
    | _ => none

namespace FrontEnd

/-- The report about the call that an operation makes, if its parameters are accepted. -/
def report? (f : FrontEnd) (behaviour : Behaviour) (op : Operation) (p : Params) : Option CallReport :=
  match accept op p with
  | .error _ => none
  | .ok (request, _) => some (f.session.call behaviour request).1

/-- What the call of an operation counts; nothing if there is no call. -/
def counted (f : FrontEnd) (behaviour : Behaviour) (op : Operation) (p : Params) : Stats :=
  ((f.report? behaviour op p).map CallReport.stats).getD {}

theorem counted_of_error {f : FrontEnd} {behaviour : Behaviour} {op : Operation} {p : Params}
    {rejection : Rejection} (h : accept op p = .error rejection) : f.counted behaviour op p = {} := by
  rw [counted, report?, h]
  rfl

theorem counted_of_ok {f : FrontEnd} {behaviour : Behaviour} {op : Operation} {p : Params}
    {request : Request} {format : Format} (h : accept op p = .ok (request, format)) :
    f.counted behaviour op p = (f.session.call behaviour request).1.stats := by
  rw [counted, report?, h]
  rfl

/-! ## Operations -/

theorem perform_of_error {f : FrontEnd} {behaviour : Behaviour} {op : Operation} {p : Params}
    {rejection : Rejection} (h : accept op p = .error rejection) :
    f.perform behaviour op p = (textPage 400 rejection.message,
      { f with registry := (f.registry.recordRequest op).recordResponse op 0 false f.config.buckets }) := by
  rw [perform, h]

theorem status_success (f : FrontEnd) (format : Format) (r : CallResult) :
    (f.success format r).status = 200 := by
  cases format <;> rfl

theorem status_failure (op : Operation) : (failure op).status = 500 := by
  cases op <;> rfl

/-- An accepted operation is a call, recorded and answered by its outcome. -/
theorem perform_of_ok (f : FrontEnd) (behaviour : Behaviour) {op : Operation} {p : Params}
    {request : Request} {format : Format} (h : accept op p = .ok (request, format)) :
    (f.perform behaviour op p).1.status =
        (if succeeded (f.session.call behaviour request).1.result then 200 else 500) ∧
      (f.perform behaviour op p).2.session = (f.session.call behaviour request).2 ∧
      (f.perform behaviour op p).2.registry.counters = (f.registry.countAll (Registry.charges op
        (Registry.statCharges (f.session.call behaviour request).1.stats)
        (succeeded (f.session.call behaviour request).1.result)
        (Bucket.ofMillis ((f.session.call behaviour request).2.now - f.session.now)
          f.config.buckets))).counters := by
  rw [← Registry.counters_answered _ _ _ _ _ _ (f.session.call behaviour request).2.engine.paths
    (f.session.call behaviour request).2.engine.searches, perform, h]
  dsimp only
  cases hresult : (f.session.call behaviour request).1.result with
  | ok r => exact ⟨status_success _ _ _, rfl, rfl⟩
  | error e => exact ⟨status_failure _, rfl, rfl⟩

/-- Every operation is charged once, as a success exactly if the answer says so. -/
theorem perform_charged (f : FrontEnd) (behaviour : Behaviour) (op : Operation) (p : Params) :
    ∃ bucket, f.registry.ChargedWith (f.perform behaviour op p).2.registry
      (Registry.charges op (Registry.statCharges (f.counted behaviour op p))
        (decide ((f.perform behaviour op p).1.status = 200)) bucket) := by
  cases haccept : accept op p with
  | error rejection =>
      refine ⟨Bucket.ofMillis 0 f.config.buckets, ?_⟩
      rw [perform_of_error haccept, counted_of_error haccept]
      have hcharged := Registry.chargedWith_of_counters
        (Registry.counters_rejected f.registry op 0 f.config.buckets)
      -- Charging the counters of a call that has counted nothing changes nothing.
      have hnothing : ∀ q, charged q (Registry.charges op [] false (Bucket.ofMillis 0 f.config.buckets)) =
          charged q (Registry.charges op (Registry.statCharges {}) false
            (Bucket.ofMillis 0 f.config.buckets)) := by
        intro q
        rw [Registry.charged_charges, Registry.charged_charges, Registry.charged_statCharges_empty]
        rfl
      exact ⟨fun d => by rw [hcharged.value, hnothing]; rfl, fun q => by rw [hcharged.total, hnothing]; rfl⟩
  | ok accepted =>
      obtain ⟨request, format⟩ := accepted
      obtain ⟨hstatus, _, hcounters⟩ := perform_of_ok f behaviour haccept
      have hok : decide ((f.perform behaviour op p).1.status = 200) =
          succeeded (f.session.call behaviour request).1.result := by
        rw [hstatus]
        cases succeeded (f.session.call behaviour request).1.result with
        | false => rfl
        | true => rfl
      rw [hok, counted_of_ok haccept]
      exact ⟨_, Registry.chargedWith_of_counters hcounters⟩

/-- A request for an operation is handled by performing the operation. -/
theorem handle_of_asks {f : FrontEnd} {behaviour : Behaviour} {r : HttpRequest} {op : Operation}
    {p : Params} (h : r.asks? = some (op, p)) {response : HttpResponse} {after : FrontEnd}
    (hhandle : f.handle behaviour r = some (response, after)) :
    response.status = (f.perform behaviour op p).1.status ∧ after = (f.perform behaviour op p).2 := by
  obtain ⟨uri, huri, hasks⟩ := Option.bind_eq_some_iff.1 h
  obtain ⟨uri', huri', hanswer⟩ := Option.map_eq_some_iff.1 hhandle
  obtain rfl : uri = uri' := Option.some.inj (huri.symm.trans huri')
  unfold respond at hanswer
  split at hasks
  · rename_i op' hresource
    split at hasks
    · rename_i hmethod
      cases hasks
      rw [hresource] at hanswer
      dsimp only [get] at hanswer
      split at hanswer
      · cases hanswer
        exact ⟨rfl, rfl⟩
      · rename_i hget
        rw [if_pos (hmethod.resolve_left hget)] at hanswer
        cases hanswer
        exact ⟨rfl, rfl⟩
    · cases hasks
  · cases hasks

/-- Only operations change the front end. -/
theorem get_of_ne_operation (f : FrontEnd) (behaviour : Behaviour) (query : Option String)
    {resource : Resource} (h : ∀ op, resource ≠ .operation op) :
    (f.get behaviour query resource).2 = f := by
  cases resource with
  | operation op => exact absurd rfl (h op)
  | check | status | backends | caches => rfl

/-- Other requests leave the front end as it is. -/
theorem handle_of_asks_none {f : FrontEnd} {behaviour : Behaviour} {r : HttpRequest}
    (h : r.asks? = none) {response : HttpResponse} {after : FrontEnd}
    (hhandle : f.handle behaviour r = some (response, after)) : after = f := by
  obtain ⟨uri, huri, hanswer⟩ := Option.map_eq_some_iff.1 hhandle
  rw [HttpRequest.asks?, huri, Option.bind_some] at h
  obtain rfl : (f.respond behaviour r.method uri).2 = after := congrArg Prod.snd hanswer
  unfold respond
  split
  · rfl
  · rename_i resource hresource
    have hpage : r.method = "GET" ∨ r.method = "HEAD" → ∀ op, resource ≠ .operation op := by
      rintro hmethod op rfl
      rw [hresource] at h
      dsimp only at h
      rw [if_pos hmethod] at h
      cases h
    split
    · rename_i hget
      exact get_of_ne_operation f behaviour uri.query (hpage (.inl hget))
    · split
      · rename_i _ hhead
        exact get_of_ne_operation f behaviour uri.query (hpage (.inr hhead))
      · rfl

end FrontEnd

/-! ## Calls -/

namespace Session

/-- The run of one call, at its end. -/
def runCall (s : Session) (behaviour : Behaviour) (request : Request) : Run :=
  Run.finish behaviour ⟨(Call.start s behaviour request).2, [(Call.start s behaviour request).1]⟩

theorem call_eq_runCall (s : Session) (behaviour : Behaviour) (request : Request) :
    s.call behaviour request =
      (((s.runCall behaviour request).calls.map fun c =>
          c.report (s.runCall behaviour request).session.now).headD
        ⟨.error (.allBackendsFailed request.operation), {}, (s.runCall behaviour request).session.now⟩,
      (s.runCall behaviour request).session) := rfl

/-- A call ends, and its report says how. -/
theorem runCall_ends (s : Session) (behaviour : Behaviour) (request : Request) : ∃ c,
    s.runCall behaviour request = ⟨(s.call behaviour request).2, [c]⟩ ∧
    c.result? = some ((s.call behaviour request).1.result, (s.call behaviour request).1.stats) := by
  have hlength : (s.runCall behaviour request).calls.length = 1 := Run.length_finish behaviour _
  have hended : ∀ c ∈ (s.runCall behaviour request).calls, c.result?.isSome = true :=
    Run.isSome_result?_of_finish s behaviour [request]
  rw [call_eq_runCall]
  obtain ⟨c, hc⟩ := List.length_eq_one_iff.1 hlength
  obtain ⟨⟨result, stats⟩, hresult⟩ :=
    Option.isSome_iff_exists.1 (hended c (hc ▸ List.mem_singleton_self c))
  refine ⟨c, ?_, ?_⟩
  · rw [← hc]
  · rw [hc, List.map_cons, List.headD_cons, Call.report, hresult]

end Session

/-! ## Requests and their answers -/

/-- A request that has been handled. -/
structure Exchange where
  /-- The front end at the time of the request. -/
  before : FrontEnd
  behaviour : Behaviour
  request : HttpRequest
  response : HttpResponse
  /-- The front end when the response was sent. -/
  after : FrontEnd

namespace Exchange

/-- Whether an operation was asked for. -/
def isOperation (x : Exchange) : Bool := x.request.asks?.isSome

/-- Whether an operation was asked for and succeeded. -/
def isSuccess (x : Exchange) : Bool := x.isOperation && decide (x.response.status = 200)

/-- What the call counted that was made for the request; nothing if there was no call. -/
def stats (x : Exchange) : Stats :=
  match x.request.asks? with
  | some (op, p) => x.before.counted x.behaviour op p
  | none => {}

theorem stats_of_asks {x : Exchange} {op : Operation} {p : Params}
    (h : x.request.asks? = some (op, p)) : x.stats = x.before.counted x.behaviour op p := by
  rw [stats, h]

/-- How an operation has been answered: it is rejected for its parameters only, without any trace in the
session, and otherwise the call to the engine ends, and its result decides. -/
structure Answered (x : Exchange) (op : Operation) (p : Params) : Prop where
  rejected : x.response.status = 400 ↔ ∃ rejection, FrontEnd.accept op p = .error rejection
  untouched : x.response.status = 400 → x.after.session = x.before.session ∧ x.stats = {}
  called : ∀ request format, FrontEnd.accept op p = .ok (request, format) → ∃ c result,
    x.before.session.runCall x.behaviour request = ⟨x.after.session, [c]⟩ ∧
    c.result? = some (result, x.stats) ∧
    (x.response.status = 200 ↔ ∃ r, result = .ok r) ∧
    (x.response.status = 500 ↔ ∃ e, result = .error e)

/-- An exchange is what its front end makes of it. -/
def Happened (x : Exchange) : Prop :=
  x.before.handle x.behaviour x.request = some (x.response, x.after)

theorem Happened.answered {x : Exchange} (h : x.Happened) {op : Operation} {p : Params}
    (hasks : x.request.asks? = some (op, p)) : x.Answered op p := by
  obtain ⟨hstatus, hafter⟩ := FrontEnd.handle_of_asks hasks h
  cases haccept : FrontEnd.accept op p with
  | error rejection =>
      rw [FrontEnd.perform_of_error haccept] at hstatus hafter
      have hstats : x.stats = {} := (stats_of_asks hasks).trans (FrontEnd.counted_of_error haccept)
      refine ⟨⟨fun _ => ⟨rejection, haccept⟩, fun _ => hstatus⟩, fun _ => ⟨by rw [hafter], hstats⟩, ?_⟩
      intro request format hok
      rw [haccept] at hok
      cases hok
  | ok accepted =>
      obtain ⟨request, format⟩ := accepted
      obtain ⟨hperform, hsession, _⟩ := x.before.perform_of_ok x.behaviour haccept
      have hstats : x.stats = (x.before.session.call x.behaviour request).1.stats :=
        (stats_of_asks hasks).trans (FrontEnd.counted_of_ok haccept)
      obtain ⟨c, hrun, hresult⟩ := x.before.session.runCall_ends x.behaviour request
      rw [← hsession, ← hafter] at hrun
      rw [← hstats] at hresult
      rw [hperform] at hstatus
      have hnot : x.response.status ≠ 400 := by
        rw [hstatus]
        split <;> decide
      refine ⟨⟨fun h => absurd h hnot, ?_⟩, fun h => absurd h hnot, ?_⟩
      · rintro ⟨rejection, herror⟩
        rw [haccept] at herror
        cases herror
      · intro request' format' hok
        rw [haccept] at hok
        cases hok
        refine ⟨c, _, hrun, hresult, ?_⟩
        rw [hstatus]
        cases (x.before.session.call x.behaviour request).1.result with
        | ok r => simp [FrontEnd.succeeded, Except.toOption]
        | error e => simp [FrontEnd.succeeded, Except.toOption]

/-- An operation is charged once. -/
theorem Happened.charged {x : Exchange} (h : x.Happened) {op : Operation} {p : Params}
    (hasks : x.request.asks? = some (op, p)) : ∃ bucket,
      x.before.registry.ChargedWith x.after.registry (Registry.charges op
        (Registry.statCharges x.stats) (decide (x.response.status = 200)) bucket) := by
  obtain ⟨hstatus, hafter⟩ := FrontEnd.handle_of_asks hasks h
  rw [hstatus, hafter, stats_of_asks hasks]
  exact FrontEnd.perform_charged x.before x.behaviour op p

/-- Nothing else is charged. -/
theorem Happened.eq_of_asks_none {x : Exchange} (h : x.Happened) (hasks : x.request.asks? = none) :
    x.after = x.before :=
  FrontEnd.handle_of_asks_none hasks h

end Exchange

/-! ## The accounts -/

/-- A counter of a latency bucket. -/
def Counter.isBucket : Counter → Bool
  | .bucket _ => true
  | _ => false

/-- What a registry says about the requests that have been handled. -/
structure Registry.Accounts (r : Registry) (past : List Exchange) : Prop where
  requests : r.value .requests = past.countP Exchange.isOperation
  operations : r.value (.operationRequests .find) + r.value (.operationRequests .render) +
    r.value (.operationRequests .info) = past.countP Exchange.isOperation
  ended : r.value .responses + r.value .errors = past.countP Exchange.isOperation
  buckets : r.total Counter.isBucket = past.countP Exchange.isOperation
  responses : r.value .responses = past.countP Exchange.isSuccess
  /-- Each counter of the engine is the sum of what calls have counted. -/
  stats : ∀ c ∈ (past.foldl (fun sum x => sum + x.stats) {} : Stats).toList, r.value (.stat c.1) = c.2

theorem Registry.Accounts.empty : ({} : Registry).Accounts [] where
  requests := rfl
  operations := rfl
  ended := rfl
  buckets := rfl
  responses := rfl
  stats := by decide

/-- A front end that has handled requests, the first one first. Between two requests the session may change
in any way. -/
inductive FrontEnd.Handled (config : Config) : List Exchange → FrontEnd → Prop
  | start (session : Session) : Handled config [] ⟨session, config, {}⟩
  | handle {past : List Exchange} {f : FrontEnd} (h : Handled config past f) (x : Exchange)
      (hbefore : ∃ session, x.before = { f with session := session }) (hx : x.Happened) :
      Handled config (past ++ [x]) x.after

namespace Registry.Accounts

variable {r after : Registry} {past : List Exchange} {x : Exchange}

/-- A request for something else than an operation leaves the accounts as they are. -/
theorem other (h : r.Accounts past) (hasks : x.request.asks? = none) : r.Accounts (past ++ [x]) := by
  have hoperation : x.isOperation = false := by rw [Exchange.isOperation, hasks]; rfl
  have hsuccess : x.isSuccess = false := by rw [Exchange.isSuccess, hoperation]; rfl
  have hstats : x.stats = {} := by rw [Exchange.stats, hasks]
  have hcount : ∀ q : Exchange → Bool, q x = false → (past ++ [x]).countP q = past.countP q := by
    intro q hq
    rw [List.countP_append, List.countP_singleton, hq]
    rfl
  constructor
  case requests => rw [hcount _ hoperation, h.requests]
  case operations => rw [hcount _ hoperation, h.operations]
  case ended => rw [hcount _ hoperation, h.ended]
  case buckets => rw [hcount _ hoperation, h.buckets]
  case responses => rw [hcount _ hsuccess, h.responses]
  case stats =>
    rw [List.foldl_append, List.foldl_cons, List.foldl_nil, hstats]
    exact h.stats

/-- An operation is entered into the accounts by its charges. -/
theorem operation (h : r.Accounts past) {op : Operation} {p : Params}
    (hasks : x.request.asks? = some (op, p)) {bucket : Nat}
    (hcharged : r.ChargedWith after (charges op (statCharges x.stats)
      (decide (x.response.status = 200)) bucket)) : after.Accounts (past ++ [x]) := by
  have hoperation : x.isOperation = true := by rw [Exchange.isOperation, hasks]; rfl
  have hcount : (past ++ [x]).countP Exchange.isOperation = past.countP Exchange.isOperation + 1 := by
    rw [List.countP_append, List.countP_singleton, hoperation]
    rfl
  have hsuccess : (past ++ [x]).countP Exchange.isSuccess =
      past.countP Exchange.isSuccess + if x.response.status = 200 then 1 else 0 := by
    rw [List.countP_append, List.countP_singleton, Exchange.isSuccess, hoperation]
    simp
  -- An operation is charged as a success or as an error, and not as both.
  have hended : ∀ c : Counter, (if (if decide (x.response.status = 200) then Counter.responses else
      .errors) = c then 1 else 0) =
      if x.response.status = 200 then (if Counter.responses = c then 1 else 0) else
        if Counter.errors = c then 1 else 0 := by
    intro c
    by_cases hstatus : x.response.status = 200 <;> simp [hstatus]
  constructor
  case requests =>
    rw [hcharged.value_eq (by simp), h.requests, hcount, hended]
    simp
  case operations =>
    rw [hcharged.value_eq (by simp), hcharged.value_eq (by simp), hcharged.value_eq (by simp), hcount,
      ← h.operations, hended, hended, hended]
    cases op <;> simp <;> omega
  case ended =>
    rw [hcharged.value_eq (by simp), hcharged.value_eq (by simp), hcount, ← h.ended, hended, hended]
    by_cases hstatus : x.response.status = 200 <;> simp [hstatus] <;> omega
  case buckets =>
    rw [hcharged.total, h.buckets, charged_charges, charged_statCharges_eq_zero (fun _ => rfl), hcount]
    cases decide (x.response.status = 200) <;> rfl
  case responses =>
    rw [hcharged.value_eq (by simp), h.responses, hsuccess, hended]
    simp
  case stats =>
    intro c hc
    rw [List.foldl_append, List.foldl_cons, List.foldl_nil] at hc
    obtain ⟨m, n, hm, hn, hsum⟩ := Stats.exists_of_mem_toList_add hc
    rw [hsum, hcharged.value_stat hn, h.stats _ hm]

end Registry.Accounts

/-! ## Two requests -/

namespace Pair

/-- A render with a time that is none. -/
def rejected : HttpRequest := ⟨"GET", "/render?target=a&from=x&until=0", []⟩

/-- A find. -/
def accepted : HttpRequest := ⟨"GET", "/metrics/find?query=a*", []⟩

end Pair

namespace FrontEnd.Handled

variable {config : Config} {past : List Exchange} {f : FrontEnd}

theorem accounts (h : Handled config past f) : f.registry.Accounts past := by
  induction h with
  | start session => exact .empty
  | @handle past f h x hbefore hx ih =>
      obtain ⟨session, hbefore⟩ := hbefore
      have hregistry : x.before.registry.Accounts past := by
        rw [hbefore]
        exact ih
      cases hasks : x.request.asks? with
      | none =>
          rw [hx.eq_of_asks_none hasks]
          exact hregistry.other hasks
      | some asked =>
          obtain ⟨bucket, hcharged⟩ := hx.charged hasks
          exact hregistry.operation hasks hcharged

end FrontEnd.Handled

end MetricFanout
