import MetricFanout.Proofs.Engine.Requests
/-!
# The search backend and the pool

Which calls have to do with the search backend, and how many requests it gets from them. The pool and the
search backend are kept apart: completions ask the search backend alone, infos never ask it, and leaves are put
to the pool whatever they look like.

The number of the search backend is behind those of the pool, so that a backend of the pool at the same
address is a different one.
-/

namespace MetricFanout

/-! ## Routes -/

namespace SearchRoute

variable {β : Type} (route : SearchRoute β) (query : String)

/-- A query that starts with the prefix. An empty prefix stands for no search at all. -/
def Triggers : Prop := route.trigger ≠ "" ∧ route.trigger.toList <+: query.toList

theorem holds_pattern : route.pattern.holds query = true ↔ route.Triggers query := by
  simp [pattern, Pattern.holds, Triggers]

theorem holds_completion :
    route.completion.holds query = true ↔ route.Triggers query ∧ ['*'] <:+ query.toList := by
  rw [← holds_pattern]
  simp [completion, pattern, Pattern.holds, Pattern.allHold]

/-- Completions are a narrower class. -/
theorem pattern_of_completion (h : route.completion.holds query = true) :
    route.pattern.holds query = true :=
  (route.holds_pattern query).2 ((route.holds_completion query).1 h).1

theorem routeFind_ne_plain_iff : routeFind (some route) query ≠ .plain ↔ route.Triggers query := by
  rw [← holds_pattern]
  cases hpattern : route.pattern.holds query with
  | true => cases hcompletion : route.completion.holds query <;> simp [routeFind, hpattern, hcompletion]
  | false =>
      have hcompletion : route.completion.holds query ≠ true := fun h =>
        Bool.false_ne_true (hpattern.symm.trans (route.pattern_of_completion query h))
      simp [routeFind, hpattern, hcompletion]

theorem routeFind_eq_completer_iff : routeFind (some route) query = .completer ↔
    route.Triggers query ∧ ['*'] <:+ query.toList := by
  rw [← holds_completion]
  cases hcompletion : route.completion.holds query <;>
    cases hpattern : route.pattern.holds query <;> simp [routeFind, hpattern, hcompletion]

theorem routeRender_ne_plain_iff :
    routeRender (some route) query ≠ .plain ↔ route.Triggers query := by
  rw [← holds_pattern]
  cases hpattern : route.pattern.holds query <;> simp [routeRender, hpattern]

end SearchRoute

/-- There is nothing to complete for a render. -/
theorem routeRender_ne_completer {β : Type} (search : Option (SearchRoute β)) (query : String) :
    routeRender search query ≠ .completer := by
  unfold routeRender
  split
  · decide
  · split <;> decide

namespace Engine

/-- A query that starts with the prefix of the search route, if there is one. -/
def Triggers (e : Engine) (query : String) : Prop :=
  ∃ route, e.search = some route ∧ route.Triggers query

/-- How calls are routed: the prefix decides whether the search backend is involved, but not for an info; a
find that also ends in a star is a completion; and finds and renders agree on what is plain. -/
structure Routes (e : Engine) : Prop where
  triggered : ∀ r : Request, e.route r ≠ .plain ↔ r.operation ≠ .info ∧ e.Triggers r.key
  completer : ∀ r : Request, e.route r = .completer ↔
    r.operation = .find ∧ e.Triggers r.key ∧ ['*'] <:+ r.key.toList
  agree : ∀ query since upTo,
    e.route (.find query) = .plain ↔ e.route (.render query since upTo) = .plain

variable (e : Engine) (query : String)

theorem routeFind_ne_plain_iff : routeFind e.search query ≠ .plain ↔ e.Triggers query := by
  unfold Triggers
  cases e.search with
  | none => simp [routeFind]
  | some route => simp [SearchRoute.routeFind_ne_plain_iff]

theorem routeFind_eq_completer_iff : routeFind e.search query = .completer ↔
    e.Triggers query ∧ ['*'] <:+ query.toList := by
  unfold Triggers
  cases e.search with
  | none => simp [routeFind]
  | some route => simp [SearchRoute.routeFind_eq_completer_iff]

theorem routeRender_ne_plain_iff : routeRender e.search query ≠ .plain ↔ e.Triggers query := by
  unfold Triggers
  cases e.search with
  | none => simp [routeRender]
  | some route => simp [SearchRoute.routeRender_ne_plain_iff]

theorem routes : e.Routes := by
  constructor
  case triggered =>
    intro r
    cases r with
    | find query => simp [route, Request.operation, Request.key, e.routeFind_ne_plain_iff]
    | render target since upTo =>
        simp [route, Request.operation, Request.key, e.routeRender_ne_plain_iff]
    | info target => simp [route, Request.operation]
  case completer =>
    intro r
    cases r with
    | find query => simp [route, Request.operation, Request.key, e.routeFind_eq_completer_iff]
    | render target since upTo => simp [route, Request.operation, routeRender_ne_completer]
    | info target => simp [route, Request.operation]
  case agree =>
    intro query since upTo
    exact not_iff_not.1 ((e.routeFind_ne_plain_iff query).trans (e.routeRender_ne_plain_iff query).symm)

end Engine

/-- The pool stays as it is. -/
theorem Run.pool_of_reach {e : Engine} {log : List Event} {r : Run}
    (h : Reach ⟨.ofEngine e, []⟩ log r) : r.session.engine.pool = e.pool :=
  session_of_reach (P := fun s => s.engine.pool = e.pool) rfl
    (fun _ _ _ _ hacts hs => hacts.alike.pool.trans hs) (fun _ _ _ _ hs => hs) (fun _ _ _ _ hs => hs)
    (fun _ _ hs => hs) (fun _ hs => hs) h

/-! ## Completions -/

namespace Watch

variable {may : Session → Nat → Prop} {r : Run} {behaviour : Behaviour} {request : Request}

/-- What a completion has done: it waits for the search backend, or has ended with the one reply. -/
def Completes (s : Session) (route : SearchRoute Backend) (deadline : Nat) (query : String)
    (own : List Deed) (w : Watch) : Prop :=
  (own = [.ask (s.searchInquiry deadline route query)] ∧
    w.call.stage = .completing s.nextGather) ∨
  ∃ f reply, own = [.ask (s.searchInquiry deadline route query), .hear (.find query) f] ∧
    f.gather = s.nextGather ∧ f.replies = [reply] ∧ reply.backend = route.backend.identity ∧
    w.call.stage = .ended (Engine.complete [reply])

theorem Course.completes {own all : List Deed} {w : Watch}
    (h : Course may r behaviour request own all w)
    (hfloor : ∃ asks, r.session.floor.Sound asks r.session.nextGather)
    (hroute : r.session.engine.route request = .completer) {route : SearchRoute Backend}
    (hsearch : r.session.engine.search = some route) :
    w.Completes r.session route (r.session.now + r.session.engine.timeouts.globalMs) request.key
      own := by
  induction h with
  | start =>
      have hstage : (Watch.start r behaviour request).call.stage = _ := Call.stage_stamp _ _
      refine .inl ⟨?_, hstage.trans ?_⟩
      · simp only [Session.startDeeds, Session.enterDeeds, hroute, hsearch]
      · simp only [hroute, hsearch]
        rfl
  | @move own own' all all' w v h m ih =>
      obtain ⟨asks, hsound⟩ := hfloor
      obtain ⟨asks', haccounts⟩ := (h.move m).accounts hsound
      rcases m.call_cases with ⟨hcall, rfl⟩ | ⟨later, f, rest, _, rfl, rfl⟩
      · rw [Completes, hcall, List.append_nil]
        exact ih
      rcases ih with ⟨rfl, hstage⟩ | ⟨g, reply, rfl, hid, hreplies, hbackend, hstage⟩
      · by_cases hgather : r.session.nextGather = f.gather
        · have hdeeds : w.call.deeds (w.midway later f rest) later f = [.hear (.find request.key) f] := by
            simp only [Call.deeds, hstage, if_pos hgather, h.request_eq]
          rw [hdeeds] at haccounts ⊢
          obtain ⟨reply, hreplies, hbackend⟩ := haccounts.single
            (List.mem_singleton_self _) (List.mem_singleton_self _) hgather.symm rfl
          refine .inr ⟨f, reply, rfl, hgather.symm, hreplies, hbackend, ?_⟩
          simp only [handOver, Call.receive, hstage, if_pos hgather, Call.stage_stamp, hreplies]
        · have hquiet : w.call.deeds (w.midway later f rest) later f = [] := by
            simp only [Call.deeds, hstage, if_neg hgather]
          rw [hquiet, List.append_nil]
          refine .inl ⟨rfl, ?_⟩
          simp only [handOver, Call.receive, hstage, if_neg hgather]
      · have hquiet : w.call.deeds (w.midway later f rest) later f = [] := by
          simp only [Call.deeds, hstage]
        rw [hquiet, List.append_nil]
        refine .inr ⟨g, reply, rfl, hid, hreplies, hbackend, ?_⟩
        simp only [handOver, Call.receive, hstage]

/-! ## Isolation -/

/-- The traffic of a call that has ended with a result, if it started in a run and is watched later. -/
structure Isolated (may : Session → Nat → Prop) (r : Run) (behaviour : Behaviour) (request : Request)
    (log : List Footprint) (w : Watch) (result : Except CallError CallResult) (stats : Stats) :
    Prop where
  /-- The search backend gets one request from a completion, and from a search that is not in the search
  cache; otherwise it gets none. -/
  search : requests r.session.engine.pool.size (ownMarks log) =
    if r.session.engine.route request = .completer ∨ r.session.engine.route request = .search ∧
      (r.session.engine.searches.get r.session.now request.key).1 = none then 1 else 0
  /-- It gets none unless a find or a render starts with the prefix. -/
  triggered : requests r.session.engine.pool.size (ownMarks log) ≠ 0 →
    request.operation ≠ .info ∧ r.session.engine.Triggers request.key
  /-- A completion sends one request to the search backend and does nothing else; in particular it touches
  no cache. It comes to the matches of the one reply that is heard, merged as those of any find. -/
  completer : r.session.engine.route request = .completer → ∃ route own all f reply,
    r.session.engine.search = some route ∧
    ownMarks log = [.send (r.session.searchSending route request.key)] ∧
    Course may r behaviour request own all w ∧ .hear (.find request.key) f ∈ own ∧
    f.gather = r.session.nextGather ∧ f.replies = [reply] ∧
    reply.backend = route.backend.identity ∧
    result = (mergeFind [reply.map Answer.found?]).map fun m => .found m.found
  /-- Behind the opening, which has to do with the search cache and the search backend, everything is inside
  the pool: leaves are put to it whatever they look like, and no query is looked up again. -/
  leaves : ∃ rest, ownMarks log = r.session.opening request ++ rest ∧
    ∀ m ∈ rest, m.Inside r.session.engine.pool
  /-- Every backend of the pool gets one request from a find for each miss. -/
  finds : request.operation = .find → ∀ n < r.session.engine.pool.size,
    requests n (ownMarks log) = stats.cacheMisses
  /-- What is sent is on the floor with just these targets, and nothing else has been sent. -/
  ledger : r.session.Numbers (allMarks log) w.session ∧ ∃ asks,
    w.session.floor.Sound asks w.session.nextGather ∧
    Session.Pages asks w.session.nextGather (allMarks log)

/-- What the opening of a call sends: at most one request to the search backend. No key is looked up. -/
theorem requests_opening {s : Session} {deadline : Nat} {r : Request} {stage : Stage} {stats : Stats}
    {opening entry : List Mark} (h : s.Enters behaviour deadline r stage stats opening entry) :
    (requests s.engine.pool.size opening =
      if s.engine.route r = .completer ∨ s.engine.route r = .search ∧
        (s.engine.searches.get s.now r.key).1 = none then 1 else 0) ∧
    ∀ n < s.engine.pool.size, requests n opening = opening.countP (Mark.looks false) := by
  have hother : ∀ n < s.engine.pool.size, [s.engine.pool.size].count n = 0 := by
    intro n hn
    rw [List.count_eq_zero, List.mem_singleton]
    exact Nat.ne_of_lt hn
  cases h with
  | plain hroute => exact ⟨by simp [hroute], fun n hn => rfl⟩
  | completer hroute hsearch => exact ⟨by simp [hroute, Session.searchSending], hother⟩
  | hit hroute hget => exact ⟨by simp [hroute, hget], fun n hn => rfl⟩
  | miss hroute hsearch hget => exact ⟨by simp [hroute, hget, Session.searchSending], hother⟩

/-- What is inside the pool is not sent to the search backend. -/
theorem requests_inside {pool : Pool} {marks : List Mark} (h : ∀ m ∈ marks, m.Inside pool) :
    requests pool.size marks = 0 := by
  refine requests_eq_zero fun d hd x hx => ?_
  exact Nat.ne_of_lt (List.getElem?_eq_some_iff.1 (h _ hd x hx)).1

/-- A completion that has ended: what it has sent, and what it has heard. -/
theorem Trail.of_completer {e : Engine} {past : List Event} {r : Run}
    (hr : Run.Reach ⟨.ofEngine e, []⟩ past r) {log : List Footprint} {w : Watch}
    (h : Trail may r behaviour request log w) (hroute : r.session.engine.route request = .completer)
    {result : Except CallError CallResult} {stats : Stats}
    (hresult : w.call.result? = some (result, stats)) : ∃ route own all f reply,
      r.session.engine.search = some route ∧
      ownMarks log = [.send (r.session.searchSending route request.key)] ∧
      Course may r behaviour request own all w ∧ .hear (.find request.key) f ∈ own ∧
      f.gather = r.session.nextGather ∧ f.replies = [reply] ∧
      reply.backend = route.backend.identity ∧
      result = (mergeFind [reply.map Answer.found?]).map fun m => .found m.found := by
  obtain ⟨own, all, hcourse⟩ := h.course
  obtain ⟨route, hsearch⟩ := Engine.search_of_route (by rw [hroute]; decide)
  rcases hcourse.completes (Run.floor_sound_of_reach hr) hroute hsearch with ⟨_, hstage⟩ |
    ⟨f, reply, rfl, hgather, hreplies, hbackend, hstage⟩
  · rw [Call.result?, hstage] at hresult
    cases hresult
  · obtain ⟨rest, hown, hfollows⟩ := h.follows
    rw [(hfollows.completer hroute).1, List.append_nil] at hown
    rw [Call.result?, hstage] at hresult
    cases hresult
    refine ⟨route, _, all, f, reply, hsearch, ?_, hcourse, by simp, hgather, hreplies, hbackend, rfl⟩
    rw [hown, Session.opening, hroute, hsearch]

/-- A call of an engine, in any run and with anything in the caches, that has ended with a result or an error:
routes are as the prefix demands, and the traffic to the search backend and to the pool is kept apart. -/
theorem Trail.isolated {e : Engine} (he : e.pool.identities.Nodup) {past : List Event} {r : Run}
    (hr : Run.Reach ⟨.ofEngine e, []⟩ past r) {log : List Footprint} {w : Watch}
    (h : Trail may r behaviour request log w) {result : Except CallError CallResult} {stats : Stats}
    (hresult : w.call.result? = some (result, stats)) :
    r.session.engine.Routes ∧ w.Isolated may r behaviour request log result stats := by
  have hroutes := r.session.engine.routes
  rw [← Run.pool_of_reach hr] at he
  obtain ⟨rest, hown, hpooled⟩ := h.pooled he
  obtain ⟨hopening, hopening'⟩ := requests_opening (Call.starts r.session behaviour request)
  have hsearch : requests r.session.engine.pool.size (ownMarks log) =
      requests r.session.engine.pool.size (r.session.opening request) := by
    rw [hown, requests_append, requests_inside hpooled.inside]
    rfl
  refine ⟨hroutes, ?_⟩
  constructor
  case search => exact hsearch.trans hopening
  case triggered =>
    intro hsome
    rw [hsearch, hopening] at hsome
    apply (hroutes.triggered request).1
    intro hplain
    simp [hplain] at hsome
  case completer => exact fun hroute => h.of_completer hr hroute hresult
  case leaves => exact ⟨rest, hown, hpooled.inside⟩
  case finds =>
    intro hop n hn
    rw [Call.counted_of_result? hresult, tallies_cacheMisses.trail h, ite_self, Nat.zero_add, hown,
      requests_append, List.countP_append, hopening' n hn, hpooled.finds hop n hn]
  case ledger =>
    obtain ⟨asks, hsound⟩ := Run.floor_sound_of_reach hr
    exact ⟨h.numbers, h.sound hsound⟩

/-- A search with two leaves: the search backend, whose number is one, is asked once, and the other one is
asked for both leaves. -/
theorem Trail.isolated_seek : Seek.engine.pool.identities.Nodup ∧ ∃ log w result stats,
    Trail Session.Prompt ⟨.ofEngine Seek.engine, []⟩ Seek.behaviour (.find "s:x") log w ∧
      w.call.result? = some (result, stats) ∧
      requests 1 (ownMarks log) = 1 ∧ requests 0 (ownMarks log) = 2 := by
  have hstart : Course Session.Prompt ⟨.ofEngine Seek.engine, []⟩ Seek.behaviour (.find "s:x") _ _ _ :=
    .start
  have hcounted : ((Seek.asked.steps Seek.behaviour 8).calls[0]?.bind Call.result?).map
      (fun x => x.2.cacheMisses) = some 2 := by decide +kernel
  obtain ⟨⟨result, stats⟩, hended, hmisses⟩ := Option.map_eq_some_iff.1 hcounted
  obtain ⟨own, all, w, hw, hresult⟩ := hstart.ended_of_steps Seek.behaviour 8 hended
  obtain ⟨log, htrail⟩ := hw.trail
  have hpool : Seek.engine.pool.identities.Nodup := List.nodup_singleton _
  obtain ⟨_, hisolated⟩ := Trail.isolated hpool .refl htrail hresult
  have hroute : (Session.ofEngine Seek.engine).engine.route (.find "s:x") = .search := by decide +kernel
  refine ⟨hpool, log, w, result, stats, htrail, hresult, ?_, ?_⟩
  · exact hisolated.search.trans (if_pos (.inr ⟨hroute, rfl⟩))
  · exact (hisolated.finds rfl 0 (Nat.zero_lt_one)).trans hmisses

end Watch

end MetricFanout
