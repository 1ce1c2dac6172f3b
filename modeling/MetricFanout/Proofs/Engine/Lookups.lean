import MetricFanout.Proofs.Cache.Refinement
import MetricFanout.Proofs.Engine.Served
import MetricFanout.Proofs.Engine.Tallies
/-!
# Look-ups, counted twice

Calls count their look-ups in both caches, and the caches count them too. Both agree at all times: what the
caches have counted is what calls that are over have counted, together with what calls in progress have
counted so far. How often a single call looks something up depends on its route alone, and on the number of
leaves of a search.

Marks are what both sides count: `Tallies` is the side of the calls, and `Gauges` is that of the caches.
-/

namespace MetricFanout

/-! ## Counters of caches -/

/-- A counter of an engine that counts the marks of one kind, and nothing else. -/
structure Gauges (gauge : Engine → Nat) (kind : Mark → Bool) : Prop where
  marking : ∀ {behaviour : Behaviour} {s q : Session} {m : Mark}, Session.Marking behaviour s m q →
    gauge q.engine = gauge s.engine + if kind m then 1 else 0
  purge : ∀ s : Session, gauge s.purge.2.engine = gauge s.engine

/-- A look-up counts as a hit or as a miss. -/
theorem TtlCache.counts_get {α : Type} (c : TtlCache α) (now : Nat) (key : String) :
    (c.get now key).2.hits = c.hits + (if (c.get now key).1.isSome == true then 1 else 0) ∧
      (c.get now key).2.misses = c.misses + if (c.get now key).1.isSome == false then 1 else 0 := by
  have hcounts := c.get_counts now key
  rw [get_eq_peek]
  cases hpeek : (c.peek now key).isSome with
  | true =>
      rw [hpeek] at hcounts
      exact Prod.mk.inj hcounts
  | false =>
      rw [hpeek] at hcounts
      exact Prod.mk.inj hcounts

/-- A find that is remembered is no look-up. -/
theorem Engine.counts_remember (e : Engine) (h : Harvest) :
    (e.remember h.time h.query h.merged).paths.hits = e.paths.hits ∧
      (e.remember h.time h.query h.merged).paths.misses = e.paths.misses :=
  remember_induction e h (P := fun c => c.hits = e.paths.hits ∧ c.misses = e.paths.misses)
    ⟨rfl, rfl⟩ (fun _ _ _ _ hc => hc)

theorem gauges_pathHits : Gauges (fun e => e.paths.hits) (Mark.looks true) where
  marking m := by
    cases m with
    | look r => exact (TtlCache.counts_get _ _ _).1
    | store htime => exact (Engine.counts_remember _ _).1
    | _ => rfl
  purge _ := rfl

theorem gauges_pathMisses : Gauges (fun e => e.paths.misses) (Mark.looks false) where
  marking m := by
    cases m with
    | look r => exact (TtlCache.counts_get _ _ _).2
    | store htime => exact (Engine.counts_remember _ _).2
    | _ => rfl
  purge _ := rfl

theorem gauges_searchHits : Gauges (fun e => e.searches.hits) (Mark.seeks true) where
  marking m := by
    cases m with
    | seek query => exact (TtlCache.counts_get _ _ _).1
    | store htime => simp only [Engine.remember_eq]; rfl
    | _ => rfl
  purge _ := rfl

theorem gauges_searchMisses : Gauges (fun e => e.searches.misses) (Mark.seeks false) where
  marking m := by
    cases m with
    | seek query => exact (TtlCache.counts_get _ _ _).2
    | store htime => simp only [Engine.remember_eq]; rfl
    | _ => rfl
  purge _ := rfl

/-- A gauge counts the marks that are left. -/
theorem Gauges.track {gauge : Engine → Nat} {kind : Mark → Bool} (hg : Gauges gauge kind)
    {behaviour : Behaviour} {s q : Session} {marks : List Mark} (h : s.Track behaviour marks q) :
    gauge q.engine = gauge s.engine + marks.countP kind := by
  induction h with
  | refl => rfl
  | mark _ a ih => rw [hg.marking a, ih, List.countP_append, List.countP_singleton, Nat.add_assoc]

/-! ## Both together -/

section Agree

variable {gauge : Engine → Nat} {count : Stats → Nat} {kind : Mark → Bool} (hg : Gauges gauge kind)
  (hk : Tallies count kind 0)
include hg hk

/-- In a move by which no call is lost, a gauge grows by what calls in progress count. -/
theorem Run.Move.gauge_eq {r q : Run} {events : List Event} (m : Move r events q)
    (hkept : r.calls.length ≤ q.calls.length) :
    gauge q.session.engine + (r.calls.map fun c => count c.counted).sum =
      gauge r.session.engine + (q.calls.map fun c => count c.counted).sum := by
  cases m with
  | call behaviour request =>
      have htrack := hg.track (Call.track_start r.session behaviour request)
      have hcall := hk.start r.session behaviour request
      rw [ite_self, Nat.zero_add] at hcall
      simp only [List.map_append, List.sum_append, List.map_singleton, List.sum_singleton, hcall, htrack]
      omega
  | step behaviour hstep =>
      rcases step?_cases hstep with ⟨f, rest, _, rfl⟩ | ⟨_, ev, _, rfl⟩
      · -- Results are taken from the floor, which no gauge shows.
        have htrack := hg.track (Run.track_receiveAll (r.session.take rest) behaviour f r.calls)
        have hsession : gauge (r.handOver behaviour f rest).session.engine =
            gauge r.session.engine +
              (Run.marks (r.session.take rest) behaviour f r.calls).countP kind := htrack
        have hcalls : ((r.handOver behaviour f rest).calls.map fun c => count c.counted).sum = _ :=
          hk.receiveAll (r.session.take rest) behaviour f r.calls
        rw [hsession, hcalls]
        omega
      · rfl
  | wait ms => rfl
  | purge => exact congrArg (· + _) (hg.purge _)
  | leave hsub => rw [hsub.eq_of_length_le hkept]

/-- In a run in which no call is lost, a gauge shows what it has shown at first, what calls that are over have
counted, and what those in progress have counted so far. -/
theorem Run.Served.gauge_eq {e : Engine} {past : List Stats} {r : Run} (h : Served e past r) :
    gauge r.session.engine =
      gauge e + (past.map count).sum + (r.calls.map fun c => count c.counted).sum := by
  induction h with
  | start => rfl
  | move _ m hkept ih =>
      have hmove := m.gauge_eq hg hk hkept
      omega
  | report _ hresult ih =>
      rw [ih, Call.counted_of_result? hresult]
      simp only [List.map_append, List.sum_append, List.map_cons, List.sum_cons, List.map_nil,
        List.sum_nil]
      omega

end Agree

/-! ## Look-ups of one call -/

theorem Session.countP_leafMarks (s : Session) (behaviour : Behaviour) (deadline : Nat) (r : Request)
    (leaves : List String) :
    (s.leafMarks behaviour deadline r leaves).countP Mark.isLook = leaves.length ∧
      (s.leafMarks behaviour deadline r leaves).countP Mark.isSeek = 0 := by
  induction leaves generalizing s with
  | nil => exact ⟨rfl, rfl⟩
  | cons leaf rest ih =>
      obtain ⟨hlooks, hseeks⟩ := ih (s.startPlain behaviour deadline (r.withKey leaf)).2
      rw [leafMarks, List.countP_append, List.countP_append, hlooks, hseeks,
        countP_plainMarks Mark.ofLookups_isLook, countP_plainMarks Mark.ofLookups_isSeek]
      exact ⟨Nat.add_comm _ _, rfl⟩

theorem Session.length_branches_enterLeaves (s : Session) (behaviour : Behaviour) (deadline : Nat)
    (r : Request) (leaves : List String) :
    (s.enterLeaves behaviour deadline r leaves).1.branches.length = leaves.length := by
  rw [branches_enterLeaves]
  exact (s.spreads_startLeaves behaviour deadline r leaves).2.2.length_eq.symm

/-- Behind the opening, a call looks one key up for each sub-call, and no query. -/
def Stage.Looked (rest : List Mark) (stage : Stage) : Prop :=
  rest.countP Mark.isLook = stage.branches.length ∧ rest.countP Mark.isSeek = 0

/-- The opening of a call looks the query of a search up, and no key; the entry is for its sub-calls. -/
theorem Session.Enters.looked {s : Session} {behaviour : Behaviour} {deadline : Nat} {r : Request}
    {stage : Stage} {stats : Stats} {opening entry : List Mark}
    (h : s.Enters behaviour deadline r stage stats opening entry) :
    (opening.countP Mark.isLook = 0 ∧
        opening.countP Mark.isSeek = if s.engine.route r = .search then 1 else 0) ∧
      stage.Looked entry := by
  cases h with
  | plain hroute =>
      refine ⟨⟨rfl, by rw [hroute]; rfl⟩, ?_⟩
      exact ⟨countP_plainMarks Mark.ofLookups_isLook s r, countP_plainMarks Mark.ofLookups_isSeek s r⟩
  | completer hroute hsearch => exact ⟨⟨rfl, by rw [hroute]; rfl⟩, rfl, rfl⟩
  | hit hroute hget =>
      obtain ⟨hlooks, hseeks⟩ := (s.searched r.key).countP_leafMarks behaviour deadline r _
      refine ⟨⟨rfl, by rw [hroute]; rfl⟩, hlooks.trans ?_, hseeks⟩
      exact (length_branches_enterLeaves _ _ _ _ _).symm
  | miss hroute hsearch hget => exact ⟨⟨rfl, by rw [hroute]; rfl⟩, rfl, rfl⟩

theorem Stage.Looked.receives {q : Session} {behaviour : Behaviour} {f : Finished Answer}
    {rest marks : List Mark} {c : Call} {stage : Stage} {stats : Stats} (h : c.stage.Looked rest)
    (hr : c.Receives q behaviour f marks stage stats) : stage.Looked (rest ++ marks) := by
  obtain ⟨hlooks, hseeks⟩ := h
  have hquiet : ∀ bs : List Branch, stage.branches.length = c.stage.branches.length →
      stage.Looked (rest ++ bs.flatMap (Branch.marks q.now f)) := by
    intro bs hlength
    rw [Looked, List.countP_append, List.countP_append, countP_branchMarks Mark.ofLookups_isLook,
      countP_branchMarks Mark.ofLookups_isSeek, hlength]
    exact ⟨hlooks, hseeks⟩
  cases hr with
  | idle => exact hquiet [] rfl
  | completed hstage => exact hquiet [] (by rw [hstage]; rfl)
  | failed hstage => exact hquiet [] (by rw [hstage]; rfl)
  | @resolved leaves hstage =>
      obtain ⟨hlooks', hseeks'⟩ := Session.countP_leafMarks (q.resolved c.request.key f) behaviour
        c.deadline c.request leaves
      rw [hstage] at hlooks
      rw [Looked, Session.length_branches_enterLeaves]
      simp only [List.countP_append, countP_keepMarks Mark.ofLookups_isLook,
        countP_keepMarks Mark.ofLookups_isSeek, hlooks, hseeks, hlooks', hseeks']
      exact ⟨(Nat.zero_add _).trans (Nat.zero_add _), trivial⟩
  | @plain b hstage =>
      have hb := hquiet [b] (by rw [hstage]; rfl)
      rwa [List.flatMap_singleton] at hb
  | @leaves bs hstage => exact hquiet bs (by rw [hstage]; exact List.length_map _)

/-- A call looks one key up for each of its sub-calls, and its query if it is a search. -/
theorem Watch.Trail.countP_lookups {may : Session → Nat → Prop} {r : Run} {behaviour : Behaviour}
    {request : Request} {log : List Footprint} {w : Watch}
    (h : Trail may r behaviour request log w) :
    (ownMarks log).countP Mark.isLook = w.call.stage.branches.length ∧
      (ownMarks log).countP Mark.isSeek =
        if r.session.engine.route request = .search then 1 else 0 := by
  obtain ⟨rest, hown, ⟨hlooks, hseeks⟩, hlooks', hseeks'⟩ := h.stage_induction
    (P := fun rest stage _ => ((r.session.opening request).countP Mark.isLook = 0 ∧
        (r.session.opening request).countP Mark.isSeek =
          if r.session.engine.route request = .search then 1 else 0) ∧ stage.Looked rest)
    (fun henter => henter.looked) (fun _ _ ih hreceive => ⟨ih.1, ih.2.receives hreceive⟩)
  rw [hown, List.countP_append, List.countP_append, hlooks, hseeks, hlooks', hseeks']
  exact ⟨Nat.zero_add _, rfl⟩

theorem Session.Enters.exists_plain {s : Session} {behaviour : Behaviour} {deadline : Nat} {r : Request}
    {stage : Stage} {stats : Stats} {opening entry : List Mark}
    (h : s.Enters behaviour deadline r stage stats opening entry) (hroute : s.engine.route r = .plain) :
    ∃ b, stage = .plain b := by
  cases h with
  | plain _ => exact ⟨_, rfl⟩
  | completer hother => exact nomatch hroute.symm.trans hother
  | hit hother => exact nomatch hroute.symm.trans hother
  | miss hother => exact nomatch hroute.symm.trans hother

theorem Call.Receives.exists_plain {q : Session} {behaviour : Behaviour} {f : Finished Answer}
    {marks : List Mark} {c : Call} {stage : Stage} {stats : Stats}
    (h : c.Receives q behaviour f marks stage stats) {b : Branch} (hstage : c.stage = .plain b) :
    ∃ b, stage = .plain b := by
  cases h with
  | idle => exact ⟨b, hstage⟩
  | plain _ => exact ⟨_, rfl⟩
  | completed hother => exact nomatch hstage.symm.trans hother
  | failed hother => exact nomatch hstage.symm.trans hother
  | resolved hother => exact nomatch hstage.symm.trans hother
  | leaves hother => exact nomatch hstage.symm.trans hother

/-- A plain call is its own only sub-call. -/
theorem Watch.Trail.exists_plain {may : Session → Nat → Prop} {r : Run} {behaviour : Behaviour}
    {request : Request} {log : List Footprint} {w : Watch} (h : Trail may r behaviour request log w)
    (hroute : r.session.engine.route request = .plain) : ∃ b, w.call.stage = .plain b := by
  obtain ⟨_, _, hstage⟩ := h.stage_induction (P := fun _ stage _ => ∃ b, stage = .plain b)
    (fun henter => henter.exists_plain hroute)
    (fun _ _ ⟨_, hstage⟩ hreceive => hreceive.exists_plain hstage)
  exact hstage

/-- There are as many sub-calls as leaves. -/
theorem Spreads.length_branches {pool : Pool} {request : Request} {rest : List Deed}
    {resolution : Except CallError (List String)} {stage : Stage}
    (h : Spreads pool request rest resolution stage) :
    stage.branches.length = (resolution.toOption.getD []).length := by
  cases h with
  | failed hrest => rfl
  | nothing hrest => rfl
  | leaves hne hopened hpool hbs => exact hbs.length_eq.symm

/-! ## The counters -/

/-- The counters of the caches agree with what calls have counted that are over, and with what those in
progress have counted so far. -/
structure Session.Agrees (s : Session) (past : List Stats) (calls : List Call) : Prop where
  hits : s.engine.paths.hits =
    (past.map Stats.cacheHits).sum + (calls.map fun c => c.counted.cacheHits).sum
  misses : s.engine.paths.misses =
    (past.map Stats.cacheMisses).sum + (calls.map fun c => c.counted.cacheMisses).sum
  searchHits : s.engine.searches.hits =
    (past.map Stats.searchCacheHits).sum + (calls.map fun c => c.counted.searchCacheHits).sum
  searchMisses : s.engine.searches.misses =
    (past.map Stats.searchCacheMisses).sum + (calls.map fun c => c.counted.searchCacheMisses).sum

/-- The look-ups of a call that has ended, if it started in a session and has done something. -/
structure Stats.LooksUp (s : Session) (request : Request) (own : List Deed) (stats : Stats) : Prop where
  /-- Plain calls look one key up. -/
  plain : s.engine.route request = .plain → stats.cacheHits + stats.cacheMisses = 1
  /-- Infos are plain. -/
  info : request.operation = .info → s.engine.route request = .plain
  /-- Completions look nothing up. -/
  completer : s.engine.route request = .completer → stats.cacheHits + stats.cacheMisses = 0
  /-- Searches look up all leaves to which the query was resolved, if it was. -/
  search : s.engine.route request = .search → ∃ route resolving rest resolution,
    s.engine.search = some route ∧ own = resolving ++ rest ∧
      s.Resolves route (s.now + s.engine.timeouts.globalMs) request.key resolving resolution ∧
      stats.cacheHits + stats.cacheMisses = (resolution.toOption.getD []).length
  /-- Searches look their query up, and nobody else does. -/
  seeks : stats.searchCacheHits + stats.searchCacheMisses =
    if s.engine.route request = .search then 1 else 0
  /-- Whoever is not plain has to do with the search backend, once. -/
  requests : stats.searchRequests = if s.engine.route request = .plain then 0 else 1

/-- The caches of an engine have not counted anything. -/
structure Engine.IsNew (e : Engine) : Prop where
  hits : e.paths.hits = 0
  misses : e.paths.misses = 0
  searchHits : e.searches.hits = 0
  searchMisses : e.searches.misses = 0

theorem Engine.isNew_ofConfig [Idna] {c : Config} {e : Engine} (h : Engine.ofConfig c = .ok e) : e.IsNew := by
  obtain ⟨pool, search, _, _, rfl⟩ := eq_of_ofConfig h
  exact ⟨rfl, rfl, rfl, rfl⟩

theorem Run.Served.agrees {e : Engine} (he : e.IsNew) {past : List Stats} {r : Run}
    (h : Served e past r) : r.session.Agrees past r.calls := by
  constructor
  case hits => rw [h.gauge_eq gauges_pathHits tallies_cacheHits, he.hits, Nat.zero_add]
  case misses => rw [h.gauge_eq gauges_pathMisses tallies_cacheMisses, he.misses, Nat.zero_add]
  case searchHits =>
    rw [h.gauge_eq gauges_searchHits tallies_searchCacheHits, he.searchHits, Nat.zero_add]
  case searchMisses =>
    rw [h.gauge_eq gauges_searchMisses tallies_searchCacheMisses, he.searchMisses, Nat.zero_add]

/-- A call that has ended, in any run, has looked up what its route demands. -/
theorem Watch.Course.looksUp {e : Engine} {log : List Event} {r : Run}
    (hr : Run.Reach ⟨.ofEngine e, []⟩ log r) {may : Session → Nat → Prop} {behaviour : Behaviour}
    {request : Request} {own all : List Deed} {w : Watch}
    (h : Course may r behaviour request own all w) {result : Except CallError CallResult}
    {stats : Stats} (hresult : w.call.result? = some (result, stats)) :
    stats.LooksUp r.session request own := by
  obtain ⟨marks, htrail⟩ := h.trail
  obtain ⟨hlooks, hseeks⟩ := htrail.countP_lookups
  have hstats := Call.counted_of_result? hresult
  have hkeys : stats.cacheHits + stats.cacheMisses = w.call.stage.branches.length := by
    rw [hstats, tallies_cacheHits.trail htrail, tallies_cacheMisses.trail htrail, ite_self, Nat.zero_add,
      Nat.zero_add, ← Mark.countP_isLook, hlooks]
  constructor
  case plain =>
    intro hroute
    obtain ⟨b, hstage⟩ := htrail.exists_plain hroute
    rw [hkeys, hstage]
    rfl
  case info =>
    intro hop
    cases request with
    | info target => rfl
    | find query => cases hop
    | render target since upTo => cases hop
  case completer =>
    intro hroute
    obtain ⟨_, _, hfollows⟩ := htrail.follows
    rw [hkeys, (hfollows.completer hroute).2]
    rfl
  case search =>
    intro hroute
    obtain ⟨route, hsearch⟩ := Engine.exists_search hroute
    rcases h.searches (Run.floor_sound_of_reach hr) hroute hsearch with ⟨_, _, hstage⟩ |
      ⟨resolving, rest, resolution, hown, hresolves, hspreads⟩
    · rw [Call.result?, hstage] at hresult
      cases hresult
    · exact ⟨route, resolving, rest, resolution, hsearch, hown, hresolves,
        hkeys.trans hspreads.length_branches⟩
  case seeks =>
    rw [hstats, tallies_searchCacheHits.trail htrail, tallies_searchCacheMisses.trail htrail, ite_self,
      Nat.zero_add, Nat.zero_add, ← Mark.countP_isSeek, hseeks]
  case requests =>
    rw [hstats, tallies_searchRequests.trail htrail, List.countP_false]
    rfl

/-- In every run of calls on a new engine, in which no call is lost, the counters of both caches agree with
the counters of the calls, those in progress included; after calls that are made at once and run to the end
they agree with what has been reported; and the look-ups of every call that has ended are those which its
route demands, with a result or an error. -/
theorem Run.Served.lookups_agree {e : Engine} (he : e.IsNew) {past : List Stats} {r : Run}
    (h : Served e past r) :
    r.session.Agrees past r.calls ∧
    (∀ behaviour requests, r.calls = [] →
      Served e (past ++ (r.session.run behaviour requests).1.map CallReport.stats)
        ⟨(r.session.run behaviour requests).2, []⟩ ∧
      (r.session.run behaviour requests).2.Agrees
        (past ++ (r.session.run behaviour requests).1.map CallReport.stats) []) ∧
    ∀ {may : Session → Nat → Prop} {behaviour : Behaviour} {request : Request} {own all : List Deed}
      {w : Watch} {result : Except CallError CallResult} {stats : Stats},
      Watch.Course may r behaviour request own all w → w.call.result? = some (result, stats) →
        stats.LooksUp r.session request own := by
  refine ⟨h.agrees he, ?_, ?_⟩
  · intro behaviour requests hcalls
    obtain ⟨session, calls⟩ := r
    cases hcalls
    have hserved := h.run behaviour requests
    exact ⟨hserved, hserved.agrees he⟩
  · intro may behaviour request own all w result stats hcourse hresult
    obtain ⟨log, hr⟩ := h.reach
    exact hcourse.looksUp hr hresult

/-- A search of which both leaves are looked up, and are misses. -/
theorem Run.Served.lookups_agree_seek :
    Seek.engine.IsNew ∧
    ((Session.ofEngine Seek.engine).run Seek.behaviour [.find "s:x"]).2.Agrees
      (((Session.ofEngine Seek.engine).run Seek.behaviour [.find "s:x"]).1.map CallReport.stats) [] ∧
    ∃ own all w result stats,
      Watch.Course Session.Prompt ⟨.ofEngine Seek.engine, []⟩ Seek.behaviour (.find "s:x") own all w ∧
        w.call.result? = some (result, stats) ∧
        (stats.cacheMisses = 2 ∧ stats.searchCacheMisses = 1 ∧ stats.searchRequests = 1) ∧
        stats.LooksUp (.ofEngine Seek.engine) (.find "s:x") own := by
  have hnew : Seek.engine.IsNew := ⟨rfl, rfl, rfl, rfl⟩
  obtain ⟨_, hbatch, hcalls⟩ := lookups_agree hnew .start
  have hstart : Watch.Course Session.Prompt ⟨.ofEngine Seek.engine, []⟩ Seek.behaviour (.find "s:x")
      _ _ _ := .start
  have hcounted : ((Seek.asked.steps Seek.behaviour 8).calls[0]?.bind Call.result?).map
      (fun x => (x.2.cacheMisses, x.2.searchCacheMisses, x.2.searchRequests)) = some (2, 1, 1) := by
    decide +kernel
  obtain ⟨⟨result, stats⟩, hended, hvalues⟩ := Option.map_eq_some_iff.1 hcounted
  obtain ⟨own, all, w, hw, hresult⟩ := hstart.ended_of_steps Seek.behaviour 8 hended
  refine ⟨hnew, (hbatch Seek.behaviour [.find "s:x"] rfl).2, own, all, w, result, stats, hw, hresult, ?_,
    hcalls hw hresult⟩
  obtain ⟨hmisses, hrest⟩ := Prod.mk.inj hvalues
  exact ⟨hmisses, Prod.mk.inj hrest⟩

end MetricFanout
