import MetricFanout.Proofs.Engine.Provenance
import MetricFanout.Proofs.Engine.Traffic
import MetricFanout.Proofs.Failure
import MetricFanout.Proofs.Merge.Render
/-!
# Nothing twice, and nothing made up

No path and no series name comes twice in the result of a call, whatever backends repeat, and everything in
it has been said by a backend: by one that the call itself has asked, or, if the path cache was asked
instead, by one that an earlier find had asked.

## Implementation notes

What the path cache answers is a deed of the call and says nothing about its origin. The history of the run
has an event for every sub-call, with the session in which it was looked up, and what that session recalls
goes back to a find. So deeds are compared with events first, move by move.
-/

namespace MetricFanout

/-! ## Look-ups in the history -/

/-- A sub-call among the events is answered with these matches by the path cache. -/
def Knows (events : List Event) (r : Request) (found : List Match) : Prop :=
  ∃ before s behaviour deadline after, events = before ++ .start s behaviour deadline r :: after ∧
    (s.engine.consult s.now r).1 = .known found

theorem Knows.append_left {events : List Event} {r : Request} {found : List Match}
    (h : Knows events r found) (events' : List Event) : Knows (events' ++ events) r found := by
  obtain ⟨before, s, behaviour, deadline, after, rfl, hfound⟩ := h
  exact ⟨events' ++ before, s, behaviour, deadline, after, (List.append_assoc _ _ _).symm, hfound⟩

theorem Knows.append_right {events : List Event} {r : Request} {found : List Match}
    (h : Knows events r found) (events' : List Event) : Knows (events ++ events') r found := by
  obtain ⟨before, s, behaviour, deadline, after, rfl, hfound⟩ := h
  exact ⟨before, s, behaviour, deadline, after ++ events', List.append_assoc _ _ _, hfound⟩

/-- Whatever the path cache answers among deeds, it answers to a sub-call among the events. -/
def Backed (events : List Event) (deeds : List Deed) : Prop :=
  ∀ r found, .know r found ∈ deeds → Knows events r found

namespace Backed

variable {events events' : List Event} {deeds deeds' : List Deed}

theorem append (h : Backed events deeds) (h' : Backed events' deeds') :
    Backed (events ++ events') (deeds ++ deeds') := by
  intro r found hknow
  cases List.mem_append.1 hknow with
  | inl hknow => exact (h r found hknow).append_right events'
  | inr hknow => exact (h' r found hknow).append_left events

theorem of_quiet (h : ∀ r found, .know r found ∉ deeds) : Backed events deeds :=
  fun r found hknow => absurd hknow (h r found)

theorem nil (events : List Event) : Backed events [] := of_quiet fun _ _ => List.not_mem_nil

theorem ask (events : List Event) (i : Inquiry) : Backed events [.ask i] :=
  of_quiet fun _ _ hknow => nomatch List.mem_singleton.1 hknow

theorem hear (events : List Event) (r : Request) (f : Finished Answer) : Backed events [.hear r f] :=
  of_quiet fun _ _ hknow => nomatch List.mem_singleton.1 hknow

theorem resolveDeeds (events : List Event) (time : Nat) (query : String) (leaves : List String) :
    Backed events (resolveDeeds time query leaves) := by
  cases leaves with
  | nil => exact nil events
  | cons leaf rest => exact of_quiet fun _ _ hknow => nomatch List.mem_singleton.1 hknow

theorem branchDeeds (events : List Event) (f : Finished Answer) (b : Branch) :
    Backed events (b.deeds f) := by
  unfold Branch.deeds
  split
  · split
    · exact hear events _ f
    · exact nil events
  · exact nil events

theorem plainDeeds (s : Session) (behaviour : Behaviour) (deadline : Nat) (r : Request) :
    Backed [.start s behaviour deadline r] (s.plainDeeds deadline r) := by
  unfold Session.plainDeeds
  cases hplan : (s.engine.consult s.now r).1 with
  | ask backends => exact ask _ _
  | known found =>
      intro r' found' hknow
      cases List.mem_singleton.1 hknow
      exact ⟨[], s, behaviour, deadline, [], rfl, hplan⟩

theorem leafDeeds (s : Session) (behaviour : Behaviour) (deadline : Nat) (r : Request)
    (leaves : List String) : Backed (s.leafEvents behaviour deadline r leaves)
      (s.leafDeeds behaviour deadline r leaves) := by
  induction leaves generalizing s with
  | nil => exact nil _
  | cons leaf rest ih => exact (plainDeeds s behaviour deadline (r.withKey leaf)).append (ih _)

theorem enterDeeds (s : Session) (behaviour : Behaviour) (deadline : Nat) (r : Request) :
    Backed (s.enterEvents behaviour deadline r) (s.enterDeeds behaviour deadline r) := by
  have hplain := plainDeeds s behaviour deadline r
  unfold Session.enterEvents Session.enterDeeds
  cases s.engine.route r with
  | plain => exact hplain
  | completer =>
      cases s.engine.search with
      | none => exact hplain
      | some route => exact ask _ _
  | search =>
      cases s.engine.search with
      | none => exact hplain
      | some route =>
          dsimp only
          cases (s.engine.consultSearch s.now r.key).1 with
          | none => exact ask _ _
          | some leaves => exact leafDeeds (s.searched r.key) behaviour deadline r leaves

/-- A gathering is handed to a call. -/
theorem receive (s : Session) (behaviour : Behaviour) (f : Finished Answer) (c : Call) :
    Backed (c.receiveEvents s behaviour f) (c.deeds s behaviour f) := by
  unfold Call.receiveEvents Call.deeds
  cases c.stage with
  | completing id =>
      dsimp only
      split
      · exact hear _ _ f
      · exact nil _
  | resolving id =>
      dsimp only
      split
      · cases (s.engine.resolve s.now c.request.key f.replies).1 with
        | error err => exact hear _ _ f
        | ok leaves =>
            have hleaves := leafDeeds (s.resolved c.request.key f) behaviour c.deadline c.request leaves
            have hresolve := resolveDeeds [] s.now c.request.key leaves
            exact (hear [] _ f).append (hresolve.append hleaves)
      · exact nil _
  | plain b => exact branchDeeds _ f b
  | leaves bs =>
      refine of_quiet fun r found hknow => ?_
      obtain ⟨b, _, hb⟩ := List.mem_flatMap.1 hknow
      obtain ⟨before, _, _, _, _, hnothing, _⟩ := branchDeeds [] f b r found hb
      cases before <;> cases hnothing
  | ended result => exact nil _

end Backed

namespace Watch

variable {may : Session → Nat → Prop} {r : Run} {behaviour : Behaviour} {request : Request}
  {own own' all all' : List Deed} {w v : Watch}

/-- What the watched call does is backed by a move of the run. -/
theorem Move.run_move (m : Move may w own all v) :
    ∃ events, Run.Move w.run events v.run ∧ Backed events own := by
  cases m with
  | call later request =>
      have hcall := Run.Move.call w.run later request
      simp only [run, List.append_assoc, List.cons_append] at hcall
      exact ⟨_, hcall, .nil _⟩
  | @handOver later f rest hfinished =>
      have hstep : w.run.step? later = some (w.handOver later f rest).run := by
        have hfinished' : w.run.session.floor.finished = f :: rest := hfinished
        rw [Run.step?, hfinished', run_handOver]
      refine ⟨_, .step later hstep, ?_⟩
      have hevents : w.run.stepEvents later =
          Run.receiveAllEvents (w.session.take rest) later f w.before ++
            (w.call.receiveEvents (w.midway later f rest) later f ++
              Run.receiveAllEvents (w.call.receive (w.midway later f rest) later f).2 later f
                w.after) := by
        have hfinished' : w.run.session.floor.finished = f :: rest := hfinished
        rw [Run.stepEvents, hfinished']
        exact Run.receiveAllEvents_append _ _ _ _ _
      rw [hevents]
      intro r found hknow
      have hcall := Backed.receive (w.midway later f rest) later f w.call r found hknow
      exact (hcall.append_right _).append_left _
  | @happen later e hfinished hnext =>
      have hstep : w.run.step? later = some (w.happen later e).run := by
        have hfinished' : w.run.session.floor.finished = [] := hfinished
        have hnext' : w.run.session.floor.next? later.network = some e := hnext
        rw [Run.step?, hfinished']
        simp only [hnext', Option.map_some]
        rfl
      exact ⟨_, .step later hstep, .nil _⟩
  | wait h => exact ⟨[], .wait w.run _, .nil _⟩
  | purge => exact ⟨[], .purge w.run, .nil _⟩
  | leave hbefore hafter =>
      exact ⟨[], .leave (hbefore.append (hafter.cons_cons w.call)), .nil _⟩

/-- A watched call is part of a run that goes on, and what it does is backed by the history. -/
theorem Course.reach {start : Run} {log : List Event} (hr : Run.Reach start log r)
    (h : Course may r behaviour request own all w) :
    ∃ future, Run.Reach start (log ++ future) w.run ∧ Backed (log ++ future) own := by
  induction h with
  | start =>
      have hstart := Backed.enterDeeds r.session behaviour
        (r.session.now + r.session.engine.timeouts.globalMs) request
      exact ⟨_, hr.move (.call r behaviour request), (Backed.nil log).append hstart⟩
  | move _ m ih =>
      obtain ⟨future, hreach, hbacked⟩ := ih
      obtain ⟨events, hmove, hevents⟩ := m.run_move
      refine ⟨future ++ events, ?_, ?_⟩
      · rw [← List.append_assoc]
        exact hreach.move hmove
      · rw [← List.append_assoc]
        exact hbacked.append hevents

end Watch

/-! ## What backends have said -/

theorem FindMerge.reported {replies : List (Reply (List Match))} {x : Match}
    (h : x ∈ (merged replies).found) : Reported replies x := by
  obtain ⟨reply, hreply, hx⟩ := exists_reply_of_mem_found h
  exact reported_iff.2 (List.mem_flatMap.2 ⟨reply, hreply, hx⟩)

/-- A series is the merge of all its copies in the answers, of which there are some. -/
def Series.Merges (replies : List (Reply (List Series))) (s : Series) : Prop :=
  ∃ base later, (answeredSeries replies).filter (fun c => c.name == s.name) = base :: later ∧
    (∀ c ∈ base :: later, Reported replies c) ∧ IsMerge base later s

/-- A merged render has no name twice, and nothing in it that is no merge of copies. -/
theorem Series.merges_of_mergeRender {replies : List (Reply (List Series))} {merged : List Series}
    (h : mergeRender replies = .ok merged) :
    (merged.map Series.name).Nodup ∧ ∀ s ∈ merged, s.Merges replies := by
  rw [mergeRender] at h
  split at h
  · cases h
    constructor
    · rw [Copies.names_map_merge]
      exact Distinct.nodup_eraseDups _
    · intro s hs
      obtain ⟨base, later, hcopies, hmerge, _⟩ := Copies.exists_of_mem_merged hs
      refine ⟨base, later, hcopies, fun copy hcopy => ?_, hmerge⟩
      rw [← hcopies] at hcopy
      exact reported_iff.2 (List.mem_filter.1 hcopy).1
  · cases h

/-- Whoever is asked for what a call returns: the search backend for a completion, and otherwise the pool. -/
def Engine.sources (e : Engine) (request : Request) : List Backend :=
  match e.route request, e.search with
  | .completer, some route => [route.backend]
  | _, _ => e.pool.backends

/-- By these deeds a request was put to some of the backends, and these are the replies, one of each that was
asked. -/
def Answered (backends : List Backend) (deeds : List Deed) (r : Request) (replies : List (Reply Answer)) :
    Prop :=
  ∃ i f, .ask i ∈ deeds ∧ i.request = r ∧ i.backends ⊆ backends ∧
    .hear r f ∈ deeds ∧ f.gather = i.gather ∧ f.replies = replies ∧
    (replies.map Reply.backend).Perm (i.backends.map Backend.identity)

/-- Where a match in the result of a call comes from. -/
inductive Match.Stems (e : Engine) (request : Request) (deeds : List Deed) (history : List Event)
    (m : Match) : Prop where
  /-- A backend that was asked by the call. -/
  | heard {query : String} {replies : List (Reply Answer)}
      (h : Answered (e.sources request) deeds (.find query) replies)
      (hm : Reported (replies.map (Reply.map Answer.found?)) m)
  /-- The path cache. A find that had been put to the whole pool and was over before had the match from one of
  the replies. -/
  | known {query : String} {found : List Match} {before between after : List Event} {d : Harvest}
      {s : Session} {behaviour : Behaviour} {deadline : Nat} (h : .know (.find query) found ∈ deeds)
      (hfound : m ∈ found) (hstart : history =
        before ++ .harvest d :: between ++ .start s behaviour deadline (.find query) :: after)
      (hknown : (s.engine.consult s.now (.find query)).1 = .known found)
      (hd : d.Follows e.pool before) (hm : Reported d.replies m)

/-- A series in the result of a call comes from backends that were asked by the call: it is the merge of its
copies in the replies about some key. -/
def Series.Stems (e : Engine) (request : Request) (deeds : List Deed) (s : Series) : Prop :=
  ∃ key replies, Answered (e.sources request) deeds (request.withKey key) replies ∧
    s.Merges (replies.map (Reply.map Answer.fetched?))

/-- A result of an operation without repetitions, everything in which has been said by a backend. -/
inductive CallResult.Genuine (e : Engine) (request : Request) (deeds : List Deed) (history : List Event) :
    Operation → CallResult → Prop where
  | found {ms : List Match} (hnodup : (ms.map Match.path).Nodup)
      (h : ∀ m ∈ ms, m.Stems e request deeds history) : Genuine e request deeds history .find (.found ms)
  | fetched {ss : List Series} (hnodup : (ss.map Series.name).Nodup)
      (h : ∀ s ∈ ss, s.Stems e request deeds) : Genuine e request deeds history .render (.fetched ss)
  | described (is : List (String × StorageInfo)) : Genuine e request deeds history .info (.described is)

namespace CallResult.Genuine

variable {e : Engine} {request : Request} {deeds : List Deed} {history : List Event}

/-- Replies are merged. -/
theorem of_conclusion {key : String} {replies : List (Reply Answer)}
    (h : Answered (e.sources request) deeds (request.withKey key) replies) {result : CallResult}
    (hresult : (request.withKey key).conclusion replies = .ok result) :
    result.Genuine e request deeds history request.operation := by
  cases request with
  | find query =>
      obtain ⟨m, hm, rfl⟩ := exists_of_map_ok hresult
      rw [FindMerge.merged_of_mergeFind hm]
      exact .found (FindMerge.nodup_found _) fun x hx => .heard h (FindMerge.reported hx)
  | render target since upTo =>
      obtain ⟨merged, hm, rfl⟩ := exists_of_map_ok hresult
      obtain ⟨hnodup, hmerges⟩ := Series.merges_of_mergeRender hm
      exact .fetched hnodup fun s hs => ⟨key, replies, h, hmerges s hs⟩
  | info target =>
      obtain ⟨is, _, rfl⟩ := exists_of_map_ok hresult
      exact .described is

theorem empty (e : Engine) (request : Request) (deeds : List Deed) (history : List Event)
    (op : Operation) : (CallResult.empty op).Genuine e request deeds history op := by
  cases op with
  | find => exact .found List.nodup_nil fun m hm => absurd hm List.not_mem_nil
  | render => exact .fetched List.nodup_nil fun s hs => absurd hs List.not_mem_nil
  | info => exact .described []

end CallResult.Genuine

/-- Genuine results of sub-calls are united. -/
theorem CallResult.Genuine.unite {e : Engine} {request : Request} {deeds : List Deed}
    {history : List Event} {op : Operation} {results : List (Except CallError CallResult)}
    (h : ∀ x, .ok x ∈ results → x.Genuine e request deeds history op) {result : CallResult}
    (hresult : CallResult.unite op results = .ok result) : result.Genuine e request deeds history op := by
  have hparts : ∀ x ∈ results.filterMap Except.toOption, x.Genuine e request deeds history op := by
    intro x hx
    obtain ⟨part, hpart, hx⟩ := List.mem_filterMap.1 hx
    cases part with
    | error err => cases hx
    | ok y =>
        cases hx
        exact h x hpart
  unfold CallResult.unite at hresult
  generalize results.filterMap Except.toOption = parts at hparts hresult
  split at hresult
  · cases hresult
  · cases hresult
    refine .found (nodup_keys_firsts _) fun m hm => ?_
    obtain ⟨x, hx, hmx⟩ := List.mem_flatMap.1 (firsts_subset _ hm)
    cases hparts x hx with
    | found _ hstems => exact hstems m hmx
  · cases hresult
    refine .fetched (nodup_keys_firsts _) fun s hs => ?_
    obtain ⟨x, hx, hsx⟩ := List.mem_flatMap.1 (firsts_subset _ hs)
    cases hparts x hx with
    | fetched _ hstems => exact hstems s hsx
  · cases hresult
    exact .described _

/-! ## Results of sub-calls -/

/-- What a find stores was reported to it. -/
theorem Harvest.Stores.reported {d : Harvest} {key : String} {entry : CachedFind} (h : d.Stores key entry)
    {m : Match} (hm : m ∈ entry.found) : Reported d.replies m := by
  cases h with
  | query hmerge hfound =>
      rw [FindMerge.merged_of_mergeFind hmerge] at hm
      exact FindMerge.reported hm
  | path hmerge hx hne =>
      rw [FindMerge.merged_of_mergeFind hmerge] at hx
      rw [List.mem_singleton.1 hm]
      exact FindMerge.reported hx

/-- What the path cache answers to a sub-call was reported to a find before. -/
theorem Run.reported_of_known [Idna] {c : Config} {e : Engine} (he : Engine.ofConfig c = .ok e) {log : List Event}
    {r : Run} (h : Reach ⟨.ofEngine e, []⟩ log r) {past later : List Event} {s : Session}
    {behaviour : Behaviour} {deadline : Nat} {req : Request}
    (hlog : log = past ++ .start s behaviour deadline req :: later) {found : List Match}
    (hknown : (s.engine.consult s.now req).1 = .known found) :
    req.operation = .find ∧ (found.map Match.path).Nodup ∧ ∃ before d between,
      past = before ++ .harvest d :: between ∧ d.Follows e.pool before ∧
      ∀ m ∈ found, Reported d.replies m := by
  obtain ⟨hpool, asks, hsound, _⟩ := sound_of_reach he h
  have hs : s.Recalls e past := hsound.fitting past _ later hlog
  have hfitting : Fitting e past := (hlog ▸ hsound.fitting).of_append
  obtain ⟨entry, hget, rfl, hfind⟩ := Engine.consult_of_known hknown
  refine ⟨hfind, (hs.isFrom_of_get hget).paths, ?_⟩
  rw [TtlCache.get_eq_peek, hs.peek s.now (Nat.le_refl _)] at hget
  obtain ⟨before, d, between, hpast, hstores, _⟩ := (hfitting.recollect_eq_some_iff hpool).1 hget
  exact ⟨before, d, between, hpast, hfitting before _ between hpast, fun m hm => hstores.reported hm⟩

/-- How a call comes to its result: it is that of its only sub-call or a union of those of several ones,
unless there are none. -/
inductive Combines (deeds : List Deed) (request : Request) : Except CallError CallResult → Prop where
  | single {outcome : Except CallError CallResult} (key : String)
      (h : SubResult deeds (request.withKey key) outcome) : Combines deeds request outcome
  | failed (err : CallError) : Combines deeds request (.error err)
  | nothing : Combines deeds request (.ok (.empty request.operation))
  | united {results : List (Except CallError CallResult)}
      (h : ∀ part ∈ results, ∃ key, SubResult deeds (request.withKey key) part) :
      Combines deeds request (CallResult.unite request.operation results)

/-- A search that has ended, and whom its sub-calls have asked. -/
theorem Spreads.combines {pool : Pool} {request : Request} {rest : List Deed}
    {resolution : Except CallError (List String)} {c : Call}
    (h : Spreads pool request rest resolution c.stage) (hrequest : c.request = request)
    {outcome : Except CallError CallResult} {stats : Stats}
    (hresult : c.result? = some (outcome, stats)) :
    (∀ i ∈ asked rest, i.backends ⊆ pool.backends) ∧ Combines rest request outcome := by
  obtain ⟨hfailed, hnothing, hleaves⟩ := h.result hrequest hresult
  cases resolution with
  | error err =>
      obtain ⟨rfl, rfl⟩ := hfailed err rfl
      exact ⟨fun i hi => absurd hi List.not_mem_nil, .failed err⟩
  | ok leaves =>
      by_cases hempty : leaves = []
      · obtain ⟨rfl, rfl⟩ := hnothing (congrArg Except.ok hempty)
        exact ⟨fun i hi => absurd hi List.not_mem_nil, .nothing⟩
      · obtain ⟨_, hpool, results, hresults, rfl⟩ := hleaves leaves rfl hempty
        refine ⟨hpool, .united fun part hpart => ?_⟩
        obtain ⟨n, hn, rfl⟩ := List.mem_iff_getElem.1 hpart
        have hlength := hresults.length_eq
        exact ⟨_, hresults.get (hlength ▸ hn) hn⟩

namespace Watch

variable {may : Session → Nat → Prop} {r : Run} {behaviour : Behaviour} {request : Request}
  {own all : List Deed} {w : Watch}

/-- A plain call asks the pool, and does what a single sub-call does. -/
theorem Course.tells (h : Course may r behaviour request own all w)
    (hroute : r.session.engine.route request = .plain) :
    (∀ i ∈ asked own, i.backends ⊆ r.session.engine.pool.backends) ∧
      ∃ b, w.call.stage = .plain b ∧ b.Tells own request := by
  induction h with
  | start =>
      have hdeeds : r.session.startDeeds behaviour request = r.session.plainDeeds
          (r.session.now + r.session.engine.timeouts.globalMs) request := by
        simp only [Session.startDeeds, Session.enterDeeds, hroute]
      have hstage : (Watch.start r behaviour request).call.stage = _ := Call.stage_stamp _ _
      simp only [hroute] at hstage
      rw [hdeeds]
      exact ⟨fun i hi => r.session.backends_plainDeeds _ request hi, _, hstage,
        r.session.tells_startPlain behaviour _ request⟩
  | @move own own' all all' w v h m ih =>
      obtain ⟨hpool, b, hstage, htells⟩ := ih
      rcases m.call_cases with ⟨hcall, rfl⟩ | ⟨later, f, rest, _, rfl, rfl⟩
      · rw [hcall, List.append_nil]
        exact ⟨hpool, b, hstage, htells⟩
      · have hdeeds : w.call.deeds (w.midway later f rest) later f = b.deeds f := by
          simp only [Call.deeds, hstage]
        refine ⟨?_, (b.receive (w.midway later f rest) f).1, ?_, ?_⟩
        · rw [hdeeds, asked_append, Branch.asked_deeds, List.append_nil]
          exact hpool
        · simp only [handOver, Call.receive, hstage, Call.stage_stamp]
        · rw [hdeeds]
          exact htells.receive _ f (List.Subset.refl _)

/-- The result of a call that is watched, and whom its sub-calls have asked. -/
theorem Course.combines (h : Course may r behaviour request own all w)
    (hfloor : ∃ asks, r.session.floor.Sound asks r.session.nextGather)
    {outcome : Except CallError CallResult} {stats : Stats}
    (hresult : w.call.result? = some (outcome, stats)) : ∃ deeds ⊆ own,
      (∀ i ∈ asked deeds, i.backends ⊆ r.session.engine.sources request) ∧
      Combines deeds request outcome := by
  cases hroute : r.session.engine.route request with
  | plain =>
      obtain ⟨hpool, b, hstage, htells⟩ := h.tells hroute
      rw [Call.result?, hstage] at hresult
      simp only [Engine.sources, hroute]
      cases b with
      | waiting r' id stats' => cases hresult
      | done outcome' stats' =>
          cases hresult
          rw [← request.withKey_key] at htells
          exact ⟨own, List.Subset.refl _, hpool, .single _ htells⟩
  | completer =>
      obtain ⟨route, hsearch⟩ := Engine.search_of_route (by rw [hroute]; decide)
      have hfind := ((r.session.engine.routes.completer request).1 hroute).1
      simp only [Engine.sources, hroute, hsearch]
      rcases h.completes hfloor hroute hsearch with ⟨_, hstage⟩ |
        ⟨f, reply, rfl, hgather, hreplies, _, hstage⟩
      · rw [Call.result?, hstage] at hresult
        cases hresult
      · rw [Call.result?, hstage, ← hreplies] at hresult
        cases hresult
        -- What a completion returns is what a sub-call about the whole query would conclude.
        refine ⟨_, List.Subset.refl _, ?_, .single request.key ?_⟩
        · intro i hi
          rw [List.mem_singleton.1 hi]
          exact List.Subset.refl _
        · cases request with
          | find query =>
              exact .heard List.mem_cons_self rfl (List.mem_cons_of_mem _ List.mem_cons_self) hgather
          | render _ _ _ => cases hfind
          | info _ => cases hfind
  | search =>
      obtain ⟨route, hsearch⟩ := Engine.exists_search hroute
      simp only [Engine.sources, hroute]
      rcases h.searches hfloor hroute hsearch with ⟨_, _, hstage⟩ |
        ⟨resolving, rest, resolution, rfl, _, hspreads⟩
      · rw [Call.result?, hstage] at hresult
        cases hresult
      exact ⟨rest, List.subset_append_right _ _, hspreads.combines h.request_eq hresult⟩

/-- The result of a sub-call of a watched call. -/
theorem Course.genuine_sub [Idna] {c : Config} {e : Engine} (he : Engine.ofConfig c = .ok e) {log : List Event}
    (hr : Run.Reach ⟨.ofEngine e, []⟩ log r) (h : Course may r behaviour request own all w)
    {history : List Event} (hreach : Run.Reach ⟨.ofEngine e, []⟩ history w.run)
    (hbacked : Backed history own) {deeds : List Deed} (hdeeds : deeds ⊆ own)
    (hsources : ∀ i ∈ asked deeds, i.backends ⊆ r.session.engine.sources request) {key : String}
    {result : CallResult} (hresult : SubResult deeds (request.withKey key) (.ok result)) :
    result.Genuine r.session.engine request own history request.operation := by
  generalize houtcome : Except.ok result = outcome at hresult
  cases hresult with
  | @known found hknow =>
      cases houtcome
      -- The look-up is in the history, and the find that answers it was over before.
      obtain ⟨past, s, behaviour', deadline, later, hhistory, hknown⟩ := hbacked _ found (hdeeds hknow)
      obtain ⟨hfind, hnodup, before, d, between, rfl, hfollows, hreported⟩ :=
        Run.reported_of_known he hreach hhistory hknown
      rw [← Run.pool_of_reach hr] at hfollows
      cases request with
      | find query =>
          refine .found hnodup fun m hm => ?_
          exact .known (hdeeds hknow) hm hhistory hknown hfollows (hreported m hm)
      | render _ _ _ => cases hfind
      | info _ => cases hfind
  | @heard i f hi hreq hf hgather =>
      obtain ⟨asks, hsound⟩ := Run.floor_sound_of_reach hr
      obtain ⟨asks', haccounts⟩ := h.accounts hsound
      have hreport : (request.withKey key, f) ∈ heard own := List.mem_filterMap.2 ⟨_, hdeeds hf, rfl⟩
      have hreplies := haccounts.replies (mem_asked.2 (hdeeds hi)) hreport hgather
      refine .of_conclusion ?_ houtcome.symm
      exact ⟨i, f, hdeeds hi, hreq, hsources i (mem_asked.2 hi), hdeeds hf, hgather, rfl, hreplies⟩

/-- The result of a call of an engine that has just been built, in any run and with anything in the caches:
a find returns no path twice, a render returns no name twice, and whatever is returned was said by a backend
in a reply to this call or, if the path cache had it, in a reply to an earlier find. -/
theorem Course.genuine [Idna] {c : Config} {e : Engine} (he : Engine.ofConfig c = .ok e) {log : List Event}
    (hr : Run.Reach ⟨.ofEngine e, []⟩ log r) (h : Course may r behaviour request own all w)
    {result : CallResult} {stats : Stats} (hresult : w.call.result? = some (.ok result, stats)) :
    ∃ future, Run.Reach ⟨.ofEngine e, []⟩ (log ++ future) w.run ∧
      result.Genuine r.session.engine request own (log ++ future) request.operation := by
  obtain ⟨future, hreach, hbacked⟩ := h.reach hr
  obtain ⟨deeds, hdeeds, hsources, hcombines⟩ := h.combines (Run.floor_sound_of_reach hr) hresult
  refine ⟨future, hreach, ?_⟩
  generalize houtcome : Except.ok result = outcome at hcombines
  cases hcombines with
  | single key hsub =>
      rw [← houtcome] at hsub
      exact h.genuine_sub he hr hreach hbacked hdeeds hsources hsub
  | failed err => cases houtcome
  | nothing =>
      cases houtcome
      exact .empty _ _ _ _ _
  | united hparts =>
      refine .unite (fun x hx => ?_) houtcome.symm
      obtain ⟨key, hsub⟩ := hparts _ hx
      exact h.genuine_sub he hr hreach hbacked hdeeds hsources hsub

open Program

/-- A find that the path cache answers. -/
theorem Course.genuine_pair : ∃ log own all w result stats,
    Run.Reach ⟨.ofEngine Pair.engine, []⟩ log Pair.found ∧
      Course Session.Prompt Pair.found Pair.behaviour (.find "a") own all w ∧
      w.call.result? = some (.ok result, stats) ∧ result.found? = [⟨"a", true⟩] ∧
      ∃ future, result.Genuine Pair.found.session.engine (.find "a") own (log ++ future) .find := by
  obtain ⟨log, hfound⟩ := Pair.reach_found
  have hstart : Course Session.Prompt Pair.found Pair.behaviour (.find "a") _ _ _ := .start
  have hvalue : (Watch.start Pair.found Pair.behaviour (.find "a")).call.result?.map
      (fun x => x.1.toOption.map CallResult.found?) = some (some [⟨"a", true⟩]) := by decide +kernel
  obtain ⟨⟨outcome, stats⟩, hended, houtcome⟩ := Option.map_eq_some_iff.1 hvalue
  cases outcome with
  | error err => cases houtcome
  | ok result =>
      obtain ⟨future, _, hgenuine⟩ := hstart.genuine Pair.ofConfig_config hfound hended
      exact ⟨log, _, _, _, result, stats, hfound, hstart, hended, Option.some.inj houtcome, future,
        hgenuine⟩

end Watch

end MetricFanout
