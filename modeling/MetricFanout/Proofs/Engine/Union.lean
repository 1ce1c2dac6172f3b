import Mathlib.Data.List.Forall2
import MetricFanout.Proofs.Engine.Leaves
import MetricFanout.Proofs.Merge.Firsts
/-!
# Searches are unions of their leaves

A search is resolved to leaves, from the search cache or by asking the search backend, and a plain sub-call
is made for each leaf. Its result is the union of those of the sub-calls, in the order of leaves.

The deeds of a search split into a first part, which resolves the query, and a second part, which belongs to
the sub-calls. `Resolves` says what the first part can be, `Spreads` how the second one fits the leaves. The
search backend decides by its first mention of a path whether the path is a leaf.
-/

namespace MetricFanout

/-! ## Resolving -/

/-- The leaves in a reply of the search backend: the paths that are leaves when they are first mentioned. A
backend that does not know the query leaves nothing, and other failures are those of a find. -/
def Reply.leaves (reply : Reply Answer) : Except CallError (List String) :=
  match reply.outcome with
  | .ok answer => .ok (((firsts answer.found?).filter Match.isLeaf).map Match.path)
  | .error .notFound => .ok []
  | .error _ => .error (.allBackendsFailed .find)

/-- What is a leaf when it is first mentioned may not be one later. -/
example : Reply.leaves ⟨"s", .ok (.found [⟨"a", false⟩, ⟨"b", true⟩, ⟨"a", true⟩]), 0⟩ = .ok ["b"] := rfl

/-- In a reply that does not contradict itself, the leaves are the paths of all matches that are leaves,
each path once. -/
theorem Reply.leaves_of_consistent {backend : String} {answer : Answer} {elapsed : Nat}
    (h : ∀ a ∈ answer.found?, ∀ b ∈ answer.found?, a.path = b.path → a.isLeaf = b.isLeaf) :
    Reply.leaves ⟨backend, .ok answer, elapsed⟩ =
      .ok ((answer.found?.filter Match.isLeaf).map Match.path).eraseDups := by
  have hkeys := map_key_firsts (answer.found?.filter Match.isLeaf)
  rw [firsts_filter h] at hkeys
  exact congrArg _ hkeys

theorem Engine.resolution_singleton (reply : Reply Answer) : resolution [reply] = reply.leaves := by
  obtain ⟨backend, outcome, elapsed⟩ := reply
  cases outcome with
  | ok answer =>
      have hfound := FindMerge.found_merged [Reply.map Answer.found? ⟨backend, .ok answer, elapsed⟩]
      have hmerge : mergeFind [Reply.map Answer.found? ⟨backend, .ok answer, elapsed⟩] =
          .ok (FindMerge.merged [Reply.map Answer.found? ⟨backend, .ok answer, elapsed⟩]) := rfl
      simp only [resolution, List.map_cons, List.map_nil, hmerge, hfound, List.flatMap_singleton]
      rfl
  | error f => cases f <;> rfl

/-- Leaves that are known after a resolution have been remembered. -/
def rememberDeeds (time : Nat) (query : String) : Except CallError (List String) → List Deed
  | .ok leaves => resolveDeeds time query leaves
  | .error _ => []

/-- How a search query is resolved by a call that starts in a session, and what is done for it. -/
inductive Session.Resolves (s : Session) (route : SearchRoute Backend) (deadline : Nat)
    (query : String) : List Deed → Except CallError (List String) → Prop where
  /-- The search cache has the leaves. -/
  | hit {leaves : List String} (h : (s.engine.searches.get s.now query).1 = some leaves) :
      Resolves s route deadline query [] (.ok leaves)
  /-- The search backend alone is asked. -/
  | miss {time : Nat} {f : Finished Answer} {reply : Reply Answer}
      (h : (s.engine.searches.get s.now query).1 = none) (hgather : f.gather = s.nextGather)
      (hreplies : f.replies = [reply]) (hbackend : reply.backend = route.backend.identity) :
      Resolves s route deadline query
        (.ask (s.searchInquiry deadline route query) :: .hear (.find query) f ::
          rememberDeeds time query reply.leaves) reply.leaves

/-! ## Sub-calls -/

/-- How a sub-call gets its result: the path cache answers, or backends are asked and their replies are
merged. -/
inductive SubResult (deeds : List Deed) (r : Request) : Except CallError CallResult → Prop where
  | known {found : List Match} (h : .know r found ∈ deeds) : SubResult deeds r (.ok (.found found))
  | heard {i : Inquiry} {f : Finished Answer} (hi : .ask i ∈ deeds) (hr : i.request = r)
      (hf : .hear r f ∈ deeds) (hid : f.gather = i.gather) :
      SubResult deeds r (r.conclusion f.replies)

/-- What a sub-call has done so far. -/
def Branch.Tells (deeds : List Deed) (r : Request) : Branch → Prop
  | .waiting r' id _ => r' = r ∧ ∃ i, .ask i ∈ deeds ∧ i.request = r ∧ i.gather = id
  | .done result _ => SubResult deeds r result

/-- The result of a search out of those of its sub-calls: without a success it is an error, and otherwise
it has the first ones of all that they found. -/
def CallResult.unite (op : Operation) (results : List (Except CallError CallResult)) :
    Except CallError CallResult :=
  match results.filterMap Except.toOption, op with
  | [], op => .error (.allBackendsFailed op)
  | successes, .find => .ok (.found (firsts (successes.flatMap found?)))
  | successes, .render => .ok (.fetched (firsts (successes.flatMap fetched?)))
  | successes, .info => .ok (.described (successes.flatMap described?))

theorem CallResult.join_eq_unite (op : Operation) (results : List (Except CallError CallResult)) :
    join op results = unite op results := by
  unfold join unite
  cases results.filterMap Except.toOption with
  | nil => rfl
  | cons success rest =>
      cases op <;> simp only [union_eq, List.flatMap_def] <;> rfl

/-- A union fails exactly if all its parts do. -/
theorem CallResult.unite_eq_error_iff (op : Operation) (results : List (Except CallError CallResult)) :
    unite op results = .error (.allBackendsFailed op) ↔ ∀ result ∈ results, ∃ err, result = .error err := by
  have hnone : results.filterMap Except.toOption = [] ↔
      ∀ result ∈ results, ∃ err, result = .error err := by
    rw [List.filterMap_eq_nil_iff]
    refine forall₂_congr fun result _ => ?_
    cases result <;> simp [Except.toOption]
  rw [← hnone]
  unfold unite
  cases results.filterMap Except.toOption with
  | nil => simp
  | cons success rest => cases op <;> simp

namespace Branch

variable {deeds deeds' : List Deed} {r : Request} {b : Branch}

theorem Tells.mono (h : b.Tells deeds r) (hsub : deeds ⊆ deeds') : b.Tells deeds' r := by
  cases b with
  | waiting r' id stats =>
      obtain ⟨hr, i, hi, hrequest, hid⟩ := h
      exact ⟨hr, i, hsub hi, hrequest, hid⟩
  | done result stats =>
      cases h with
      | known h => exact .known (hsub h)
      | heard hi hr hf hid => exact .heard (hsub hi) hr (hsub hf) hid

theorem Tells.receive (h : b.Tells deeds r) (s : Session) (f : Finished Answer)
    (hsub : deeds ++ b.deeds f ⊆ deeds') : (b.receive s f).1.Tells deeds' r := by
  have hkeep := h.mono (List.append_subset.1 hsub).1
  cases b with
  | done result stats => exact hkeep
  | waiting r' id stats =>
      by_cases hid : id = f.gather
      · obtain ⟨rfl, i, hi, hrequest, hgather⟩ := hkeep
        have hf : .hear r' f ∈ deeds' := by
          apply hsub
          apply List.mem_append_right
          simp [Branch.deeds, hid]
        simp only [Branch.receive, if_pos hid, Tells, Engine.conclude_fst]
        exact .heard hi hrequest hf (hid ▸ hgather.symm)
      · simp only [Branch.receive, if_neg hid]
        exact hkeep

theorem opened_deeds (f : Finished Answer) (b : Branch) : opened (b.deeds f) = [] := by
  unfold Branch.deeds
  split
  · split <;> rfl
  · rfl

theorem opened_deedsAll (f : Finished Answer) (bs : List Branch) :
    opened (bs.flatMap (Branch.deeds f)) = [] := by
  induction bs with
  | nil => rfl
  | cons b rest ih => rw [List.flatMap_cons, opened_append, opened_deeds, ih]; rfl

end Branch

namespace Session

/-- Whoever is asked by a plain call belongs to the pool. -/
theorem backends_consult (s : Session) (r : Request) {backends : List Backend}
    (h : (s.engine.consult s.now r).1 = .ask backends) : backends ⊆ s.engine.pool.backends := by
  have hselect : ∀ identities, s.engine.pool.select identities ⊆ s.engine.pool.backends := by
    intro identities
    unfold Pool.select
    dsimp only
    split
    · exact List.Subset.refl _
    · exact List.filter_sublist.subset
  unfold Engine.consult at h
  dsimp only at h
  split at h
  · cases h
    exact List.Subset.refl _
  · cases h
  · cases h
    exact hselect _

theorem backends_plainDeeds (s : Session) (deadline : Nat) (r : Request) {i : Inquiry}
    (hi : i ∈ asked (s.plainDeeds deadline r)) : i.backends ⊆ s.engine.pool.backends := by
  unfold plainDeeds at hi
  cases hplan : (s.engine.consult s.now r).1 with
  | known found =>
      rw [hplan] at hi
      cases hi
  | ask backends =>
      rw [hplan] at hi
      rw [List.mem_singleton.1 hi]
      exact s.backends_consult r hplan

theorem opened_plainDeeds (s : Session) (deadline : Nat) (r : Request) :
    opened (s.plainDeeds deadline r) = [r] := by
  unfold plainDeeds
  split <;> rfl

theorem tells_startPlain (s : Session) (behaviour : Behaviour) (deadline : Nat) (r : Request) :
    (s.startPlain behaviour deadline r).1.Tells (s.plainDeeds deadline r) r := by
  cases hplan : (s.engine.consult s.now r).1 with
  | known found =>
      rw [startPlain_of_known s behaviour deadline hplan, plainDeeds, hplan]
      exact .known (List.mem_singleton_self _)
  | ask backends =>
      rw [startPlain_of_ask s behaviour deadline hplan, plainDeeds, hplan]
      exact ⟨rfl, _, List.mem_singleton_self _, rfl, rfl⟩

end Session

/-! ## Spreading -/

/-- How a call goes on after a resolution: it has ended without sub-calls, or there is one for each leaf,
which is put to backends of the pool if the path cache does not know it. -/
inductive Spreads (pool : Pool) (request : Request) (rest : List Deed) :
    Except CallError (List String) → Stage → Prop where
  | failed {err : CallError} (h : rest = []) : Spreads pool request rest (.error err) (.ended (.error err))
  | nothing (h : rest = []) :
      Spreads pool request rest (.ok []) (.ended (.ok (.empty request.operation)))
  | leaves {leaves : List String} {bs : List Branch} (hne : leaves ≠ [])
      (hopened : opened rest = leaves.map request.withKey)
      (hpool : ∀ i ∈ asked rest, i.backends ⊆ pool.backends)
      (hbs : List.Forall₂ (fun leaf b => b.Tells rest (request.withKey leaf)) leaves bs) :
      Spreads pool request rest (.ok leaves) (.leaves bs)

namespace Session

theorem spreads_startLeaves (s : Session) (behaviour : Behaviour) (deadline : Nat) (r : Request)
    (leaves : List String) :
    opened (s.leafDeeds behaviour deadline r leaves) = leaves.map r.withKey ∧
      (∀ i ∈ asked (s.leafDeeds behaviour deadline r leaves),
        i.backends ⊆ s.engine.pool.backends) ∧
      List.Forall₂ (fun leaf b => b.Tells (s.leafDeeds behaviour deadline r leaves) (r.withKey leaf))
        leaves (s.startLeaves behaviour deadline r leaves).1 := by
  induction leaves generalizing s with
  | nil => exact ⟨rfl, fun _ hi => absurd hi List.not_mem_nil, .nil⟩
  | cons leaf rest ih =>
      obtain ⟨hopened, hpool, hbs⟩ := ih (s.startPlain behaviour deadline (r.withKey leaf)).2
      have hsame := (s.acts_startPlain behaviour deadline (r.withKey leaf)).alike.pool
      rw [leafDeeds]
      refine ⟨?_, ?_, ?_⟩
      · rw [opened_append, opened_plainDeeds, hopened]
        rfl
      · intro i hi
        rw [asked_append] at hi
        cases List.mem_append.1 hi with
        | inl hi => exact s.backends_plainDeeds deadline _ hi
        | inr hi =>
            rw [← hsame]
            exact hpool i hi
      · refine .cons ?_ (hbs.imp fun _ _ h => h.mono (List.subset_append_right _ _))
        exact (s.tells_startPlain behaviour deadline _).mono (List.subset_append_left _ _)

/-- Leaves that are entered are spread. -/
theorem spreads_enterLeaves (s : Session) (behaviour : Behaviour) (deadline : Nat) (r : Request)
    (leaves : List String) :
    Spreads s.engine.pool r (s.leafDeeds behaviour deadline r leaves) (.ok leaves)
      (s.enterLeaves behaviour deadline r leaves).1 := by
  cases leaves with
  | nil => exact .nothing rfl
  | cons leaf rest =>
      obtain ⟨hopened, hpool, hbs⟩ := s.spreads_startLeaves behaviour deadline r (leaf :: rest)
      exact .leaves (List.cons_ne_nil _ _) hopened hpool hbs

end Session

/-- A gathering is handed to sub-calls that are spread over leaves. -/
theorem Branch.forall₂_receiveAll {deeds deeds' : List Deed} {request : Request} {leaves : List String}
    {bs : List Branch}
    (h : List.Forall₂ (fun leaf b => b.Tells deeds (request.withKey leaf)) leaves bs) (s : Session)
    (f : Finished Answer) (hsub : deeds ++ bs.flatMap (Branch.deeds f) ⊆ deeds') :
    List.Forall₂ (fun leaf b => b.Tells deeds' (request.withKey leaf)) leaves
      (receiveAll s f bs).1 := by
  induction h generalizing s with
  | nil => exact .nil
  | @cons leaf b leaves bs hb hbs ih =>
      obtain ⟨hdeeds, hall⟩ := List.append_subset.1 hsub
      rw [List.flatMap_cons] at hall
      obtain ⟨hfirst, hrest⟩ := List.append_subset.1 hall
      exact .cons (hb.receive s f (List.append_subset.2 ⟨hdeeds, hfirst⟩))
        (ih _ (List.append_subset.2 ⟨hdeeds, hrest⟩))

/-- The results of sub-calls that have all ended. -/
theorem Branch.forall₂_results {deeds : List Deed} {request : Request} {leaves : List String}
    {bs : List Branch}
    (h : List.Forall₂ (fun leaf b => b.Tells deeds (request.withKey leaf)) leaves bs)
    {rs : List (Except CallError CallResult × Stats)} (hrs : bs.mapM result? = some rs) :
    List.Forall₂ (fun leaf result => SubResult deeds (request.withKey leaf) result) leaves
      (rs.map Prod.fst) := by
  rw [eq_of_mapM_result? hrs, List.forall₂_map_right_iff] at h
  exact List.forall₂_map_right_iff.2 h

/-! ## Searches in a run -/

/-- What a call has done that is routed to the search backend: it waits for the resolution, or the leaves
have been spread. -/
def Watch.Searches (s : Session) (route : SearchRoute Backend) (deadline : Nat) (request : Request)
    (own : List Deed) (w : Watch) : Prop :=
  ((s.engine.searches.get s.now request.key).1 = none ∧
    own = [.ask (s.searchInquiry deadline route request.key)] ∧
    w.call.stage = .resolving s.nextGather) ∨
  ∃ resolving rest resolution, own = resolving ++ rest ∧
    s.Resolves route deadline request.key resolving resolution ∧
    Spreads s.engine.pool request rest resolution w.call.stage

section Searches

variable {s : Session} {route : SearchRoute Backend} {deadline : Nat} {request : Request}
  {own own' : List Deed} {w v : Watch}

theorem Watch.searches_start {r : Run} (hroute : r.session.engine.route request = .search)
    (hsearch : r.session.engine.search = some route) (behaviour : Behaviour) :
    (start r behaviour request).Searches r.session route
      (r.session.now + r.session.engine.timeouts.globalMs) request
      (r.session.startDeeds behaviour request) := by
  have hstage : (start r behaviour request).call.stage = (r.session.enter behaviour
      (r.session.now + r.session.engine.timeouts.globalMs) request).1 := Call.stage_stamp _ _
  rw [Searches, hstage]
  simp only [Session.startDeeds, Session.enter, Session.enterDeeds, hroute, hsearch]
  cases hget : (r.session.engine.consultSearch r.session.now request.key).1 with
  | none => exact .inl ⟨hget, rfl, rfl⟩
  | some leaves =>
      refine .inr ⟨[], _, .ok leaves, rfl, .hit hget, ?_⟩
      exact Session.spreads_enterLeaves (r.session.searched request.key) behaviour _ request leaves

/-- A call that is spread is handed a gathering. -/
theorem Spreads.receive {pool : Pool} {rest : List Deed} {resolution : Except CallError (List String)}
    {c : Call} (h : Spreads pool request rest resolution c.stage) (q : Session) (behaviour : Behaviour)
    (f : Finished Answer) : Spreads pool request (rest ++ c.deeds q behaviour f) resolution
      (c.receive q behaviour f).1.stage := by
  generalize hstage : c.stage = stage at h
  cases h with
  | failed hrest =>
      simp only [Call.receive, Call.deeds, hstage, List.append_nil]
      exact .failed hrest
  | nothing hrest =>
      simp only [Call.receive, Call.deeds, hstage, List.append_nil]
      exact .nothing hrest
  | leaves hne hopened hpool hbs =>
      simp only [Call.receive, Call.deeds, hstage, Call.stage_stamp]
      refine .leaves hne ?_ ?_ ?_
      · rw [opened_append, Branch.opened_deedsAll, List.append_nil]
        exact hopened
      · rw [asked_append, Branch.asked_deedsAll, List.append_nil]
        exact hpool
      · exact Branch.forall₂_receiveAll hbs q f (List.Subset.refl _)

/-- A call that waits for its resolution is handed a gathering. -/
theorem Watch.searches_of_resolving {q : Session} {c : Call} {behaviour : Behaviour}
    {f : Finished Answer} (hmiss : (s.engine.searches.get s.now request.key).1 = none)
    (hstage : c.stage = .resolving s.nextGather) (hrequest : c.request = request)
    (hpool : q.engine.pool = s.engine.pool) (hgather : s.nextGather = f.gather) {reply : Reply Answer}
    (hreplies : f.replies = [reply]) (hbackend : reply.backend = route.backend.identity) :
    ∃ resolving rest resolution, .ask (s.searchInquiry deadline route request.key) ::
        c.deeds q behaviour f = resolving ++ rest ∧
      s.Resolves route deadline request.key resolving resolution ∧
      Spreads s.engine.pool request rest resolution (c.receive q behaviour f).1.stage := by
  have hresolves : s.Resolves route deadline request.key
      (.ask (s.searchInquiry deadline route request.key) :: .hear (.find request.key) f ::
        rememberDeeds q.now request.key reply.leaves) reply.leaves :=
    .miss hmiss hgather.symm hreplies hbackend
  have hresolution : (q.engine.resolve q.now c.request.key f.replies).1 = reply.leaves := by
    rw [Engine.resolve_fst, hreplies, Engine.resolution_singleton]
  simp only [Call.receive, Call.deeds, hstage, if_pos hgather, hrequest] at hresolution ⊢
  rw [hresolution]
  cases hleaves : reply.leaves with
  | error err =>
      rw [hleaves] at hresolves
      refine ⟨_, [], .error err, (List.append_nil _).symm, hresolves, ?_⟩
      simp only [Call.stage_stamp]
      exact .failed rfl
  | ok leaves =>
      rw [hleaves] at hresolves
      refine ⟨_, (q.resolved request.key f).leafDeeds behaviour c.deadline request leaves, .ok leaves,
        ?_, hresolves, ?_⟩
      · rfl
      · have hsame : (q.resolved request.key f).engine.pool = s.engine.pool :=
          (Engine.resolve_same _ _ _ _).2.trans hpool
        simp only [Call.stage_stamp]
        rw [← hsame]
        exact Session.spreads_enterLeaves (q.resolved request.key f) behaviour c.deadline request leaves

/-- What has been done by a call that is routed to the search backend. -/
theorem Watch.Course.searches {may : Session → Nat → Prop} {r : Run} {behaviour : Behaviour}
    {all : List Deed} (h : Course may r behaviour request own all w)
    (hfloor : ∃ asks, r.session.floor.Sound asks r.session.nextGather)
    (hroute : r.session.engine.route request = .search)
    (hsearch : r.session.engine.search = some route) :
    w.Searches r.session route (r.session.now + r.session.engine.timeouts.globalMs) request own := by
  induction h with
  | start => exact searches_start hroute hsearch behaviour
  | @move own own' all all' w v h m ih =>
      obtain ⟨asks, hsound⟩ := hfloor
      obtain ⟨asks', haccounts⟩ := (h.move m).accounts hsound
      rcases m.call_cases with ⟨hcall, rfl⟩ | ⟨later, f, rest, _, rfl, rfl⟩
      · rw [Searches, hcall, List.append_nil]
        exact ih
      rcases ih with ⟨hmiss, rfl, hstage⟩ | ⟨resolving, spread, resolution, rfl, hresolves, hspreads⟩
      · by_cases hgather : r.session.nextGather = f.gather
        · have hheard : (.find request.key, f) ∈
              heard (w.call.deeds (w.midway later f rest) later f) := by
            simp [Call.deeds, hstage, hgather, h.request_eq]
          obtain ⟨reply, hreplies, hbackend⟩ := haccounts.single
            (List.mem_append_left _ (List.mem_singleton_self _)) (by
              rw [heard_append]
              exact List.mem_append_right _ hheard) hgather.symm rfl
          have hpool : (w.midway later f rest).engine.pool = r.session.engine.pool :=
            (w.acts_midway later f rest).alike.pool.trans h.alike.pool
          exact .inr (searches_of_resolving hmiss hstage h.request_eq hpool hgather hreplies hbackend)
        · have hquiet : w.call.deeds (w.midway later f rest) later f = [] := by
            simp only [Call.deeds, hstage, if_neg hgather]
          have hstays : (w.handOver later f rest).call.stage = .resolving r.session.nextGather := by
            simp only [handOver, Call.receive, hstage, if_neg hgather]
          rw [hquiet, List.append_nil]
          exact .inl ⟨hmiss, rfl, hstays⟩
      · refine .inr ⟨resolving, spread ++ w.call.deeds (w.midway later f rest) later f, resolution, ?_,
          hresolves, hspreads.receive _ later f⟩
        rw [List.append_assoc]

end Searches

theorem Reply.leaves_eq_error {reply : Reply Answer} {err : CallError} (h : reply.leaves = .error err) :
    err = .allBackendsFailed .find := by
  unfold leaves at h
  split at h
  · cases h
  · cases h
  · exact (Except.error.inj h).symm

theorem Session.Resolves.eq_error {s : Session} {route : SearchRoute Backend} {deadline : Nat}
    {query : String} {deeds : List Deed} {resolution : Except CallError (List String)}
    (h : s.Resolves route deadline query deeds resolution) {err : CallError}
    (herr : resolution = .error err) : err = .allBackendsFailed .find := by
  cases h with
  | hit _ => cases herr
  | miss _ _ _ _ => exact Reply.leaves_eq_error herr

/-- Only plain calls do without a search backend. -/
theorem Engine.search_of_route {e : Engine} {r : Request} (h : e.route r ≠ .plain) :
    ∃ route, e.search = some route := by
  cases hsearch : e.search with
  | some route => exact ⟨route, rfl⟩
  | none =>
      refine absurd ?_ h
      cases r <;> simp [route, hsearch, routeFind, routeRender]

theorem Engine.exists_search {e : Engine} (h : e.route request = .search) :
    ∃ route, e.search = some route := search_of_route (by rw [h]; decide)

/-- What a call comes to that goes on after a resolution. -/
theorem Spreads.result {pool : Pool} {request : Request} {rest : List Deed}
    {resolution : Except CallError (List String)} {c : Call}
    (h : Spreads pool request rest resolution c.stage) (hrequest : c.request = request)
    {result : Except CallError CallResult} {stats : Stats} (hresult : c.result? = some (result, stats)) :
    (∀ err, resolution = .error err → rest = [] ∧ result = .error err) ∧
      (resolution = .ok [] → rest = [] ∧ result = .ok (.empty request.operation)) ∧
      ∀ leaves, resolution = .ok leaves → leaves ≠ [] →
        opened rest = leaves.map request.withKey ∧
        (∀ i ∈ asked rest, i.backends ⊆ pool.backends) ∧
        ∃ results,
          List.Forall₂ (fun leaf sub => SubResult rest (request.withKey leaf) sub) leaves results ∧
          result = CallResult.unite request.operation results := by
  generalize hstage : c.stage = stage at h
  cases h with
  | failed hrest =>
      simp only [Call.result?, hstage] at hresult
      cases hresult
      refine ⟨?_, fun hok => (by cases hok), fun _ hok => (by cases hok)⟩
      rintro err ⟨⟩
      exact ⟨hrest, rfl⟩
  | nothing hrest =>
      simp only [Call.result?, hstage] at hresult
      cases hresult
      refine ⟨fun _ herr => (by cases herr), fun _ => ⟨hrest, rfl⟩, ?_⟩
      rintro leaves ⟨⟩ hne
      exact absurd rfl hne
  | leaves hne hopened hpool hbs =>
      simp only [Call.result?, hstage, hrequest] at hresult
      obtain ⟨rs, hrs, hpair⟩ := Option.map_eq_some_iff.1 hresult
      cases hpair
      refine ⟨fun _ herr => (by cases herr), fun hok => ?_, ?_⟩
      · cases hok
        exact absurd rfl hne
      · rintro leaves ⟨⟩ _
        exact ⟨hopened, hpool, rs.map Prod.fst, Branch.forall₂_results hbs hrs,
          CallResult.join_eq_unite _ _⟩

/-- A call of an engine that is routed to the search backend, in any run: its query is resolved from the
search cache or by the search backend alone. If that fails, so does the call, and nobody else is asked; if
there are no leaves, the result is empty, and nobody else is asked. Otherwise one plain sub-call is made
for each leaf, in their order, and the result is the union of theirs, which depends on nothing else. From
then on the search cache answers a query with the leaves to which it was last resolved until they expire,
or with what it knew before if the query was not resolved. -/
theorem Watch.Course.unites {e : Engine} (he : e.searches.Distinct) {log : List Event} {r : Run}
    (hr : Run.Reach ⟨.ofEngine e, []⟩ log r) {may : Session → Nat → Prop} {behaviour : Behaviour}
    {request : Request} (hroute : r.session.engine.route request = .search) {own all : List Deed}
    {w : Watch} (h : Course may r behaviour request own all w) {result : Except CallError CallResult}
    {stats : Stats} (hresult : w.call.result? = some (result, stats)) :
    (∃ route resolving rest resolution, r.session.engine.search = some route ∧
      own = resolving ++ rest ∧
      r.session.Resolves route (r.session.now + r.session.engine.timeouts.globalMs) request.key
        resolving resolution ∧
      (∀ err, resolution = .error err →
        err = .allBackendsFailed .find ∧ rest = [] ∧ result = .error err) ∧
      (resolution = .ok [] → rest = [] ∧ result = .ok (.empty request.operation)) ∧
      ∀ leaves, resolution = .ok leaves → leaves ≠ [] →
        opened rest = leaves.map request.withKey ∧
        (∀ i ∈ asked rest, i.backends ⊆ r.session.engine.pool.backends) ∧
        ∃ results,
          List.Forall₂ (fun leaf sub => SubResult rest (request.withKey leaf) sub) leaves results ∧
          result = CallResult.unite request.operation results ∧
          (result = .error (.allBackendsFailed request.operation) ↔
            ∀ sub ∈ results, ∃ err, sub = .error err)) ∧
    own.Sublist all ∧
    (∀ query time leaves before after, all = before ++ .resolve time query leaves :: after →
      (∀ d ∈ after, d.resolution? query = none) →
      (w.session.engine.searches.get w.session.now query).1 =
        if w.session.now - time < r.session.engine.searches.ttl then some leaves else none) ∧
    ∀ query, (∀ d ∈ all, d.resolution? query = none) →
      (w.session.engine.searches.get w.session.now query).1 =
        (r.session.engine.searches.get w.session.now query).1 := by
  have hfloor := Run.floor_sound_of_reach hr
  have hpeek := h.learns.peek (Run.distinct_searches_of_reach he hr) w.session.now (Nat.le_refl _)
  refine ⟨?_, h.own_sublist, ?_, ?_⟩
  · obtain ⟨route, hsearch⟩ := Engine.exists_search hroute
    rcases h.searches hfloor hroute hsearch with ⟨_, _, hstage⟩ |
      ⟨resolving, rest, resolution, hown, hresolves, hspreads⟩
    · simp only [Call.result?, hstage] at hresult
      cases hresult
    obtain ⟨hfailed, hnothing, hleaves⟩ := hspreads.result h.request_eq hresult
    refine ⟨route, resolving, rest, resolution, hsearch, hown, hresolves, ?_, hnothing, ?_⟩
    · intro err herr
      exact ⟨hresolves.eq_error herr, hfailed err herr⟩
    · intro leaves hok hne
      obtain ⟨hopened, hpool, results, hresults, hunite⟩ := hleaves leaves hok hne
      refine ⟨hopened, hpool, results, hresults, hunite, ?_⟩
      rw [hunite]
      exact CallResult.unite_eq_error_iff _ _
  · intro query time leaves before after hall hafter
    rw [TtlCache.get_eq_peek, hpeek, knownLeaves, hall, lastResolved?_of_resolve before hafter]
  · intro query hquiet
    have hnone : lastResolved? all query = none :=
      List.findSome?_eq_none_iff.2 fun d hd => hquiet d (List.mem_reverse.1 hd)
    rw [TtlCache.get_eq_peek, TtlCache.get_eq_peek, hpeek, knownLeaves, hnone]

/-! ## A search -/

namespace Seek

/-- A backend, and a search backend. -/
def engine : Engine where
  pool := ⟨[⟨⟨.http, [], [], .domain ['a'], some 1, {}, none, none⟩, "http://a:1", 0⟩], 0⟩
  search := some ⟨"s:", ⟨⟨.http, [], [], .domain ['b'], some 2, {}, none, none⟩, "http://b:2", 0⟩⟩
  timeouts := {}
  paths := { name := "path", ttl := 600000 }
  searches := { name := "search", ttl := 600000 }

/-- The search backend knows two leaves, and the other one knows the second of them. -/
def behaviour : Behaviour := fun a =>
  if a.request = .find "s:x" then
    some (5, .answer 200 (Utf8.ofString "[\"\",[[\"a\",true],[\"b\",true]]]") true)
  else if a.request = .find "b" then
    some (7, .answer 200 (Utf8.ofString "[\"\",[[\"b\",true]]]") true)
  else some (9, .answer 500 [] true)

/-- What is searched for. -/
def asked : Run := (Watch.start ⟨.ofEngine engine, []⟩ behaviour (.find "s:x")).run

end Seek

/-- A search with two leaves, the first of which cannot be found. -/
theorem Watch.Course.unites_seek : ∃ own all w result stats,
    Course Session.Prompt ⟨.ofEngine Seek.engine, []⟩ Seek.behaviour (.find "s:x") own all w ∧
      w.call.result? = some (result, stats) ∧
      result.toOption.map CallResult.found? = some [⟨"b", true⟩] ∧
      ∃ route resolving rest resolution, Seek.engine.search = some route ∧
        own = resolving ++ rest ∧
        (Session.ofEngine Seek.engine).Resolves route 10000 "s:x" resolving resolution := by
  have hstart : Course Session.Prompt ⟨.ofEngine Seek.engine, []⟩ Seek.behaviour (.find "s:x") _ _ _ :=
    .start
  have hfound : ((Seek.asked.steps Seek.behaviour 8).calls[0]?.bind Call.result?).map
      (fun x => x.1.toOption.map CallResult.found?) = some (some [⟨"b", true⟩]) := by decide +kernel
  obtain ⟨⟨result, stats⟩, hended, hvalue⟩ := Option.map_eq_some_iff.1 hfound
  obtain ⟨own, all, w, hw, hresult⟩ :=
    hstart.ended_of_steps Seek.behaviour 8 hended
  have hdistinct : Seek.engine.searches.Distinct := List.nodup_nil
  have hroute : (Session.ofEngine Seek.engine).engine.route (.find "s:x") = .search := by decide +kernel
  obtain ⟨⟨route, resolving, rest, resolution, hsearch, hown, hresolves, _⟩, _⟩ :=
    unites hdistinct .refl hroute hw hresult
  exact ⟨own, all, w, result, stats, hw, hresult, hvalue, route, resolving, rest, resolution, hsearch,
    hown, hresolves⟩

end MetricFanout
