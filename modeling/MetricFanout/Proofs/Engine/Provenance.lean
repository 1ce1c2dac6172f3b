import MetricFanout.Proofs.Engine.Narrowing
/-!
# Where answers come from

What the path cache holds for a call comes from one find that was put to the pool: the last one that
stored anything under the key of the call, if it is not too old. Under its query a find stores everything
that it found, and under the path of any other match just that match, each with the backends that
reported it.

One find writes many keys, and a key is written by finds of many queries. The law is one equivalence
between the path cache and the history; that known matches are answered without asking anybody, and that
calls about them only ask those that reported them, are its consequences.
-/

namespace MetricFanout

/-! ## What a find leaves -/

namespace Harvest

/-- The backends that reported anything. -/
def responders (h : Harvest) : List String :=
  (h.replies.filter fun r => !(FindMerge.matchesOf r).isEmpty).map Reply.backend

/-- The backends that reported a path. -/
def reporters (h : Harvest) (path : String) : List String :=
  (h.replies.filter (FindMerge.reportsPath path)).map Reply.backend

/-- What a find stores under a key: everything that it found under its query, and a single match under a
path. -/
inductive Stores (h : Harvest) : String → CachedFind → Prop where
  | query {m : FindMerge} (hm : mergeFind h.replies = .ok m) (hfound : m.found ≠ []) :
      Stores h h.query ⟨m.found, h.responders⟩
  | path {m : FindMerge} {x : Match} (hm : mergeFind h.replies = .ok m) (hx : x ∈ m.found)
      (hne : x.path ≠ h.query) : Stores h x.path ⟨[x], h.reporters x.path⟩

theorem mergeFind_eq {h : Harvest} (hfound : h.merged.found ≠ []) :
    mergeFind h.replies = .ok h.merged := by
  cases hm : mergeFind h.replies with
  | error err => exact absurd (Engine.found_of_error hm) hfound
  | ok m => rw [FindMerge.merged_of_mergeFind hm, merged]

theorem stores_iff {h : Harvest} (hnodup : (h.replies.map Reply.backend).Nodup) {key : String}
    {c : CachedFind} : h.Stores key c ↔ h.stored? key = some c := by
  have hresponders : h.merged.responders = h.responders := FindMerge.merged_responders h.replies
  have hreporters : ∀ path, h.merged.holdersOf path = h.reporters path :=
    FindMerge.merged_holders hnodup
  constructor
  · intro hstores
    cases hstores with
    | query hm hfound =>
        rw [FindMerge.merged_of_mergeFind hm] at hfound ⊢
        rw [stored?_query hfound, hresponders]
        rfl
    | path hm hx hne =>
        rw [FindMerge.merged_of_mergeFind hm] at hx
        rw [stored?_path hx hne, hreporters]
  · intro hstored
    obtain ⟨hfound, ⟨rfl, rfl⟩ | ⟨hne, x, hx, rfl, rfl⟩⟩ := stored?_cases hstored
    · rw [hresponders]
      exact .query (mergeFind_eq hfound) hfound
    · rw [hreporters]
      exact .path (mergeFind_eq hfound) hx hne

theorem stored?_eq_none_iff {h : Harvest} (hnodup : (h.replies.map Reply.backend).Nodup)
    {key : String} : h.stored? key = none ↔ ∀ c, ¬ h.Stores key c := by
  simp only [stores_iff hnodup, Option.eq_none_iff_forall_ne_some, ne_eq]

end Harvest

/-- Whether something is stored under a key. -/
def Event.Populates (key : String) : Event → Prop
  | .start _ _ _ _ => False
  | .harvest d => ∃ c, d.Stores key c

section Fitting

variable {e : Engine} {log : List Event}

theorem Fitting.nodup_replies (h : Fitting e log) (hpool : e.pool.identities.Nodup) {d : Harvest}
    (hd : .harvest d ∈ log) : (d.replies.map Reply.backend).Nodup := by
  obtain ⟨pre, post, hlog⟩ := List.append_of_mem hd
  have hfollows : d.Follows e.pool pre := h pre _ post hlog
  exact hfollows.replies.symm.nodup hpool

theorem Fitting.stored?_eq_none_iff (h : Fitting e log) (hpool : e.pool.identities.Nodup) {ev : Event}
    (hev : ev ∈ log) (key : String) : ev.stored? key = none ↔ ¬ ev.Populates key := by
  cases ev with
  | start s behaviour deadline r => simp [Event.stored?, Event.Populates]
  | harvest d =>
      rw [Event.stored?, Option.map_eq_none_iff,
        Harvest.stored?_eq_none_iff (h.nodup_replies hpool hev), Event.Populates, not_exists]

/-- What a history says about a key is what the last find that populated it has stored. -/
theorem Fitting.recollect_eq_some_iff (h : Fitting e log) (hpool : e.pool.identities.Nodup) {ttl t : Nat}
    {key : String} {c : CachedFind} : recollect ttl log t key = some c ↔
      ∃ before d after, log = before ++ .harvest d :: after ∧ d.Stores key c ∧ t - d.time < ttl ∧
        ∀ ev ∈ after, ¬ ev.Populates key := by
  have hstores : ∀ d, .harvest d ∈ log → (d.Stores key c ↔ d.stored? key = some c) :=
    fun d hd => Harvest.stores_iff (h.nodup_replies hpool hd)
  have hlater : ∀ ev, ev ∈ log → (ev.stored? key = none ↔ ¬ ev.Populates key) :=
    fun ev hev => h.stored?_eq_none_iff hpool hev key
  constructor
  · intro hrecall
    obtain ⟨⟨time, c'⟩, hlast, hlive⟩ := Option.bind_eq_some_iff.1 hrecall
    obtain ⟨before, d, after, rfl, rfl, hd, hafter⟩ := lastStored?_eq_some hlast
    split at hlive
    · rename_i hfresh
      cases hlive
      refine ⟨before, d, after, rfl, ?_, hfresh, ?_⟩
      · exact (hstores d (by simp)).2 hd
      · intro ev hev
        exact (hlater ev (by simp [hev])).1 (hafter ev hev)
    · cases hlive
  · rintro ⟨before, d, after, rfl, hd, hfresh, hafter⟩
    have hd' := (hstores d (by simp)).1 hd
    rw [recollect, lastStored?_of_harvest before hd' fun ev hev =>
      (hlater ev (by simp [hev])).2 (hafter ev hev)]
    exact if_pos hfresh

end Fitting

/-! ## The law -/

/-- What the path cache does for a call that starts in a session with a past. -/
structure Session.Traces (s : Session) (e : Engine) (past : List Event) (behaviour : Behaviour)
    (deadline : Nat) (r : Request) : Prop where
  /-- Every find of the past was put to the whole pool after it had been missed. -/
  follows : ∀ before d after, past = before ++ .harvest d :: after →
    d.Follows e.pool before ∧ d.time ≤ s.now
  /-- What is there for the call was stored by the last find that populated its key. -/
  entry : ∀ c, (s.engine.paths.get s.now r.key).1 = some c ↔
    ∃ before d after, past = before ++ .harvest d :: after ∧ d.Stores r.key c ∧
      s.now - d.time < e.paths.ttl ∧ ∀ ev ∈ after, ¬ ev.Populates r.key
  /-- A find that is answered at once is answered with that. -/
  answer : ∀ result stats, (s.startPlain behaviour deadline r).1 = .done result stats →
    ∃ c, (s.engine.paths.get s.now r.key).1 = some c ∧ result = .ok (.found c.found) ∧
      r.operation = .find
  /-- A find of a match that was found under another query is answered with that match alone, and
  nobody is asked. -/
  known : ∀ before d after m x, past = before ++ .harvest d :: after → mergeFind d.replies = .ok m →
    x ∈ m.found → x.path ≠ d.query → s.now - d.time < e.paths.ttl →
    (∀ ev ∈ after, ¬ ev.Populates x.path) → r = .find x.path →
    s.startPlain behaviour deadline r =
      (.done (.ok (.found [x])) (s.engine.consult s.now r).2.1, s.looked r)
  /-- Other calls about it ask those that reported it. -/
  narrowed : ∀ before d after m x, past = before ++ .harvest d :: after → mergeFind d.replies = .ok m →
    x ∈ m.found → x.path ≠ d.query → s.now - d.time < e.paths.ttl →
    (∀ ev ∈ after, ¬ ev.Populates x.path) → r.key = x.path → r.operation ≠ .find →
    s.startPlain behaviour deadline r =
      (.waiting r s.nextGather (s.engine.consult s.now r).2.1,
        { s.looked r with
          floor := s.floor.begin behaviour.network s.now s.nextGather
            s.engine.timeouts.afterStartedMs deadline
            (s.targetsOf r (e.pool.backends.filter fun b => b.identity ∈ d.reporters x.path))
          nextGather := s.nextGather + 1 })

theorem Engine.consult_of_known {e : Engine} {now : Nat} {r : Request} {found : List Match}
    (h : (e.consult now r).1 = .known found) :
    ∃ c, (e.paths.get now r.key).1 = some c ∧ found = c.found ∧ r.operation = .find := by
  cases hget : (e.paths.get now r.key).1 with
  | none =>
      simp only [consult, hget] at h
      cases h
  | some c =>
      by_cases hr : r.operation = .find
      · cases r with
        | find query =>
            simp only [consult, hget] at h
            exact ⟨c, rfl, (Plan.known.inj h).symm, rfl⟩
        | render _ _ _ => cases hr
        | info _ => cases hr
      · rw [consult_of_hit hr hget] at h
        cases h

/-- In every run of an engine that has just been built, and for every plain call and every sub-call of a
leaf that starts in it, what the path cache answers is what the last find stored. -/
theorem Run.traces_of_start [Idna] {c : Config} {e : Engine} (he : Engine.ofConfig c = .ok e)
    {log : List Event} {r : Run} (h : Reach ⟨.ofEngine e, []⟩ log r) {past future : List Event}
    {s : Session} {behaviour : Behaviour} {deadline : Nat} {req : Request}
    (hlog : log = past ++ .start s behaviour deadline req :: future) :
    s.Traces e past behaviour deadline req := by
  obtain ⟨hpool, asks, hsound, _⟩ := sound_of_reach he h
  have hs : s.Recalls e past := hsound.fitting past _ future hlog
  have hfitting : Fitting e past := (hlog ▸ hsound.fitting).of_append
  have hentry : ∀ c, (s.engine.paths.get s.now req.key).1 = some c ↔
      ∃ before d after, past = before ++ .harvest d :: after ∧ d.Stores req.key c ∧
        s.now - d.time < e.paths.ttl ∧ ∀ ev ∈ after, ¬ ev.Populates req.key := by
    intro c
    rw [TtlCache.get_eq_peek, hs.peek s.now (Nat.le_refl _), hfitting.recollect_eq_some_iff hpool]
  constructor
  case follows =>
    intro before d after hpast
    refine ⟨hfitting before _ after hpast, hs.past d ?_⟩
    rw [hpast]
    exact List.mem_append_right _ List.mem_cons_self
  case entry => exact hentry
  case answer =>
    intro result stats hdone
    cases hplan : (s.engine.consult s.now req).1 with
    | ask backends =>
        rw [Session.startPlain_of_ask s behaviour deadline hplan] at hdone
        cases hdone
    | known found =>
        rw [Session.startPlain_of_known s behaviour deadline hplan] at hdone
        obtain ⟨c, hget, rfl, hr⟩ := Engine.consult_of_known hplan
        cases hdone
        exact ⟨c, hget, rfl, hr⟩
  case known =>
    intro before d after m x hpast hm hx hne hfresh hlater hr
    subst hr
    have hget := (hentry ⟨[x], d.reporters x.path⟩).2
      ⟨before, d, after, hpast, .path hm hx hne, hfresh, hlater⟩
    apply Session.startPlain_of_known
    rw [Session.consult_find]
    simp only [Request.key] at hget
    rw [hget]
  case narrowed =>
    intro before d after m x hpast hm hx hne hfresh hlater hkey hr
    have hget := (hentry ⟨[x], d.reporters x.path⟩).2
      ⟨before, d, after, hpast, hkey ▸ .path hm hx hne, hfresh, hkey ▸ hlater⟩
    have hfrom : CachedFind.IsFrom e.pool ⟨[x], d.reporters x.path⟩ := hs.isFrom_of_get hget
    apply Session.startPlain_of_ask
    rw [Engine.consult_of_hit hr hget, hs.pool, hfrom.select hpool]
    rfl

open Program

/-- A find of the leaf that was found by another query. -/
theorem Run.traces_of_start_pair : ∃ past,
    Pair.found.session.Traces Pair.engine past Pair.behaviour 10007 (.find "a") ∧
      ∃ before d after, past = before ++ .harvest d :: after ∧
        d.Stores "a" ⟨[⟨"a", true⟩], ["http://a:1"]⟩ := by
  obtain ⟨past, q, hnext⟩ := Pair.reach_next (.find "a")
  have htraces : Pair.found.session.Traces Pair.engine past Pair.behaviour 10007 (.find "a") :=
    traces_of_start Pair.ofConfig_config hnext rfl
  obtain ⟨before, d, after, hpast, hd, _⟩ := (htraces.entry _).1 Pair.get_found
  exact ⟨past, htraces, before, d, after, hpast, hd⟩

end MetricFanout
