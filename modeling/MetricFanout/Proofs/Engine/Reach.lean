import MetricFanout.Proofs.Engine.Enter
/-!
# What every run keeps

In every run of an engine that has just been built, sessions stay sound, and calls wait for finds that
have started.

A gathering is handed to all calls in turn, and each of them may start others, so that the ledger may grow
between two of them. A gathering that is over keeps its page.
-/

namespace MetricFanout

variable {e : Engine} {asks : Ledger Ask} {log : List Event} {s : Session}

/-! ## Gatherings that are over -/

/-- A find is over. -/
theorem Session.Sound.harvest (h : s.Sound e asks log) (hpool : e.pool.identities.Nodup) {d : Harvest}
    (hd : d.Follows e.pool log) (htime : d.time = s.now) :
    { s with engine := s.engine.remember d.time d.query d.merged }.Sound e asks
      (log ++ [Event.harvest d]) := by
  have hrecalls : { s with engine := s.engine.remember d.time d.query d.merged }.Recalls e
      (log ++ [Event.harvest d]) :=
    h.recalls.harvest (q := { s with engine := s.engine.remember d.time d.query d.merged })
      hpool hd.replies htime rfl rfl
  refine ⟨hrecalls, h.fitting.snoc hd, h.floor, h.asked.snoc ?_⟩
  intro p b d r backends hp
  cases hp

namespace Branch

theorem receive_now (s : Session) (f : Finished Answer) (b : Branch) : (b.receive s f).2.now = s.now := by
  unfold receive
  split
  · split <;> rfl
  · rfl

theorem receive_nextGather (s : Session) (f : Finished Answer) (b : Branch) :
    (b.receive s f).2.nextGather = s.nextGather := by
  unfold receive
  split
  · split <;> rfl
  · rfl

theorem receiveAll_nextGather (s : Session) (f : Finished Answer) (bs : List Branch) :
    (receiveAll s f bs).2.nextGather = s.nextGather := by
  induction bs generalizing s with
  | nil => rfl
  | cons b rest ih => simp only [receiveAll, ih, receive_nextGather]

theorem awaits_receive {b : Branch} (hb : b.Awaits log) (s : Session) (f : Finished Answer) :
    (b.receive s f).1.Awaits log := by
  cases b with
  | done result stats => trivial
  | waiting r id stats =>
      by_cases hid : id = f.gather
      · simp only [receive, if_pos hid]
        trivial
      · simp only [receive, if_neg hid]
        exact hb

theorem awaits_receiveAll {bs : List Branch} (hbs : ∀ b ∈ bs, b.Awaits log) (s : Session)
    (f : Finished Answer) : ∀ b ∈ (receiveAll s f bs).1, b.Awaits log := by
  induction bs generalizing s with
  | nil => exact fun _ hb => absurd hb List.not_mem_nil
  | cons b rest ih =>
      obtain ⟨hfirst, hrest⟩ := List.forall_mem_cons.1 hbs
      exact List.forall_mem_cons.2 ⟨awaits_receive hfirst s f, ih hrest _⟩

/-- A gathering is handed to a sub-call. -/
theorem sound_receive (hs : s.Sound e asks log) (hpool : e.pool.identities.Nodup)
    {f : Finished Answer} (hf : f.Answers asks s.nextGather) {b : Branch} (hb : b.Awaits log) :
    (b.receive s f).2.Sound e asks (log ++ b.events s.now f) := by
  have hsame : ∀ q : Session, q = s → q.Sound e asks (log ++ []) := by
    intro q hq
    rw [hq, List.append_nil]
    exact hs
  cases b with
  | done result stats => exact hsame _ rfl
  | waiting r id stats =>
      by_cases hid : id = f.gather
      · cases r with
        | render target start stop =>
            simp only [receive, if_pos hid]
            exact hsame _ rfl
        | info path =>
            simp only [receive, if_pos hid]
            exact hsame _ rfl
        | find query =>
            obtain ⟨p, behaviour, deadline, hp, hgather, hmiss⟩ := hb
            -- The find had missed when it started, and so it was put to the whole pool.
            have hreplies : ((f.replies.map (Reply.map Answer.found?)).map Reply.backend).Perm
                e.pool.identities := by
              rw [← hs.names_find hp hmiss, hgather, hid, List.map_map]
              exact hf.2
            simp only [receive, events, if_pos hid, Engine.conclude_find]
            exact hs.harvest hpool ⟨hreplies, p, behaviour, deadline, hp, hgather, hmiss⟩ rfl
      · have hevents : (Branch.waiting r id stats).events s.now f = [] := by
          cases r with
          | find query => exact if_neg hid
          | render _ _ _ => rfl
          | info _ => rfl
        simp only [receive, if_neg hid, hevents]
        exact hsame _ rfl

theorem sound_receiveAll (hs : s.Sound e asks log) (hpool : e.pool.identities.Nodup)
    {f : Finished Answer} (hf : f.Answers asks s.nextGather) {bs : List Branch}
    (hbs : ∀ b ∈ bs, b.Awaits log) :
    (receiveAll s f bs).2.Sound e asks (log ++ bs.flatMap (Branch.events s.now f)) := by
  induction bs generalizing s log with
  | nil =>
      rw [List.flatMap_nil, List.append_nil]
      exact hs
  | cons b rest ih =>
      obtain ⟨hb, hrest⟩ := List.forall_mem_cons.1 hbs
      have hfirst := sound_receive hs hpool hf hb
      rw [← receive_nextGather s f b] at hf
      have hall := ih hfirst hf fun d hd => (hrest d hd).grow (List.subset_append_left _ _)
      rw [receive_now, List.append_assoc] at hall
      exact hall

end Branch

/-! ## Calls -/

/-- A resolution does not touch the path cache. -/
theorem Engine.resolve_same (e : Engine) (now : Nat) (query : String) (replies : List (Reply Answer)) :
    (e.resolve now query replies).2.paths = e.paths ∧
      (e.resolve now query replies).2.pool = e.pool := by
  unfold resolve
  split
  · dsimp only
    split
    · exact ⟨rfl, rfl⟩
    · exact ⟨rfl, rfl⟩
  · exact ⟨rfl, rfl⟩

namespace Call

theorem stage_stamp (c : Call) (now : Nat) : (c.stamp now).stage = c.stage := by
  unfold stamp
  split <;> rfl

theorem sound_start (hs : s.Sound e asks log) (behaviour : Behaviour) (r : Request) :
    ∃ asks', (start s behaviour r).2.Sound e asks'
        (log ++ s.enterEvents behaviour (s.now + s.engine.timeouts.globalMs) r) ∧
      asks.Grows s.nextGather asks' (start s behaviour r).2.nextGather ∧
      (start s behaviour r).1.stage.Awaits
        (log ++ s.enterEvents behaviour (s.now + s.engine.timeouts.globalMs) r) := by
  obtain ⟨asks', hsound, hgrows, hawaits⟩ :=
    hs.enter behaviour (s.now + s.engine.timeouts.globalMs) r
  refine ⟨asks', hsound, hgrows, ?_⟩
  simp only [start, stage_stamp]
  exact hawaits

/-- A gathering is handed to a call. -/
theorem sound_receive (hs : s.Sound e asks log) (hpool : e.pool.identities.Nodup)
    {f : Finished Answer} (hf : f.Answers asks s.nextGather) {c : Call}
    (hc : c.stage.Awaits log) (behaviour : Behaviour) :
    ∃ asks', (c.receive s behaviour f).2.Sound e asks' (log ++ c.receiveEvents s behaviour f) ∧
      asks.Grows s.nextGather asks' (c.receive s behaviour f).2.nextGather ∧
      (c.receive s behaviour f).1.stage.Awaits (log ++ c.receiveEvents s behaviour f) := by
  cases hstage : c.stage with
  | completing id =>
      by_cases hid : id = f.gather
      · simp only [receive, receiveEvents, hstage, if_pos hid, List.append_nil, stage_stamp]
        exact ⟨asks, hs, .refl _ _, trivial⟩
      · simp only [receive, receiveEvents, hstage, if_neg hid, List.append_nil]
        exact ⟨asks, hs, .refl _ _, trivial⟩
  | ended result =>
      simp only [receive, receiveEvents, hstage, List.append_nil]
      exact ⟨asks, hs, .refl _ _, trivial⟩
  | plain b =>
      rw [hstage] at hc
      simp only [receive, receiveEvents, hstage, stage_stamp]
      refine ⟨asks, Branch.sound_receive hs hpool hf hc, ?_, ?_⟩
      · rw [Branch.receive_nextGather]
        exact .refl _ _
      · exact (Branch.awaits_receive hc s f).grow (List.subset_append_left _ _)
  | leaves bs =>
      rw [hstage] at hc
      simp only [receive, receiveEvents, hstage, stage_stamp]
      refine ⟨asks, Branch.sound_receiveAll hs hpool hf hc, ?_, ?_⟩
      · rw [Branch.receiveAll_nextGather]
        exact .refl _ _
      · intro b hb
        exact (Branch.awaits_receiveAll hc s f b hb).grow (List.subset_append_left _ _)
  | resolving id =>
      by_cases hid : id = f.gather
      · obtain ⟨hpaths, hsame⟩ := s.engine.resolve_same s.now c.request.key f.replies
        have hresolved : { s with engine := (s.engine.resolve s.now c.request.key f.replies).2 }.Sound
            e asks log := hs.of_same hsame hpaths (Nat.le_refl _) rfl rfl
        simp only [receive, receiveEvents, hstage, if_pos hid]
        cases (s.engine.resolve s.now c.request.key f.replies).1 with
        | ok leaves =>
            simp only [stage_stamp]
            exact hresolved.enterLeaves behaviour c.deadline c.request leaves
        | error err =>
            simp only [stage_stamp, List.append_nil]
            exact ⟨asks, hresolved, .refl _ _, trivial⟩
      · simp only [receive, receiveEvents, hstage, if_neg hid, List.append_nil]
        exact ⟨asks, hs, .refl _ _, trivial⟩

end Call

namespace Run

/-- A gathering is handed to several calls. -/
theorem sound_receiveAll (hs : s.Sound e asks log) (hpool : e.pool.identities.Nodup)
    {f : Finished Answer} (hf : f.Answers asks s.nextGather) {cs : List Call}
    (hcs : ∀ c ∈ cs, c.stage.Awaits log) (behaviour : Behaviour) :
    ∃ asks', (receiveAll s behaviour f cs).2.Sound e asks'
        (log ++ receiveAllEvents s behaviour f cs) ∧
      asks.Grows s.nextGather asks' (receiveAll s behaviour f cs).2.nextGather ∧
      ∀ c ∈ (receiveAll s behaviour f cs).1,
        c.stage.Awaits (log ++ receiveAllEvents s behaviour f cs) := by
  induction cs generalizing s asks log with
  | nil =>
      simp only [receiveAllEvents, List.append_nil]
      exact ⟨asks, hs, .refl _ _, fun _ hc => absurd hc List.not_mem_nil⟩
  | cons c rest ih =>
      obtain ⟨hc, hrest⟩ := List.forall_mem_cons.1 hcs
      obtain ⟨asks', hfirst, hgrows, hawaits⟩ := Call.sound_receive hs hpool hf hc behaviour
      obtain ⟨asks'', hall, hgrows', hawaits'⟩ := ih hfirst (hf.grow hgrows) fun d hd =>
        (hrest d hd).grow (List.subset_append_left _ _)
      have hgrown := hawaits.grow (List.subset_append_left _ (receiveAllEvents
        (c.receive s behaviour f).2 behaviour f rest))
      rw [List.append_assoc] at hall hawaits' hgrown
      exact ⟨asks'', hall, hgrows.trans hgrows', List.forall_mem_cons.2 ⟨hgrown, hawaits'⟩⟩

/-! ## Moves -/

/-- A run in a sound session, whose calls wait for finds that have started. -/
def Sound (e : Engine) (log : List Event) (r : Run) : Prop :=
  ∃ asks, r.session.Sound e asks log ∧ ∀ c ∈ r.calls, c.stage.Awaits log

theorem Sound.call {r : Run} (h : r.Sound e log) (behaviour : Behaviour) (request : Request) :
    (⟨(Call.start r.session behaviour request).2,
        r.calls ++ [(Call.start r.session behaviour request).1]⟩ : Run).Sound e
      (log ++ r.session.enterEvents behaviour (r.session.now + r.session.engine.timeouts.globalMs)
        request) := by
  obtain ⟨asks, hsession, hcalls⟩ := h
  obtain ⟨asks', hstarted, _, hawaits⟩ := Call.sound_start hsession behaviour request
  refine ⟨asks', hstarted, ?_⟩
  intro c hc
  cases List.mem_append.1 hc with
  | inl hc => exact (hcalls c hc).grow (List.subset_append_left _ _)
  | inr hc =>
      rw [List.mem_singleton.1 hc]
      exact hawaits

theorem Sound.step {r q : Run} (h : r.Sound e log) (hpool : e.pool.identities.Nodup)
    {behaviour : Behaviour} (hstep : r.step? behaviour = some q) :
    q.Sound e (log ++ r.stepEvents behaviour) := by
  obtain ⟨asks, hsession, hcalls⟩ := h
  rcases step?_cases hstep with ⟨f, rest, hfinished, rfl⟩ | ⟨hfinished, ev, hnext, rfl⟩
  · have htaken : { r.session with floor := { r.session.floor with finished := rest } }.Sound e asks
        log := by
      refine ⟨hsession.recalls.of_same rfl rfl (Nat.le_refl _), hsession.fitting, ?_, hsession.asked⟩
      apply hsession.floor.take
      rw [hfinished]
      exact List.sublist_cons_self f rest
    have hf : f.Answers asks r.session.nextGather := by
      apply hsession.floor.finished
      rw [hfinished]
      exact List.mem_cons_self
    obtain ⟨asks', hall, _, hawaits⟩ := sound_receiveAll htaken hpool hf hcalls behaviour
    simp only [stepEvents, hfinished]
    exact ⟨asks', hall, hawaits⟩
  · simp only [stepEvents, hfinished, List.append_nil]
    refine ⟨asks, ⟨?_, hsession.fitting, hsession.floor.happen hnext, hsession.asked⟩, hcalls⟩
    exact hsession.recalls.of_same rfl rfl (Nat.le_max_left _ _)

theorem Sound.move {r q : Run} {events : List Event} (h : r.Sound e log)
    (hpool : e.pool.identities.Nodup) (m : Move r events q) : q.Sound e (log ++ events) := by
  cases m with
  | call behaviour request => exact h.call behaviour request
  | step behaviour hstep => exact h.step hpool hstep
  | wait ms =>
      obtain ⟨asks, hsession, hcalls⟩ := h
      rw [List.append_nil]
      exact ⟨asks, hsession.of_same rfl rfl (Nat.le_add_right _ _) rfl rfl, hcalls⟩
  | purge =>
      obtain ⟨asks, hsession, hcalls⟩ := h
      rw [List.append_nil]
      refine ⟨asks, ⟨hsession.recalls.purge, hsession.fitting, hsession.floor, hsession.asked⟩, hcalls⟩
  | leave hsub =>
      obtain ⟨asks, hsession, hcalls⟩ := h
      rw [List.append_nil]
      exact ⟨asks, hsession, fun c hc => hcalls c (hsub.subset hc)⟩

/-- Runs stay sound. -/
theorem Sound.reach {start r : Run} (hstart : start.Sound e []) (hpool : e.pool.identities.Nodup)
    (h : Reach start log r) : r.Sound e log := by
  induction h with
  | refl => exact hstart
  | move _ m ih => exact ih.move hpool m

end Run

/-! ## Engines that have just been built -/

/-- A pool has no identity twice. -/
theorem Pool.nodup_foldl_addDistinct (bs : List Backend) {backends : List Backend}
    (h : (backends.map Backend.identity).Nodup) :
    ((bs.foldl addDistinct backends).map Backend.identity).Nodup := by
  induction bs generalizing backends with
  | nil => exact h
  | cons b rest ih =>
      apply ih
      unfold addDistinct
      split
      · exact h
      · rename_i hany
        rw [List.map_append]
        refine List.nodup_append.2 ⟨h, List.pairwise_singleton _ _, ?_⟩
        intro i hi j hj hij
        obtain ⟨c, hc, rfl⟩ := List.mem_map.1 hi
        obtain rfl := List.mem_singleton.1 hj
        exact hany (List.any_eq_true.2 ⟨c, hc, beq_iff_eq.2 hij⟩)

theorem Pool.nodup_ofAddresses [Idna] {addresses : List String} {limit : Nat} {p : Pool}
    (h : Pool.ofAddresses addresses limit = .ok p) : p.identities.Nodup := by
  unfold ofAddresses at h
  cases hbs : addresses.mapM (Backend.ofAddress · limit) with
  | error err =>
      rw [hbs] at h
      cases h
  | ok bs =>
      rw [hbs] at h
      cases h
      exact nodup_foldl_addDistinct bs List.nodup_nil

/-- The engine of a configuration has a pool and a search route, and nothing in its caches. -/
theorem Engine.eq_of_ofConfig [Idna] {c : Config} (h : Engine.ofConfig c = .ok e) :
    ∃ pool search, Pool.ofAddresses c.backends c.concurrencyLimit = .ok pool ∧
      searchOf pool c.search = .ok search ∧
      e = { pool := pool, search := search, timeouts := c.timeouts,
            paths := { name := "path", ttl := c.expireDelaySecs * 1000 },
            searches := { name := "search", ttl := c.expireDelaySecs * 1000 } } := by
  unfold ofConfig at h
  cases hpool : Pool.ofAddresses c.backends c.concurrencyLimit with
  | error err =>
      simp only [hpool, bind, Except.bind] at h
      cases h
  | ok pool =>
      cases hsearch : searchOf pool c.search with
      | error err =>
          simp only [hpool, hsearch, bind, Except.bind] at h
          cases h
      | ok search =>
          simp only [hpool, hsearch, bind, Except.bind, pure, Except.pure] at h
          exact ⟨pool, search, rfl, hsearch, (Except.ok.inj h).symm⟩

theorem Engine.nodup_ofConfig [Idna] {c : Config} (h : Engine.ofConfig c = .ok e) :
    e.pool.identities.Nodup ∧ e.paths.entries = [] := by
  obtain ⟨pool, search, hpool, _, rfl⟩ := eq_of_ofConfig h
  exact ⟨Pool.nodup_ofAddresses hpool, rfl⟩

/-- A run of an engine that has just been built is sound. -/
theorem Run.sound_of_reach [Idna] {c : Config} (he : Engine.ofConfig c = .ok e) {r : Run}
    (h : Reach ⟨.ofEngine e, []⟩ log r) : e.pool.identities.Nodup ∧ r.Sound e log := by
  obtain ⟨hpool, hentries⟩ := Engine.nodup_ofConfig he
  refine ⟨hpool, Sound.reach ⟨fun _ => [], ⟨?_, fitting_nil e, ?_, ?_⟩, ?_⟩ hpool h⟩
  · constructor
    case pool => rfl
    case ttl => rfl
    case distinct => simp [Session.ofEngine, TtlCache.Distinct, hentries]
    case entries => simp [Session.ofEngine, TtlCache.Holds, hentries]
    case past => exact fun _ hd => absurd hd List.not_mem_nil
    case peek =>
      intro t _ key
      simp [Session.ofEngine, TtlCache.peek, TtlCache.entry?, hentries, recollect, lastStored?]
  · exact Floor.Sound.ofLimits _ _
  · exact fun p _ _ _ _ hp => absurd hp List.not_mem_nil
  · exact fun _ hc => absurd hc List.not_mem_nil

end MetricFanout
