import MetricFanout.Proofs.Engine.Recall
/-!
# Path caches that recall a history

The path cache of a session recalls a history if it answers from now on what the history says, and if its
entries are like those of the finds in it. Looking up, remembering and purging keep this.

A find is remembered by many puts. What holds of a path cache before, and is kept by each put of something
that the find stores, holds afterwards.
-/

namespace MetricFanout

/-- The identities of the backends of a pool. -/
def Pool.identities (p : Pool) : List String := p.backends.map Backend.identity

/-- What an entry of a path cache is like: distinct matches, and distinct backends of the pool. -/
structure CachedFind.IsFrom (pool : Pool) (c : CachedFind) : Prop where
  found : c.found ≠ []
  paths : (c.found.map Match.path).Nodup
  backends : c.backends ≠ []
  nodup : c.backends.Nodup
  known : ∀ b ∈ c.backends, b ∈ pool.identities

/-- What the pool's backends replied to is stored with backends of the pool. -/
theorem Harvest.isFrom_stored {pool : Pool} (hpool : pool.identities.Nodup) {h : Harvest}
    (hreplies : (h.replies.map Reply.backend).Perm pool.identities) {key : String} {c : CachedFind}
    (hc : h.stored? key = some c) : c.IsFrom pool := by
  have hnodup : (h.replies.map Reply.backend).Nodup := hreplies.symm.nodup hpool
  have hsub : ∀ p : Reply (List Match) → Bool,
      ((h.replies.filter p).map Reply.backend).Sublist (h.replies.map Reply.backend) :=
    fun p => List.filter_sublist.map _
  obtain ⟨hfound, ⟨_, rfl⟩ | ⟨_, x, hx, rfl, rfl⟩⟩ := stored?_cases hc
  · constructor
    case found => exact hfound
    case paths => exact FindMerge.nodup_found h.replies
    case backends => exact FindMerge.responders_ne_nil hfound
    case nodup =>
      rw [merged, FindMerge.merged_responders]
      exact hnodup.sublist (hsub _)
    case known =>
      rw [merged, FindMerge.merged_responders]
      exact fun b hb => hreplies.mem_iff.1 ((hsub _).subset hb)
  · constructor
    case found => exact List.cons_ne_nil _ _
    case paths => exact List.pairwise_singleton _ _
    case backends => exact FindMerge.holders_ne_nil hx
    case nodup =>
      rw [merged, FindMerge.merged_holders hnodup]
      exact hnodup.sublist (hsub _)
    case known =>
      rw [merged, FindMerge.merged_holders hnodup]
      exact fun b hb => hreplies.mem_iff.1 ((hsub _).subset hb)

namespace Engine

variable {e : Engine} {P : CachedFind → Prop}

/-- A find is remembered by putting what it stores, one after the other. -/
theorem remember_induction (e : Engine) (h : Harvest) {P : TtlCache CachedFind → Prop}
    (hstart : P e.paths)
    (hput : ∀ c key v, h.stored? key = some v → P c → P (c.put h.time key v)) :
    P (e.remember h.time h.query h.merged).paths := by
  unfold remember
  split
  · exact hstart
  · rename_i hne
    have hfound : h.merged.found ≠ [] := by simpa using hne
    have hfirst := hput e.paths h.query _ (Harvest.stored?_query hfound) hstart
    have hrest : ∀ x ∈ h.merged.found.filter (fun x => x.path != h.query),
        h.stored? x.path = some ⟨[x], h.merged.holdersOf x.path⟩ := by
      intro x hx
      obtain ⟨hx, hquery⟩ := List.mem_filter.1 hx
      exact Harvest.stored?_path hx (by simpa using hquery)
    -- After the put under the query, the others go through the matches with another path.
    generalize h.merged.found.filter (fun x => x.path != h.query) = xs at hrest
    generalize e.paths.put h.time h.query ⟨h.merged.found, h.merged.responders⟩ = c at hfirst
    induction xs generalizing c with
    | nil => exact hfirst
    | cons x rest ih =>
        obtain ⟨hx, hrest⟩ := List.forall_mem_cons.1 hrest
        apply ih hrest
        exact hput c x.path _ hx hfirst

/-- What is remembered is what is stored. -/
theorem holds_remember (he : e.paths.Holds P) {h : Harvest}
    (hP : ∀ key c, h.stored? key = some c → P c) :
    (e.remember h.time h.query h.merged).paths.Holds P := by
  apply remember_induction (P := fun c => c.Holds P) e h he
  intro c key v hv hc
  exact TtlCache.holds_put hc h.time key (hP key v hv)

theorem distinct_remember (he : e.paths.Distinct) (h : Harvest) :
    (e.remember h.time h.query h.merged).paths.Distinct := by
  apply remember_induction (P := TtlCache.Distinct) e h he
  intro c key v _ hc
  exact TtlCache.distinct_put hc h.time key v

theorem ttl_remember (e : Engine) (h : Harvest) :
    (e.remember h.time h.query h.merged).paths.ttl = e.paths.ttl := by
  apply remember_induction (P := fun c => c.ttl = e.paths.ttl) e h rfl
  intro c key v _ hc
  exact hc

theorem pool_remember (e : Engine) (now : Nat) (query : String) (m : FindMerge) :
    (e.remember now query m).pool = e.pool := by
  unfold remember
  split <;> rfl

end Engine

/-! ## The path cache and the history -/

/-- The path cache of a session recalls a history. -/
structure Session.Recalls (e : Engine) (log : List Event) (s : Session) : Prop where
  pool : s.engine.pool = e.pool
  ttl : s.engine.paths.ttl = e.paths.ttl
  distinct : s.engine.paths.Distinct
  entries : s.engine.paths.Holds (CachedFind.IsFrom e.pool)
  past : ∀ h, Event.harvest h ∈ log → h.time ≤ s.now
  peek : ∀ t, s.now ≤ t → ∀ key, s.engine.paths.peek t key = recollect e.paths.ttl log t key

namespace Session.Recalls

variable {e : Engine} {log : List Event} {s q : Session}

/-- What a look-up answers is an entry. -/
theorem isFrom_of_get (h : s.Recalls e log) {key : String} {c : CachedFind}
    (hget : (s.engine.paths.get s.now key).1 = some c) : c.IsFrom e.pool := by
  rw [TtlCache.get_eq_peek] at hget
  exact TtlCache.holds_peek h.entries hget

/-- What does not touch the path cache may take time. -/
theorem of_same (h : s.Recalls e log) (hpool : q.engine.pool = s.engine.pool)
    (hpaths : q.engine.paths = s.engine.paths) (hnow : s.now ≤ q.now) : q.Recalls e log := by
  constructor
  case pool => exact hpool.trans h.pool
  case ttl => rw [hpaths, h.ttl]
  case distinct => rw [hpaths]; exact h.distinct
  case entries => rw [hpaths]; exact h.entries
  case past => exact fun d hd => Nat.le_trans (h.past d hd) hnow
  case peek =>
    intro t ht key
    rw [hpaths]
    exact h.peek t (Nat.le_trans hnow ht) key

/-- A look-up that starts a call. -/
theorem look (h : s.Recalls e log) (hpool : q.engine.pool = s.engine.pool) (hnow : q.now = s.now)
    (key : String) (hpaths : q.engine.paths = (s.engine.paths.get s.now key).2)
    (behaviour : Behaviour) (deadline : Nat) (r : Request) :
    q.Recalls e (log ++ [.start s behaviour deadline r]) := by
  constructor
  case pool => exact hpool.trans h.pool
  case ttl => rw [hpaths, TtlCache.get_ttl, h.ttl]
  case distinct => rw [hpaths]; exact TtlCache.distinct_get h.distinct s.now key
  case entries => rw [hpaths]; exact TtlCache.holds_get h.entries s.now key
  case past =>
    intro d hd
    cases List.mem_append.1 hd with
    | inl hd =>
        rw [hnow]
        exact h.past d hd
    | inr hd => cases List.mem_singleton.1 hd
  case peek =>
    intro t ht k
    rw [hnow] at ht
    rw [hpaths, TtlCache.peek_get _ ht, h.peek t ht, recollect, recollect, lastStored?_snoc]
    rfl

/-- A find is over, and what it found is remembered. -/
theorem harvest (h : s.Recalls e log) (hpool : e.pool.identities.Nodup) {d : Harvest}
    (hreplies : (d.replies.map Reply.backend).Perm e.pool.identities) (htime : d.time = s.now)
    (hq : q.engine = s.engine.remember d.time d.query d.merged) (hnow : q.now = s.now) :
    q.Recalls e (log ++ [.harvest d]) := by
  constructor
  case pool => rw [hq, Engine.pool_remember, h.pool]
  case ttl => rw [hq, Engine.ttl_remember, h.ttl]
  case distinct => rw [hq]; exact Engine.distinct_remember h.distinct d
  case entries =>
    rw [hq]
    exact Engine.holds_remember h.entries fun key c hc => Harvest.isFrom_stored hpool hreplies hc
  case past =>
    intro d' hd'
    rw [hnow]
    cases List.mem_append.1 hd' with
    | inl hd' => exact h.past d' hd'
    | inr hd' =>
        cases List.mem_singleton.1 hd'
        exact Nat.le_of_eq htime
  case peek =>
    intro t ht key
    rw [hnow] at ht
    rw [hq, Engine.peek_remember, h.peek t ht, h.ttl, recollect, recollect, lastStored?_snoc]
    cases hs : d.stored? key with
    | none => simp [Event.stored?, hs]
    | some c => simp [Event.stored?, hs]

theorem purge (h : s.Recalls e log) : s.purge.2.Recalls e log := by
  constructor
  case pool => exact h.pool
  case ttl => exact h.ttl
  case distinct => exact TtlCache.distinct_purge h.distinct s.now
  case entries => exact TtlCache.holds_purge h.entries s.now
  case past => exact h.past
  case peek =>
    intro t ht key
    rw [← h.peek t ht key]
    exact TtlCache.peek_purge h.distinct ht key

end Session.Recalls

end MetricFanout
