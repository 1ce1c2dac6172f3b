import MetricFanout.Proofs.Cache.StampedMap
/-!
# What a cache does not show

A cache with a clock and sweepers answers every look-up with what was put last under the key, if that is
young enough. When and by whom expired entries are removed is not to be seen in any answer, nor in the
numbers of hits and misses.

The proof is a simulation of the cache by a map of time stamps, step by step. A sweeper does its work
behind a step, at one time, so its work is a number of purges at that time.
-/

namespace MetricFanout

variable {α : Type}

namespace TtlCache

/-- A look-up counts a hit or a miss. -/
theorem get_counts (c : TtlCache α) (now : Nat) (key : String) :
    ((c.get now key).2.hits, (c.get now key).2.misses) =
      if (c.peek now key).isSome then (c.hits + 1, c.misses) else (c.hits, c.misses + 1) := by
  unfold get peek
  cases c.entry? key with
  | none => rfl
  | some e => cases h : c.live now e <;> simp [h]

end TtlCache

namespace SweptCache

/-- An empty cache, without sweepers, at a time. -/
def fresh (name : String) (ttl now : Nat) : SweptCache α where
  cache := { name := name, ttl := ttl }
  now := now

/-- A cache that cannot be told from a map of time stamps. -/
structure Refines (s : SweptCache α) (m : StampedMap α) : Prop where
  ttl : s.cache.ttl = m.ttl
  now : s.now = m.now
  hits : s.cache.hits = m.hits
  misses : s.cache.misses = m.misses
  distinct : s.cache.Distinct
  peek : ∀ t, s.now ≤ t → ∀ key, s.cache.peek t key = m.peek t key

namespace Refines

variable {s : SweptCache α} {m : StampedMap α}

theorem fresh (name : String) (ttl now : Nat) :
    (SweptCache.fresh name ttl now : SweptCache α).Refines { ttl := ttl, now := now } :=
  ⟨rfl, rfl, rfl, rfl, List.nodup_nil, fun _ _ _ => rfl⟩

/-- A purge is not noticed. -/
theorem purge (h : s.Refines m) : { s with cache := (s.cache.purge s.now).2 }.Refines m where
  ttl := h.ttl
  now := h.now
  hits := h.hits
  misses := h.misses
  distinct := TtlCache.distinct_purge h.distinct s.now
  peek t ht key := (TtlCache.peek_purge h.distinct ht key).trans (h.peek t ht key)

/-- Which sweepers are running is not noticed. -/
theorem of_same (h : s.Refines m) {u : SweptCache α} (hcache : u.cache = s.cache)
    (hnow : u.now = s.now) : u.Refines m where
  ttl := by rw [hcache, h.ttl]
  now := by rw [hnow, h.now]
  hits := by rw [hcache, h.hits]
  misses := by rw [hcache, h.misses]
  distinct := hcache ▸ h.distinct
  peek t ht key := by rw [hcache, h.peek t (hnow ▸ ht) key]

/-- The due work of sweepers is not noticed. -/
theorem settle (h : s.Refines m) : s.settle.Refines m := by
  suffices ∀ (ws : List Sweeper) (u : SweptCache α), u.Refines m →
      (ws.foldl (fun s w => { s with
        cache := (w.run s.now s.cache).1
        sweepers := s.sweepers ++ [(w.run s.now s.cache).2] }) u).Refines m from
    this s.sweepers _ (h.of_same rfl rfl)
  intro ws
  induction ws with
  | nil => exact fun u hu => hu
  | cons w rest ih =>
      intro u hu
      refine ih _ ?_
      simp only [Sweeper.run]
      split
      · exact hu.of_same rfl rfl
      · exact hu.purge.of_same rfl rfl

theorem get (h : s.Refines m) (key : String) :
    { s with cache := (s.cache.get s.now key).2 }.Refines (m.step (.get key)) := by
  have hcounts := s.cache.get_counts s.now key
  rw [h.peek s.now (Nat.le_refl _) key, h.now, h.hits, h.misses] at hcounts
  have hsame : ∀ t k, (m.step (.get key)).peek t k = m.peek t k := by
    intro t k
    simp only [StampedMap.step]
    split <;> rfl
  constructor
  case ttl => rw [StampedMap.step_ttl, TtlCache.get_ttl, h.ttl]
  case now => rw [StampedMap.step_now, h.now]; rfl
  case hits =>
    simp only [StampedMap.step, h.now]
    split at hcounts <;> simp_all
  case misses =>
    simp only [StampedMap.step, h.now]
    split at hcounts <;> simp_all
  case distinct => exact TtlCache.distinct_get h.distinct s.now key
  case peek =>
    intro t ht k
    rw [hsame, ← h.peek t ht k]
    exact s.cache.peek_get ht key k

theorem put [Weigh α] (h : s.Refines m) (key : String) (v : α) :
    { s with cache := s.cache.put s.now key v }.Refines (m.step (.put key v)) where
  ttl := h.ttl
  now := h.now
  hits := h.hits
  misses := h.misses
  distinct := TtlCache.distinct_put h.distinct s.now key v
  peek t ht k := by
    have hpeek : (m.step (.put key v)).peek t k =
        if k = key then (if t - m.now < m.ttl then some v else none) else m.peek t k := by
      simp only [StampedMap.step, StampedMap.peek]
      split <;> rfl
    rw [hpeek, TtlCache.peek_put, h.peek t ht k, h.now, h.ttl]

theorem advance (h : s.Refines m) (ms : Nat) :
    { s with now := s.now + ms }.Refines (m.step (.advance ms)) :=
  { h with
    now := congrArg (· + ms) h.now
    peek := fun t ht key => h.peek t (Nat.le_trans (Nat.le_add_right _ _) ht) key }

/-- A step of the cache is one of the map. -/
theorem step [Weigh α] (h : s.Refines m) (t : Step α) : (s.step t).2.Refines (m.step t) := by
  refine settle ?_
  cases t with
  | get key => exact h.get key
  | put key v => exact h.put key v
  | purge => exact h.purge
  | advance ms => exact h.advance ms
  | sweep interval => exact h.of_same rfl rfl
  | stop => exact h.of_same rfl rfl

/-- Cache and map answer the same. -/
theorem answer [Weigh α] (h : s.Refines m) (key : String) :
    (s.step (.get key)).1 = m.answer key := by
  have hpeek : (s.cache.get s.now key).1 = m.peek m.now key := by
    rw [TtlCache.get_eq_peek, h.peek s.now (Nat.le_refl _) key, h.now]
  rw [StampedMap.answer, ← hpeek]
  rfl

end Refines

/-! ## Runs -/

variable [Weigh α]

/-- The cache after steps. -/
def run (s : SweptCache α) (steps : List (Step α)) : SweptCache α :=
  steps.foldl (fun s t => (s.step t).2) s

/-- What the look-ups among steps answer, in order. -/
def answers (s : SweptCache α) : List (Step α) → List (Result α)
  | [] => []
  | .get key :: rest => (s.step (.get key)).1 :: answers (s.step (.get key)).2 rest
  | t :: rest => answers (s.step t).2 rest

theorem Refines.run {s : SweptCache α} {m : StampedMap α} (h : s.Refines m) (steps : List (Step α)) :
    (s.run steps).Refines (m.run steps) := by
  induction steps generalizing s m with
  | nil => exact h
  | cons t rest ih => exact ih (h.step t)

theorem Refines.answers {s : SweptCache α} {m : StampedMap α} (h : s.Refines m)
    (steps : List (Step α)) : s.answers steps = m.answers steps := by
  induction steps generalizing s m with
  | nil => rfl
  | cons t rest ih =>
      have hrest := ih (h.step t)
      cases t with
      | get key =>
          rw [SweptCache.answers, StampedMap.answers, h.answer key, hrest]
      | put key v => exact hrest
      | advance ms => exact hrest
      | purge => exact hrest
      | sweep interval => exact hrest
      | stop => exact hrest

/-- A look-up behind any steps answers the last put of its key, if that is younger than the life time, and
nothing otherwise. So it depends only on what was put and on the time that has passed; and purges,
sweepers and stop signals among the steps change neither any answer nor the numbers of hits and
misses. -/
theorem answers_last_put (name : String) (ttl start : Nat) :
    (∀ (steps : List (Step α)) (key : String),
      (∀ v, (((fresh name ttl start).run steps).step (.get key)).1 = .value v ↔
        Step.LastPut ttl key v steps) ∧
      ((((fresh name ttl start).run steps).step (.get key)).1 = .nothing ↔
        ∀ v, ¬ Step.LastPut ttl key v steps)) ∧
    (∀ (steps others : List (Step α)) (key : String),
      steps.filter Step.isWrite = others.filter Step.isWrite →
        (((fresh name ttl start).run steps).step (.get key)).1 =
          (((fresh name ttl start).run others).step (.get key)).1) ∧
    (∀ steps others : List (Step α),
      (steps.filter fun t => !t.isUpkeep) = (others.filter fun t => !t.isUpkeep) →
        (fresh name ttl start).answers steps = (fresh name ttl start).answers others ∧
        ((fresh name ttl start).run steps).cache.hits =
          ((fresh name ttl start).run others).cache.hits ∧
        ((fresh name ttl start).run steps).cache.misses =
          ((fresh name ttl start).run others).cache.misses) := by
  have hstart := Refines.fresh (α := α) name ttl start
  refine ⟨fun steps key => ?_, fun steps others key h => ?_, fun steps others h => ?_⟩
  · rw [(hstart.run steps).answer key]
    let map : StampedMap α := { ttl := ttl, now := start }
    have hlast : ∀ v, (map.run steps).peek (map.run steps).now key = some v ↔
        Step.LastPut ttl key v steps := fun _ => StampedMap.peek_run_eq_some_iff rfl
    refine ⟨fun v => StampedMap.answer_eq_value.trans (hlast v), ?_⟩
    rw [StampedMap.answer_eq_nothing, Option.eq_none_iff_forall_ne_some]
    exact forall_congr' fun v => not_congr (hlast v)
  · rw [(hstart.run steps).answer key, (hstart.run others).answer key,
      ← StampedMap.answer_uncounted, ← StampedMap.answer_uncounted (StampedMap.run _ others),
      StampedMap.uncounted_run, StampedMap.uncounted_run, h]
  · have hsteps := hstart.run steps
    have hothers := hstart.run others
    rw [← StampedMap.run_filter_upkeep] at hsteps hothers
    rw [h] at hsteps
    refine ⟨?_, hsteps.hits.trans hothers.hits.symm, hsteps.misses.trans hothers.misses.symm⟩
    rw [hstart.answers, hstart.answers, ← StampedMap.answers_filter_upkeep, h,
      StampedMap.answers_filter_upkeep]

/-- A value that is looked up while it is young enough, and then just when it is not. -/
def briefly : List (Step String) :=
  [.put "k" "v", .advance 30, .get "k", .advance 30, .get "k"]

/-- The same beside a sweeper, with a purge and another look-up. -/
def brieflySwept : List (Step String) :=
  [.sweep 20, .put "k" "v", .get "other", .advance 30, .purge, .get "k", .advance 30, .stop, .get "k"]

theorem answers_last_put_briefly :
    (((fresh "c" 60 0).run briefly).step (.get "k")).1 = .nothing ∧
    (((fresh "c" 60 0).run brieflySwept).step (.get "k")).1 = .nothing ∧
    (fresh "c" 60 0).answers (brieflySwept.eraseIdx 2) = [.value "v", .nothing] ∧
    ((fresh "c" 60 0).run (brieflySwept.eraseIdx 2)).cache.hits = 1 ∧
    ((fresh "c" 60 0).run (brieflySwept.eraseIdx 2)).cache.misses = 1 := by
  obtain ⟨_, hwrites, hupkeep⟩ := answers_last_put (α := String) "c" 60 0
  obtain ⟨hanswers, hhits, hmisses⟩ := hupkeep (brieflySwept.eraseIdx 2) briefly rfl
  have hget := hwrites brieflySwept briefly "k" rfl
  exact ⟨rfl, hget.trans rfl, hanswers.trans rfl, hhits.trans rfl, hmisses.trans rfl⟩

end SweptCache

end MetricFanout
