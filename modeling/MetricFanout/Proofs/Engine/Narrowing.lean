import MetricFanout.Proofs.Engine.Reach
/-!
# Narrowing

A render or an info whose subject is in the path cache asks the backends that the entry lists, and no
other. The pool selects backends by their identities and falls back on all of them if none is left; an
entry always lists some backend of the pool, so that this never happens.

What was asked in a run is read off the floor: a request goes out as an errand, which says under which
number it was gathered and what it is.
-/

namespace MetricFanout

/-- The backends of a pool that an entry lists, in the pool's order. -/
def CachedFind.listed (c : CachedFind) (pool : Pool) : List Backend :=
  pool.backends.filter fun b => b.identity ∈ c.backends

namespace CachedFind

variable {pool : Pool} {c : CachedFind}

theorem map_listed (c : CachedFind) (pool : Pool) :
    (c.listed pool).map Backend.identity = pool.identities.filter (· ∈ c.backends) := by
  rw [Pool.identities, List.filter_map]
  rfl

/-- Every backend of an entry is found in the pool. -/
theorem IsFrom.listed_perm (h : c.IsFrom pool) (hpool : pool.identities.Nodup) :
    ((c.listed pool).map Backend.identity).Perm c.backends := by
  rw [map_listed]
  apply (List.perm_ext_iff_of_nodup (hpool.filter _) h.nodup).2
  intro i
  rw [List.mem_filter, decide_eq_true_eq]
  constructor
  · intro hi
    exact hi.2
  · intro hi
    exact ⟨h.known i hi, hi⟩

theorem IsFrom.listed_ne_nil (h : c.IsFrom pool) (hpool : pool.identities.Nodup) :
    c.listed pool ≠ [] := by
  intro hnil
  have hperm := h.listed_perm hpool
  rw [hnil] at hperm
  exact h.backends hperm.symm.eq_nil

/-- The selection does not fall back on the whole pool. -/
theorem IsFrom.select (h : c.IsFrom pool) (hpool : pool.identities.Nodup) :
    pool.select c.backends = c.listed pool := by
  have hsame : (pool.backends.filter fun b => c.backends.contains b.identity) = c.listed pool := by
    apply List.filter_congr
    intro b _
    exact List.contains_eq_mem _ _
  have hne : (c.listed pool).isEmpty = false := by simpa using h.listed_ne_nil hpool
  simp only [Pool.select, hsame, hne, Bool.false_eq_true, if_false]

end CachedFind

/-- A render or an info asks a selection of the pool when its subject is in the path cache. -/
theorem Engine.consult_of_hit {e : Engine} {now : Nat} {r : Request} {c : CachedFind}
    (hr : r.operation ≠ .find) (hhit : (e.paths.get now r.key).1 = some c) :
    (e.consult now r).1 = .ask (e.pool.select c.backends) := by
  cases r with
  | find query => exact absurd rfl hr
  | render target since upTo => simp only [consult, hhit]
  | info target => simp only [consult, hhit]

/-- A call that starts in a session is narrowed to what an entry lists, up to a later session. -/
structure Session.Narrows (s : Session) (pool : Pool) (behaviour : Behaviour) (deadline : Nat)
    (r : Request) (c : CachedFind) (later : Session) : Prop where
  /-- The pool selects what is listed, which is every backend of the entry and not nothing. -/
  select : pool.select c.backends = c.listed pool
  listed : ((c.listed pool).map Backend.identity).Perm c.backends
  listed_ne_nil : c.listed pool ≠ []
  /-- These are the targets of a gathering that begins. -/
  starts : s.startPlain behaviour deadline r =
    (.waiting r s.nextGather (s.engine.consult s.now r).2.1,
      { s.looked r with
        floor := s.floor.begin behaviour.network s.now s.nextGather s.engine.timeouts.afterStartedMs
          deadline (s.targetsOf r (c.listed pool))
        nextGather := s.nextGather + 1 })
  /-- Nobody else is asked later. -/
  errands : ∀ d ∈ later.floor.errands, d.gather = s.nextGather →
    d.subject.request = r ∧ d.subject.backend ∈ c.listed pool
  /-- And nobody else is heard. -/
  finished : ∀ f ∈ later.floor.finished, f.gather = s.nextGather →
    (f.replies.map Reply.backend).Perm c.backends

/-- In every run of an engine that has just been built, the entries of the path cache list distinct
matches and distinct backends of the pool, and a render or an info whose subject is in the path cache
asks the backends of its entry, in the pool's order, and no other. -/
theorem Run.narrows_of_hit [Idna] {c : Config} {e : Engine} (he : Engine.ofConfig c = .ok e)
    {log : List Event} {r : Run} (h : Reach ⟨.ofEngine e, []⟩ log r) :
    r.session.engine.paths.Holds (CachedFind.IsFrom e.pool) ∧
      ∀ s behaviour deadline req, Event.start s behaviour deadline req ∈ log →
        s.engine.paths.Holds (CachedFind.IsFrom e.pool) ∧
        ∀ cached, req.operation ≠ .find → (s.engine.paths.get s.now req.key).1 = some cached →
          cached.IsFrom e.pool ∧ s.Narrows e.pool behaviour deadline req cached r.session := by
  obtain ⟨hpool, asks, hsound, _⟩ := sound_of_reach he h
  refine ⟨hsound.recalls.entries, ?_⟩
  intro s behaviour deadline req hstart
  obtain ⟨pre, post, hlog⟩ := List.append_of_mem hstart
  have hs : s.Recalls e pre := hsound.fitting pre _ post hlog
  refine ⟨hs.entries, ?_⟩
  intro cached hreq hhit
  have hfrom : cached.IsFrom e.pool := hs.isFrom_of_get hhit
  have hask : (s.engine.consult s.now req).1 = .ask (cached.listed e.pool) := by
    rw [Engine.consult_of_hit hreq hhit, hs.pool, hfrom.select hpool]
  obtain ⟨_, hasked⟩ := hsound.asked s behaviour deadline req _ hstart hask
  refine ⟨hfrom, ?_⟩
  constructor
  case select => exact hfrom.select hpool
  case listed => exact hfrom.listed_perm hpool
  case listed_ne_nil => exact hfrom.listed_ne_nil hpool
  case starts => exact Session.startPlain_of_ask s behaviour deadline hask
  case errands =>
    intro d hd hgather
    obtain ⟨_, t, ht, hsubject⟩ := hsound.floor.errands d hd
    rw [hgather, hasked] at ht
    obtain ⟨b, hb, rfl⟩ := List.mem_map.1 (List.mem_of_getElem? ht)
    rw [← hsubject]
    exact ⟨rfl, hb⟩
  case finished =>
    intro f hf hgather
    obtain ⟨_, hreplies⟩ := hsound.floor.finished f hf
    rw [hgather, hasked, Session.names_targetsOf] at hreplies
    exact hreplies.trans (hfrom.listed_perm hpool)

/-! ## Two backends -/

open Program

namespace Pair

/-- Two backends that serve any number of requests. -/
def config : Config := { backends := ["a:1", "b:2"] }

/-- Their engine. -/
def engine : Engine where
  pool := ⟨[⟨⟨.http, [], [], .domain ['a'], some 1, {}, none, none⟩, "http://a:1", 0⟩,
    ⟨⟨.http, [], [], .domain ['b'], some 2, {}, none, none⟩, "http://b:2", 0⟩], 0⟩
  search := none
  timeouts := {}
  paths := { name := "path", ttl := 600000 }
  searches := { name := "search", ttl := 600000 }

theorem ofConfig_config : Engine.ofConfig config = .ok engine := by
  have hpool : Pool.ofAddresses config.backends config.concurrencyLimit = .ok engine.pool := by
    decide +kernel
  simp only [Engine.ofConfig, hpool]
  rfl

/-- The first backend knows a leaf, and the second one nothing. -/
def behaviour : Behaviour := fun a =>
  if a.backend.identity = "http://a:1" ∧ a.request = .find "a*" then
    some (5, .answer 200 (Utf8.ofString "[\"\",[[\"a\",true]]]") true)
  else some (7, .answer 404 [] true)

/-- What is asked at first. -/
def asked : Run :=
  ⟨(Call.start (.ofEngine engine) behaviour (.find "a*")).2,
    [(Call.start (.ofEngine engine) behaviour (.find "a*")).1]⟩

/-- The leaf was found. -/
def found : Run := asked.steps behaviour 3

theorem reach_found : ∃ log, Run.Reach ⟨.ofEngine engine, []⟩ log found := by
  have hasked : Run.Reach ⟨.ofEngine engine, []⟩ _ asked :=
    .move .refl (.call ⟨.ofEngine engine, []⟩ behaviour (.find "a*"))
  obtain ⟨log, hfound⟩ := Run.reach_steps behaviour 3 asked
  exact ⟨_, hasked.trans hfound⟩

theorem get_found : (found.session.engine.paths.get found.session.now "a").1 =
    some ⟨[⟨"a", true⟩], ["http://a:1"]⟩ := by decide +kernel

theorem search_found : found.session.engine.search = none := by
  have hnone : found.session.engine.search.isNone = true := by decide +kernel
  exact Option.isNone_iff_eq_none.1 hnone

/-- Anything may be asked next. -/
theorem reach_next (r : Request) : ∃ log q, Run.Reach ⟨.ofEngine engine, []⟩
    (log ++ [.start found.session behaviour 10007 r]) q := by
  obtain ⟨log, hfound⟩ := reach_found
  have hcall := hfound.move (.call found behaviour r)
  have hdeadline : found.session.now + found.session.engine.timeouts.globalMs = 10007 := by
    decide +kernel
  have hevents : found.session.enterEvents behaviour 10007 r =
      [.start found.session behaviour 10007 r] := by
    have hroute : found.session.engine.route r = .plain := by
      cases r <;> simp only [Engine.route, search_found, routeFind, routeRender]
    simp only [Session.enterEvents, hroute]
  rw [hdeadline, hevents] at hcall
  exact ⟨log, _, hcall⟩

end Pair

/-- A render of the leaf that was found only asks the first of two backends. -/
theorem Run.narrows_of_hit_pair : ∃ log r, Reach ⟨.ofEngine Pair.engine, []⟩ log r ∧
    Event.start Pair.found.session Pair.behaviour 10007 (.render "a" 0 60) ∈ log ∧
    Pair.found.session.Narrows Pair.engine.pool Pair.behaviour 10007 (.render "a" 0 60)
      ⟨[⟨"a", true⟩], ["http://a:1"]⟩ r.session := by
  obtain ⟨log, q, hnext⟩ := Pair.reach_next (.render "a" 0 60)
  have hstart : Event.start Pair.found.session Pair.behaviour 10007 (.render "a" 0 60) ∈
      log ++ [.start Pair.found.session Pair.behaviour 10007 (.render "a" 0 60)] :=
    List.mem_append_right _ (List.mem_singleton_self _)
  refine ⟨_, q, hnext, hstart, ?_⟩
  exact (((narrows_of_hit Pair.ofConfig_config hnext).2 _ _ _ _ hstart).2 _ (by decide)
    Pair.get_found).2

end MetricFanout
