import MetricFanout.Proofs.Engine.Stages
/-!
# What calls leave in the caches

Only useful results change what the caches answer. A find that was put to the pool and found something is
answered from then on under its query and under the paths of what it found; a search that resolved to some
leaves is known under its query; and apart from that, a look-up at any later time answers what it would
answer without the call.

What would be there without the call is what the rest of the trail makes of the caches. A call that is alone
has no rest, so that the comparison is with the caches before it. Expired entries that are removed by the
call are not missed, because only later look-ups are compared.
-/

namespace MetricFanout

namespace Harvest

/-- The keys under which a find is stored: its query, and the paths of what was found, if anything was. -/
def Covers (h : Harvest) (key : String) : Prop :=
  h.merged.found ≠ [] ∧ (key = h.query ∨ ∃ x ∈ h.merged.found, x.path = key)

theorem covers_iff {h : Harvest} {key : String} :
    h.Covers key ↔ ∃ c, h.stored? key = some c := by
  constructor
  · rintro ⟨hfound, rfl | ⟨x, hx, rfl⟩⟩
    · exact ⟨_, stored?_query hfound⟩
    · by_cases hquery : x.path = h.query
      · rw [hquery]
        exact ⟨_, stored?_query hfound⟩
      · exact ⟨_, stored?_path hx hquery⟩
  · rintro ⟨c, hc⟩
    obtain ⟨hfound, ⟨hkey, _⟩ | ⟨_, x, hx, hpath, _⟩⟩ := stored?_cases hc
    · exact ⟨hfound, .inl hkey⟩
    · exact ⟨hfound, .inr ⟨x, hx, hpath⟩⟩

/-- A find that has failed or found nothing has nothing to store. -/
theorem found_of_result {h : Harvest} (hnothing : (∃ err, h.result = .error err) ∨
    ∃ x, h.result = .ok x ∧ x.found? = []) : h.merged.found = [] := by
  unfold result at hnothing
  cases hmerge : mergeFind h.replies with
  | error err => exact Engine.found_of_error hmerge
  | ok m =>
      rw [hmerge] at hnothing
      rw [merged, ← FindMerge.merged_of_mergeFind hmerge]
      rcases hnothing with ⟨err, herr⟩ | ⟨x, hx, hfound⟩
      · cases herr
      · cases hx
        exact hfound

end Harvest

/-! ## Finds without a result -/

theorem firsts_eq_nil_iff {α : Type} [Keyed α] {items : List α} : firsts items = [] ↔ items = [] := by
  cases items <;> simp [firsts]

/-- If a union of finds is an error or empty, so are its parts. -/
theorem CallResult.parts_of_unite {results : List (Except CallError CallResult)}
    (h : (∃ err, unite .find results = .error err) ∨ unite .find results = .ok (.found []))
    {result : Except CallError CallResult} (hresult : result ∈ results) :
    (∃ err, result = .error err) ∨ ∃ x, result = .ok x ∧ x.found? = [] := by
  cases result with
  | error err => exact .inl ⟨err, rfl⟩
  | ok x =>
      refine .inr ⟨x, rfl, ?_⟩
      have hx : x ∈ results.filterMap Except.toOption := List.mem_filterMap.2 ⟨_, hresult, rfl⟩
      unfold unite at h
      cases hsuccesses : results.filterMap Except.toOption with
      | nil =>
          rw [hsuccesses] at hx
          cases hx
      | cons success rest =>
          rw [hsuccesses] at h hx
          rcases h with ⟨err, herr⟩ | hempty
          · cases herr
          · have hnone : firsts ((success :: rest).flatMap found?) = [] :=
              CallResult.found.inj (Except.ok.inj hempty)
            exact List.flatMap_eq_nil_iff.1 (firsts_eq_nil_iff.1 hnone) x hx

/-- If a find has come to an error or to nothing, so have its sub-calls. -/
theorem Call.parts_of_result {c : Call} {result : Except CallError CallResult} {stats : Stats}
    (hresult : c.result? = some (result, stats)) (hop : c.request.operation = .find)
    (hnothing : (∃ err, result = .error err) ∨ result = .ok (.found []))
    {part : Except CallError CallResult} {stats' : Stats}
    (hpart : .done part stats' ∈ c.stage.branches) :
    (∃ err, part = .error err) ∨ ∃ x, part = .ok x ∧ x.found? = [] := by
  unfold result? at hresult
  cases hstage : c.stage with
  | completing id => rw [hstage] at hpart; cases hpart
  | resolving id => rw [hstage] at hpart; cases hpart
  | ended outcome => rw [hstage] at hpart; cases hpart
  | plain b =>
      rw [hstage] at hpart hresult
      obtain rfl := List.mem_singleton.1 hpart
      cases hresult
      exact hnothing.imp id fun h => ⟨_, h, rfl⟩
  | leaves bs =>
      rw [hstage] at hpart hresult
      obtain ⟨rs, hrs, hpair⟩ := Option.map_eq_some_iff.1 hresult
      cases hpair
      have hbs : Branch.done part stats' ∈ rs.map fun r => Branch.done r.1 r.2 := by
        rw [← Branch.eq_of_mapM_result? hrs]
        exact hpart
      obtain ⟨x, hx, hsame⟩ := List.mem_map.1 hbs
      cases hsame
      rw [CallResult.join_eq_unite, hop] at hnothing
      exact CallResult.parts_of_unite hnothing (List.mem_map_of_mem hx)

/-- A call that has ended waits for nothing. -/
theorem Call.not_waiting_of_result {c : Call} {result : Except CallError CallResult} {stats : Stats}
    (h : c.result? = some (result, stats)) {r : Request} {id : Nat} {stats' : Stats} :
    .waiting r id stats' ∉ c.stage.branches := by
  intro hb
  have hnone := c.isSome_result?.1 (by rw [h]; rfl)
  unfold awaited at hnone
  cases hstage : c.stage with
  | completing id => rw [hstage] at hb; cases hb
  | resolving id => rw [hstage] at hb; cases hb
  | ended outcome => rw [hstage] at hb; cases hb
  | plain b =>
      rw [hstage] at hb hnone
      obtain rfl := List.mem_singleton.1 hb
      cases hnone
  | leaves bs =>
      rw [hstage] at hb hnone
      exact nomatch List.flatMap_eq_nil_iff.1 hnone _ hb

theorem Mark.found_ne_nil {m : Mark} {time : Nat} {key : String} {value : CachedFind}
    (h : .put time key value ∈ m.paths) : value.found ≠ [] := by
  cases m with
  | store x =>
      obtain ⟨k, c, hc, hsame⟩ := Harvest.mem_puts.1 h
      cases hsame
      obtain ⟨hfound, ⟨_, rfl⟩ | ⟨_, y, _, _, rfl⟩⟩ := Harvest.stored?_cases hc
      · exact hfound
      · exact List.cons_ne_nil _ _
  | look t k hit => cases List.mem_singleton.1 h
  | purge t => cases List.mem_singleton.1 h
  | seek t query hit => cases h
  | keep t query leaves => cases h
  | send d => cases h

/-! ## With and without the call -/

/-- Own marks that put nothing under a key may be left out of a trail. -/
theorem peek_otherMarks {α : Type} [Weigh α] {touches : Mark → List (Touch α)} {c : TtlCache α}
    (hc : c.Distinct) {log : List Footprint} {t : Nat}
    (ht : ∀ m ∈ allMarks log, ∀ x ∈ touches m, x.time ≤ t) {key : String}
    (hkey : ∀ m ∈ ownMarks log, ∀ x ∈ touches m, x.put? key = none) :
    (c.after ((allMarks log).flatMap touches)).peek t key =
      (c.after ((otherMarks log).flatMap touches)).peek t key := by
  have hpast : ∀ marks : List Mark, marks ⊆ allMarks log →
      ∀ x ∈ marks.flatMap touches, x.time ≤ t := by
    intro marks hsub x hx
    obtain ⟨m, hm, hx⟩ := List.mem_flatMap.1 hx
    exact ht m (hsub hm) x hx
  refine TtlCache.peek_after_congr hc (hpast _ (List.Subset.refl _))
    (hpast _ otherMarks_sublist.subset) ?_
  rw [allMarks, otherMarks, List.flatMap_map, List.flatMap_map]
  refine (Touch.lastPut?_flatMap_filter fun x hx hown => ?_).symm
  apply hkey
  exact List.mem_map.2 ⟨x, List.mem_filter.2 ⟨hx, by simpa using hown⟩, rfl⟩

namespace Watch

/-- From now on the path cache answers for a key what it would answer without the call. -/
def SparesPath (r : Run) (log : List Footprint) (w : Watch) (key : String) : Prop :=
  ∀ t, w.session.now ≤ t → (w.session.engine.paths.get t key).1 =
    ((r.session.engine.paths.after ((otherMarks log).flatMap Mark.paths)).get t key).1

/-- From now on the search cache answers for a query what it would answer without the call. -/
def SparesSearch (r : Run) (log : List Footprint) (w : Watch) (query : String) : Prop :=
  ∀ t, w.session.now ≤ t → (w.session.engine.searches.get t query).1 =
    ((r.session.engine.searches.after ((otherMarks log).flatMap Mark.searches)).get t query).1

section Spares

variable {may : Session → Nat → Prop} {r : Run} {behaviour : Behaviour} {request : Request}
  {log : List Footprint} {w : Watch}

theorem Trail.sparesPath (h : Trail may r behaviour request log w)
    (hr : r.session.engine.paths.Distinct) {key : String}
    (hkey : ∀ x, .store x ∈ ownMarks log → ¬ x.Covers key) : w.SparesPath r log key := by
  intro t ht
  rw [TtlCache.get_eq_peek, TtlCache.get_eq_peek, h.touched.paths]
  apply peek_otherMarks hr
  · intro m hm x hx
    rw [Mark.time_paths hx]
    exact Nat.le_trans (h.dated.2 m hm) ht
  · intro m hm
    cases m with
    | look time k hit => exact fun x hx => by rw [List.mem_singleton.1 hx]; rfl
    | purge time => exact fun x hx => by rw [List.mem_singleton.1 hx]; rfl
    | seek time query hit => exact fun x hx => absurd hx List.not_mem_nil
    | keep time query leaves => exact fun x hx => absurd hx List.not_mem_nil
    | send d => exact fun x hx => absurd hx List.not_mem_nil
    | store x =>
        apply Harvest.put?_puts
        rw [Option.eq_none_iff_forall_ne_some]
        exact fun c hc => hkey x hm (Harvest.covers_iff.2 ⟨c, hc⟩)

theorem Trail.sparesSearch (h : Trail may r behaviour request log w)
    (hr : r.session.engine.searches.Distinct) {query : String}
    (hquery : ∀ time leaves, .keep time query leaves ∉ ownMarks log) : w.SparesSearch r log query := by
  intro t ht
  rw [TtlCache.get_eq_peek, TtlCache.get_eq_peek, h.touched.searches]
  apply peek_otherMarks hr
  · intro m hm x hx
    rw [Mark.time_searches hx]
    exact Nat.le_trans (h.dated.2 m hm) ht
  · intro m hm
    cases m with
    | look time k hit => exact fun x hx => absurd hx List.not_mem_nil
    | store x => exact fun x hx => absurd hx List.not_mem_nil
    | send d => exact fun x hx => absurd hx List.not_mem_nil
    | purge time => exact fun x hx => by rw [List.mem_singleton.1 hx]; rfl
    | seek time q hit => exact fun x hx => by rw [List.mem_singleton.1 hx]; rfl
    | keep time q leaves =>
        intro x hx
        have hne : q ≠ query := by
          rintro rfl
          exact hquery time leaves hm
        rw [List.mem_singleton.1 hx]
        exact if_neg hne

/-- What has been stored is answered within the life time. -/
theorem Trail.isSome_get (h : Trail may r behaviour request log w)
    (hr : r.session.engine.paths.Distinct) {x : Harvest} (hx : .store x ∈ allMarks log) {key : String}
    (hkey : x.Covers key) {t : Nat} (ht : w.session.now ≤ t)
    (hlive : t - x.time < r.session.engine.paths.ttl) :
    (w.session.engine.paths.get t key).1.isSome = true := by
  obtain ⟨c, hc⟩ := Harvest.covers_iff.1 hkey
  obtain ⟨hsorted, hpast⟩ := h.dated
  have hput : .put x.time key c ∈ (allMarks log).flatMap Mark.paths :=
    List.mem_flatMap.2 ⟨.store x, hx, Harvest.mem_puts.2 ⟨key, c, hc, rfl⟩⟩
  rw [TtlCache.get_eq_peek, h.touched.paths]
  refine TtlCache.isSome_peek_after hr ?_ ?_ hput hlive
  · intro y hy
    obtain ⟨m, hm, hy⟩ := List.mem_flatMap.1 hy
    rw [Mark.time_paths hy]
    exact Nat.le_trans (hpast m hm) ht
  · refine List.pairwise_flatMap.2 ⟨fun m _ => ?_, hsorted.imp fun hle y hy z hz => ?_⟩
    · refine List.pairwise_of_forall_mem_list fun y hy z hz => ?_
      exact Nat.le_of_eq ((Mark.time_paths hy).trans (Mark.time_paths hz).symm)
    · rw [Mark.time_paths hy, Mark.time_paths hz]
      exact hle

end Spares

/-! ## The frame of a call -/

/-- What a call that has ended with a result means for the caches, if it started in a run and is watched
later. -/
structure Frame (r : Run) (request : Request) (log : List Footprint) (w : Watch)
    (result : Except CallError CallResult) : Prop where
  /-- Renders, infos and completions leave the path cache as it would be without them, and so do finds that
  fail, that find nothing, or that ask nobody. -/
  quiet : (request.operation ≠ .find ∨ r.session.engine.route request = .completer ∨
      (∃ err, result = .error err) ∨ result = .ok (.found []) ∨ ∀ d, .send d ∉ ownMarks log) →
    ∀ key, w.SparesPath r log key
  /-- Whatever the call stores has been put to backends by one of its finds, and is what the find came to. -/
  stored : ∀ x, .store x ∈ ownMarks log → request.operation = .find ∧
    (∃ d, .send d ∈ ownMarks log ∧ d.gather = x.gather ∧ d.request = .find x.query) ∧
    ∃ stats, .done x.result stats ∈ w.call.stage.branches
  /-- Every find that is put to the pool is stored: if anything was found, look-ups of its query and of
  the paths are hits within the life time. -/
  finds : ∀ d query, .send d ∈ ownMarks log → .send d ∉ r.session.opening request →
    d.request = .find query → ∃ x, .store x ∈ ownMarks log ∧ x.gather = d.gather ∧ x.query = query ∧
      ∀ key, x.Covers key → ∀ t, w.session.now ≤ t → t - x.time < r.session.engine.paths.ttl →
        (w.session.engine.paths.get t key).1.isSome = true
  /-- All other keys of the path cache are as they would be without the call. -/
  apart : ∀ key, (∀ x, .store x ∈ ownMarks log → ¬ x.Covers key) → w.SparesPath r log key
  /-- Leaves are remembered for the query of a search that was not in the search cache. -/
  kept : ∀ time query leaves, .keep time query leaves ∈ ownMarks log →
    r.session.engine.route request = .search ∧ query = request.key ∧ leaves ≠ [] ∧
    (r.session.engine.searches.get r.session.now query).1 = none
  /-- All other queries in the search cache are as they would be without the call. -/
  searches : ∀ query, (∀ time leaves, .keep time query leaves ∉ ownMarks log) →
    w.SparesSearch r log query
  /-- Nothing is stored without matches or without leaves. -/
  found : w.session.engine.paths.Holds fun c =>
    c.found ≠ [] ∨ ∃ e ∈ r.session.engine.paths.entries, e.2.value = c
  leaves : w.session.engine.searches.Holds fun leaves =>
    leaves ≠ [] ∨ ∃ e ∈ r.session.engine.searches.entries, e.2.value = leaves

/-- The opening of a call stores nothing. -/
theorem not_stored_of_opening {s : Session} {behaviour : Behaviour} {deadline : Nat} {request : Request}
    {stage : Stage} {stats : Stats} {opening entry : List Mark}
    (h : s.Enters behaviour deadline request stage stats opening entry) {m : Mark} (hm : m ∈ opening) :
    (∀ x, m ≠ .store x) ∧ ∀ time query leaves, m ≠ .keep time query leaves := by
  cases h with
  | plain _ => cases hm
  | completer _ _ =>
      rw [List.mem_singleton.1 hm]
      exact ⟨nofun, nofun⟩
  | hit _ _ =>
      rw [List.mem_singleton.1 hm]
      exact ⟨nofun, nofun⟩
  | miss _ _ _ =>
      rcases List.mem_pair.1 hm with rfl | rfl
      · exact ⟨nofun, nofun⟩
      · exact ⟨nofun, nofun⟩

section Frame

variable {may : Session → Nat → Prop} {r : Run} {behaviour : Behaviour} {request : Request}
  {log : List Footprint} {w : Watch} {result : Except CallError CallResult} {stats : Stats}

/-- What a call stores follows from its opening. -/
theorem Trail.follows_stored (h : Trail may r behaviour request log w) :
    ∃ rest, rest ⊆ ownMarks log ∧ w.call.stage.Follows r.session request rest ∧
      (∀ d, .send d ∈ ownMarks log → .send d ∉ r.session.opening request → .send d ∈ rest) ∧
      (∀ x, .store x ∈ ownMarks log → .store x ∈ rest) ∧
      ∀ time query leaves, .keep time query leaves ∈ ownMarks log → .keep time query leaves ∈ rest := by
  obtain ⟨rest, hown, hfollows⟩ := h.follows
  have hopening : ∀ m ∈ r.session.opening request, (∀ x, m ≠ .store x) ∧
      ∀ time query leaves, m ≠ .keep time query leaves :=
    fun _ hm => not_stored_of_opening (Call.starts r.session behaviour request) hm
  have hrest : ∀ m ∈ ownMarks log, m ∉ r.session.opening request → m ∈ rest := by
    intro m hm
    rw [hown] at hm
    exact (List.mem_append.1 hm).resolve_left
  refine ⟨rest, ?_, hfollows, fun d hd => hrest _ hd, fun x hx => ?_, fun time query leaves hm => ?_⟩
  · rw [hown]
    exact List.subset_append_right _ _
  · exact hrest _ hx fun hm => (hopening _ hm).1 x rfl
  · exact hrest _ hm fun hm => (hopening _ hm).2 time query leaves rfl

theorem Trail.of_store (h : Trail may r behaviour request log w) {x : Harvest}
    (hx : .store x ∈ ownMarks log) : r.session.engine.route request ≠ .completer ∧
      request.operation = .find ∧
      (∃ d, .send d ∈ ownMarks log ∧ d.gather = x.gather ∧ d.request = .find x.query) ∧
      ∃ stats, .done x.result stats ∈ w.call.stage.branches := by
  obtain ⟨rest, hrest, hfollows, _, hstore, _⟩ := h.follows_stored
  have hx := hstore x hx
  obtain ⟨hop, ⟨d, hd, hsame⟩, hpart⟩ := hfollows.ascribed.stored hx
  refine ⟨fun hroute => ?_, hop, ⟨d, hrest hd, hsame⟩, hpart⟩
  rw [(hfollows.completer hroute).1] at hx
  cases hx

theorem Trail.of_keep (h : Trail may r behaviour request log w) {time : Nat} {query : String}
    {leaves : List String} (hm : .keep time query leaves ∈ ownMarks log) :
    r.session.engine.route request = .search ∧ query = request.key ∧ leaves ≠ [] ∧
      (r.session.engine.searches.get r.session.now query).1 = none := by
  obtain ⟨rest, _, hfollows, _, _, hkeep⟩ := h.follows_stored
  obtain ⟨rfl, hroute, hmiss⟩ := hfollows.kept (hkeep time query leaves hm)
  exact ⟨hroute, rfl, h.leaves_ne_nil (ownMarks_sublist.subset hm), hmiss⟩

/-- A call that has ended has stored what its finds came to that were put to the pool. -/
theorem Trail.exists_store (h : Trail may r behaviour request log w)
    (hresult : w.call.result? = some (result, stats)) {d : Sending} {query : String}
    (hd : .send d ∈ ownMarks log) (hopening : .send d ∉ r.session.opening request)
    (hquery : d.request = .find query) :
    ∃ x, .store x ∈ ownMarks log ∧ x.gather = d.gather ∧ x.query = query := by
  obtain ⟨rest, hrest, hfollows, hsend, _, _⟩ := h.follows_stored
  rcases hfollows.ascribed.sent (hsend d hd hopening) with ⟨stats', hwaiting⟩ | hover
  · exact absurd hwaiting (Call.not_waiting_of_result hresult)
  · obtain ⟨x, hx, hsame⟩ := hover query hquery
    exact ⟨x, hrest hx, hsame⟩

/-- What is stored by a call that fails, finds nothing or asks nobody does not cover any key. -/
theorem Trail.not_covers (h : Trail may r behaviour request log w)
    (hresult : w.call.result? = some (result, stats))
    (hquiet : request.operation ≠ .find ∨ r.session.engine.route request = .completer ∨
      (∃ err, result = .error err) ∨ result = .ok (.found []) ∨ ∀ d, .send d ∉ ownMarks log)
    {x : Harvest} (hx : .store x ∈ ownMarks log) (key : String) : ¬ x.Covers key := by
  intro hcovers
  obtain ⟨hroute, hop, ⟨d, hd, _⟩, stats', hpart⟩ := h.of_store hx
  obtain ⟨own, all, hcourse⟩ := h.course
  have hparts := fun hnothing => hcovers.1 (Harvest.found_of_result
    (Call.parts_of_result hresult (by rw [hcourse.request_eq, hop]) hnothing hpart))
  rcases hquiet with hother | hcompleter | herror | hempty | hnobody
  · exact hother hop
  · exact hroute hcompleter
  · exact hparts (.inl herror)
  · exact hparts (.inr hempty)
  · exact hnobody d hd

/-- Whatever goes on, nothing is stored without matches or without leaves. -/
theorem Trail.holds_stored (h : Trail may r behaviour request log w) :
    (w.session.engine.paths.Holds fun c =>
      c.found ≠ [] ∨ ∃ e ∈ r.session.engine.paths.entries, e.2.value = c) ∧
    w.session.engine.searches.Holds fun leaves =>
      leaves ≠ [] ∨ ∃ e ∈ r.session.engine.searches.entries, e.2.value = leaves := by
  rw [h.touched.paths, h.touched.searches]
  constructor
  · refine TtlCache.holds_after (fun e he => .inr ⟨e, he, rfl⟩) fun time key value hput => ?_
    obtain ⟨m, _, hm⟩ := List.mem_flatMap.1 hput
    exact .inl (Mark.found_ne_nil hm)
  · refine TtlCache.holds_after (fun e he => .inr ⟨e, he, rfl⟩) fun time key value hput => ?_
    obtain ⟨m, hlog, hm⟩ := List.mem_flatMap.1 hput
    cases m with
    | keep t query leaves =>
        cases List.mem_singleton.1 hm
        exact .inl (h.leaves_ne_nil hlog)
    | seek t query hit => cases List.mem_singleton.1 hm
    | purge t => cases List.mem_singleton.1 hm
    | look t k hit => cases hm
    | store x => cases hm
    | send d => cases hm

end Frame

/-- What a call that has ended with a result or an error means for both caches, whatever else goes on. -/
theorem Trail.frame {may : Session → Nat → Prop} {r : Run} {behaviour : Behaviour} {request : Request}
    {log : List Footprint} {w : Watch} (hpaths : r.session.engine.paths.Distinct)
    (hsearches : r.session.engine.searches.Distinct) (h : Trail may r behaviour request log w)
    {result : Except CallError CallResult} {stats : Stats}
    (hresult : w.call.result? = some (result, stats)) : w.Frame r request log result := by
  constructor
  case quiet =>
    exact fun hquiet key => h.sparesPath hpaths fun x hx => h.not_covers hresult hquiet hx key
  case stored => exact fun x hx => (h.of_store hx).2
  case finds =>
    intro d query hd hopening hquery
    obtain ⟨x, hx, hgather, hsame⟩ := h.exists_store hresult hd hopening hquery
    refine ⟨x, hx, hgather, hsame, fun key hkey t ht hlive => ?_⟩
    exact h.isSome_get hpaths (ownMarks_sublist.subset hx) hkey ht hlive
  case apart => exact fun key hkey => h.sparesPath hpaths hkey
  case kept => exact fun time query leaves hm => h.of_keep hm
  case searches => exact fun query hquery => h.sparesSearch hsearches hquery
  case found => exact h.holds_stored.1
  case leaves => exact h.holds_stored.2

/-- A search of which one leaf fails and the other one is found. -/
theorem Trail.frame_seek : ∃ log w result stats,
    Trail Session.Prompt ⟨.ofEngine Seek.engine, []⟩ Seek.behaviour (.find "s:x") log w ∧
      w.call.result? = some (result, stats) ∧
      result.toOption.map CallResult.found? = some [⟨"b", true⟩] ∧
      w.Frame ⟨.ofEngine Seek.engine, []⟩ (.find "s:x") log result := by
  have hstart : Course Session.Prompt ⟨.ofEngine Seek.engine, []⟩ Seek.behaviour (.find "s:x") _ _ _ :=
    .start
  have hfound : ((Seek.asked.steps Seek.behaviour 8).calls[0]?.bind Call.result?).map
      (fun x => x.1.toOption.map CallResult.found?) = some (some [⟨"b", true⟩]) := by decide +kernel
  obtain ⟨⟨result, stats⟩, hended, hvalue⟩ := Option.map_eq_some_iff.1 hfound
  obtain ⟨own, all, w, hw, hresult⟩ := hstart.ended_of_steps Seek.behaviour 8 hended
  obtain ⟨log, htrail⟩ := hw.trail
  have hpaths : Seek.engine.paths.Distinct := List.nodup_nil
  have hsearches : Seek.engine.searches.Distinct := List.nodup_nil
  exact ⟨log, w, result, stats, htrail, hresult, hvalue,
    Trail.frame hpaths hsearches htrail hresult⟩

end Watch

end MetricFanout
