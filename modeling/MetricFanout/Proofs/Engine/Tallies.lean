import MetricFanout.Proofs.Engine.Balance
import MetricFanout.Proofs.Engine.Stages
/-!
# What calls count of look-ups

A call counts its look-ups in both caches, whether they are hits, and whether it has to do with the search
backend. It counts just what it has left marks of, at every stage and on every route.

`Tallies` says what a counter has to be like to count the marks of one kind. It is followed once through the
ways in which calls are entered and go on.
-/

namespace MetricFanout

namespace Mark

/-- A look-up in the path cache. -/
def isLook : Mark → Bool
  | .look _ _ _ => true
  | _ => false

/-- A look-up in the search cache. -/
def isSeek : Mark → Bool
  | .seek _ _ _ => true
  | _ => false

/-- A look-up in the path cache that is a hit, or one that is a miss. -/
def looks (hit : Bool) : Mark → Bool
  | .look _ _ found => found == hit
  | _ => false

/-- A look-up in the search cache that is a hit, or one that is a miss. -/
def seeks (hit : Bool) : Mark → Bool
  | .seek _ _ found => found == hit
  | _ => false

/-- If one kind falls into two others, marks may be counted by them. -/
theorem countP_split {kind left right : Mark → Bool}
    (h : ∀ m, (if kind m then 1 else 0) = (if left m then 1 else 0) + if right m then 1 else 0)
    (marks : List Mark) : marks.countP kind = marks.countP left + marks.countP right := by
  induction marks with
  | nil => rfl
  | cons m rest ih =>
      rw [List.countP_cons, List.countP_cons, List.countP_cons, ih, h]
      omega

/-- Look-ups are hits or misses. -/
theorem countP_isLook (marks : List Mark) :
    marks.countP isLook = marks.countP (looks true) + marks.countP (looks false) := by
  refine countP_split (fun m => ?_) marks
  cases m with
  | look time key found => cases found <;> rfl
  | _ => rfl

theorem countP_isSeek (marks : List Mark) :
    marks.countP isSeek = marks.countP (seeks true) + marks.countP (seeks false) := by
  refine countP_split (fun m => ?_) marks
  cases m with
  | seek time query found => cases found <;> rfl
  | _ => rfl

end Mark

/-! ## Kinds of marks -/

section Kinds

/-- A kind of which only look-ups are. -/
def Mark.OfLookups (kind : Mark → Bool) : Prop :=
  ∀ m : Mark, m.isLook = false → m.isSeek = false → kind m = false

variable {kind : Mark → Bool} (hkind : Mark.OfLookups kind)
include hkind

theorem countP_plainMarks (s : Session) (r : Request) : (s.plainMarks r).countP kind =
    if kind (.look s.now r.key (s.engine.paths.get s.now r.key).1.isSome) then 1 else 0 := by
  have hsend : ∀ d, kind (.send d) = false := fun d => hkind _ rfl rfl
  unfold Session.plainMarks
  rw [List.countP_cons]
  split <;> simp [hsend]

theorem countP_keepMarks (time : Nat) (query : String) (leaves : List String) :
    (keepMarks time query leaves).countP kind = 0 := by
  have hkeep : kind (.keep time query leaves) = false := hkind _ rfl rfl
  cases leaves <;> simp [keepMarks, hkeep]

/-- Sub-calls that are handed a gathering look nothing up. -/
theorem countP_branchMarks (now : Nat) (f : Finished Answer) (bs : List Branch) :
    (bs.flatMap (Branch.marks now f)).countP kind = 0 := by
  rw [List.countP_eq_zero]
  intro m hm
  obtain ⟨b, _, hm⟩ := List.mem_flatMap.1 hm
  obtain ⟨_, _, _, rfl⟩ := Branch.mem_marks.1 hm
  rw [hkind _ rfl rfl]
  exact Bool.false_ne_true

end Kinds

theorem Mark.ofLookups_isLook : OfLookups isLook := fun _ hlook _ => hlook

theorem Mark.ofLookups_isSeek : OfLookups isSeek := fun _ _ hseek => hseek

theorem Mark.ofLookups_looks (hit : Bool) : OfLookups (looks hit) := by
  intro m hlook _
  cases m <;> first | rfl | cases hlook

theorem Mark.ofLookups_seeks (hit : Bool) : OfLookups (seeks hit) := by
  intro m _ hseek
  cases m <;> first | rfl | cases hseek

/-! ## Counters of calls -/

/-- Counters without those of failures. -/
def Stats.lookups (s : Stats) : Stats :=
  { s with timeouts := 0, findErrors := 0, renderErrors := 0, infoErrors := 0 }

theorem Stats.lookups_recordFailures {α : Type} (s : Stats) (op : Operation)
    (replies : List (Reply α)) : (s.recordFailures op replies).lookups = s.lookups := by
  have hreply : ∀ (s : Stats) (reply : Reply α), (countReply op s reply).lookups = s.lookups := by
    intro s reply
    unfold countReply countFailure
    split
    · rfl
    · split
      · rfl
      · split
        · rfl
        · cases op <;> rfl
  unfold recordFailures
  induction replies generalizing s with
  | nil => rfl
  | cons reply rest ih => rw [List.foldl_cons, ih, hreply]

/-- A counter that counts the look-ups of one kind, and a constant for each call that has to do with the search
backend. -/
structure Tallies (count : Stats → Nat) (kind : Mark → Bool) (extra : Nat) : Prop where
  zero : count {} = 0
  add : ∀ a b, count (a + b) = count a + count b
  lookups : ∀ s : Stats, count s.lookups = count s
  lookup : ∀ time key hit, count (Stats.countLookup {} hit) = if kind (.look time key hit) then 1 else 0
  searchLookup : ∀ time query hit,
    count (Stats.countSearchLookup {} hit) = if kind (.seek time query hit) then 1 else 0
  search : ∀ s, count (Stats.countSearch s) = count s + extra
  ofLookups : Mark.OfLookups kind

theorem tallies_cacheHits : Tallies Stats.cacheHits (Mark.looks true) 0 where
  zero := rfl
  add _ _ := rfl
  lookups _ := rfl
  lookup _ _ hit := by cases hit <;> rfl
  searchLookup _ _ hit := by cases hit <;> rfl
  search _ := rfl
  ofLookups := Mark.ofLookups_looks true

theorem tallies_cacheMisses : Tallies Stats.cacheMisses (Mark.looks false) 0 where
  zero := rfl
  add _ _ := rfl
  lookups _ := rfl
  lookup _ _ hit := by cases hit <;> rfl
  searchLookup _ _ hit := by cases hit <;> rfl
  search _ := rfl
  ofLookups := Mark.ofLookups_looks false

theorem tallies_searchCacheHits : Tallies Stats.searchCacheHits (Mark.seeks true) 0 where
  zero := rfl
  add _ _ := rfl
  lookups _ := rfl
  lookup _ _ hit := by cases hit <;> rfl
  searchLookup _ _ hit := by cases hit <;> rfl
  search _ := rfl
  ofLookups := Mark.ofLookups_seeks true

theorem tallies_searchCacheMisses : Tallies Stats.searchCacheMisses (Mark.seeks false) 0 where
  zero := rfl
  add _ _ := rfl
  lookups _ := rfl
  lookup _ _ hit := by cases hit <;> rfl
  searchLookup _ _ hit := by cases hit <;> rfl
  search _ := rfl
  ofLookups := Mark.ofLookups_seeks false

/-- Requests to the search backend are counted whether or not they have to be made. -/
theorem tallies_searchRequests : Tallies Stats.searchRequests (fun _ => false) 1 where
  zero := rfl
  add _ _ := rfl
  lookups _ := rfl
  lookup _ _ hit := by cases hit <;> rfl
  searchLookup _ _ hit := by cases hit <;> rfl
  search _ := rfl
  ofLookups _ _ _ := rfl

namespace Tallies

variable {count : Stats → Nat} {kind : Mark → Bool} {extra : Nat} (hk : Tallies count kind extra)
include hk

theorem recordFailures (s : Stats) (op : Operation) (replies : List (Reply Answer)) :
    count (s.recordFailures op replies) = count s := by
  rw [← hk.lookups, Stats.lookups_recordFailures, hk.lookups]

theorem counted_eq (c : Call) :
    count c.counted = count c.stats + (c.stage.branches.map fun b => count b.counted).sum := by
  have hsum := Stats.count_foldl hk.add
  unfold Call.counted
  cases c.stage with
  | plain b => exact hk.add _ _
  | leaves bs =>
      simp only [Stage.branches]
      rw [hsum, List.map_map]
      rfl
  | _ => rfl

/-! ### Starting -/

theorem startPlain (s : Session) (behaviour : Behaviour) (deadline : Nat) (r : Request) :
    count (s.startPlain behaviour deadline r).1.counted = (s.plainMarks r).countP kind := by
  have hconsult : (s.engine.consult s.now r).2.1 =
      Stats.countLookup {} (s.engine.paths.get s.now r.key).1.isSome := rfl
  rw [countP_plainMarks hk.ofLookups, ← hk.lookup, ← hconsult]
  cases hplan : (s.engine.consult s.now r).1 with
  | known found => rw [s.startPlain_of_known behaviour deadline hplan]; rfl
  | ask backends => rw [s.startPlain_of_ask behaviour deadline hplan]; rfl

theorem startLeaves (s : Session) (behaviour : Behaviour) (deadline : Nat) (r : Request)
    (leaves : List String) :
    ((s.startLeaves behaviour deadline r leaves).1.map fun b => count b.counted).sum =
      (s.leafMarks behaviour deadline r leaves).countP kind := by
  induction leaves generalizing s with
  | nil => rfl
  | cons leaf rest ih =>
      rw [Session.leafMarks, List.countP_append, ← ih, ← hk.startPlain s behaviour deadline]
      rfl

theorem enterLeaves (s : Session) (behaviour : Behaviour) (deadline : Nat) (r : Request)
    (leaves : List String) :
    ((s.enterLeaves behaviour deadline r leaves).1.branches.map fun b => count b.counted).sum =
      (s.leafMarks behaviour deadline r leaves).countP kind := by
  rw [Session.branches_enterLeaves]
  exact hk.startLeaves s behaviour deadline r leaves

/-- What a call has counted when it is entered: the opening by itself, and the rest in its sub-calls. -/
theorem enters {s : Session} {behaviour : Behaviour} {deadline : Nat} {r : Request} {stage : Stage}
    {stats : Stats} {opening entry : List Mark}
    (h : s.Enters behaviour deadline r stage stats opening entry) :
    count stats = (if s.engine.route r = .plain then 0 else extra) + opening.countP kind ∧
      (stage.branches.map fun b => count b.counted).sum = entry.countP kind := by
  have hsend : ∀ d, kind (.send d) = false := fun d => hk.ofLookups _ rfl rfl
  cases h with
  | plain hroute =>
      refine ⟨by simp [hroute, hk.zero], ?_⟩
      exact hk.startPlain s behaviour deadline r
  | completer hroute hsearch => exact ⟨by simp [hroute, hk.search, hk.zero, hsend], rfl⟩
  | hit hroute hget =>
      refine ⟨?_, hk.enterLeaves _ behaviour deadline r _⟩
      rw [hk.search, hk.searchLookup s.now r.key]
      simp [hroute, List.countP_cons, Nat.add_comm]
  | miss hroute hsearch hget =>
      refine ⟨?_, rfl⟩
      rw [hk.search, hk.searchLookup s.now r.key]
      simp [hroute, List.countP_cons, hsend, Nat.add_comm]

/-! ### Going on -/

theorem received (f : Finished Answer) (b : Branch) :
    count (b.received f).counted = count b.counted := by
  cases b with
  | done result stats => rfl
  | waiting r id stats =>
      by_cases hid : id = f.gather
      · rw [Branch.received, if_pos hid]
        exact hk.recordFailures _ _ _
      · rw [Branch.received, if_neg hid]

/-- What a call counts when it is handed a gathering: look-ups of its sub-calls, if any start. -/
theorem receives {s : Session} {behaviour : Behaviour} {f : Finished Answer} {c : Call}
    {marks : List Mark} {stage : Stage} {stats : Stats}
    (h : c.Receives s behaviour f marks stage stats) : count stats = count c.stats ∧
      (stage.branches.map fun b => count b.counted).sum =
        (c.stage.branches.map fun b => count b.counted).sum + marks.countP kind := by
  cases h with
  | idle => exact ⟨rfl, rfl⟩
  | completed hstage =>
      rw [hstage]
      exact ⟨hk.recordFailures _ _ _, rfl⟩
  | failed hstage =>
      rw [hstage]
      exact ⟨hk.recordFailures _ _ _, rfl⟩
  | resolved hstage =>
      refine ⟨hk.recordFailures _ _ _, ?_⟩
      rw [hstage, hk.enterLeaves, List.countP_append, countP_keepMarks hk.ofLookups, Nat.zero_add]
      exact (Nat.zero_add _).symm
  | @plain b hstage =>
      have hquiet := countP_branchMarks hk.ofLookups s.now f [b]
      rw [List.flatMap_singleton] at hquiet
      refine ⟨rfl, ?_⟩
      rw [hstage, hquiet]
      simp [Stage.branches, hk.received]
  | @leaves bs hstage =>
      refine ⟨rfl, ?_⟩
      rw [hstage, countP_branchMarks hk.ofLookups]
      simp [Stage.branches, hk.received, Function.comp_def]

/-- A call that starts has counted its marks. -/
theorem start (s : Session) (behaviour : Behaviour) (r : Request) :
    count (Call.start s behaviour r).1.counted =
      (if s.engine.route r = .plain then 0 else extra) + (s.startMarks behaviour r).countP kind := by
  obtain ⟨hstats, hbranches⟩ := hk.enters (Call.starts s behaviour r)
  rw [hk.counted_eq, hstats, hbranches, Session.startMarks, List.countP_append, Nat.add_assoc]

/-- A call that is handed a gathering counts the marks that it leaves. -/
theorem receive (s : Session) (behaviour : Behaviour) (f : Finished Answer) (c : Call) :
    count (c.receive s behaviour f).1.counted =
      count c.counted + (c.marks s behaviour f).countP kind := by
  obtain ⟨hstats, hbranches⟩ := hk.receives (c.receives s behaviour f)
  rw [hk.counted_eq, hk.counted_eq, hstats, hbranches, Nat.add_assoc]

theorem receiveAll (s : Session) (behaviour : Behaviour) (f : Finished Answer) (cs : List Call) :
    ((Run.receiveAll s behaviour f cs).1.map fun c => count c.counted).sum =
      (cs.map fun c => count c.counted).sum + (Run.marks s behaviour f cs).countP kind := by
  induction cs generalizing s with
  | nil => rfl
  | cons c rest ih =>
      simp only [Run.receiveAll, Run.marks, List.map_cons, List.sum_cons, List.countP_append,
        hk.receive, ih]
      omega

/-- What a call has counted is what it has left. -/
theorem trail {may : Session → Nat → Prop} {r : Run} {behaviour : Behaviour} {request : Request}
    {log : List Footprint} {w : Watch} (h : Watch.Trail may r behaviour request log w) :
    count w.call.counted = (if r.session.engine.route request = .plain then 0 else extra) +
      (ownMarks log).countP kind := by
  obtain ⟨rest, hown, hstats, hbranches⟩ := h.stage_induction
    (P := fun rest stage stats => count stats =
        (if r.session.engine.route request = .plain then 0 else extra) +
          (r.session.opening request).countP kind ∧
      (stage.branches.map fun b => count b.counted).sum = rest.countP kind)
    (fun henter => hk.enters henter) (by
      rintro s later f rest marks stage stats c _ _ ⟨hstats, hbranches⟩ hreceive
      obtain ⟨hstats', hbranches'⟩ := hk.receives hreceive
      rw [hstats', hbranches', List.countP_append, ← hbranches]
      exact ⟨hstats, rfl⟩)
  rw [hk.counted_eq, hstats, hbranches, hown, List.countP_append, Nat.add_assoc]

end Tallies

end MetricFanout
