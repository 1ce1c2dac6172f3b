import MetricFanout.Proofs.Engine.Trail
import MetricFanout.Proofs.Engine.Union
/-!
# The stages of a call

How a call is entered and how it goes on when it is handed a gathering, with the marks that it leaves: one
case for each thing that can happen. What a call has left is ascribed to its sub-calls.

## Implementation notes

`Enters` and `Receives` are the only places at which the branches of the engine's own functions are taken
apart. Invariants of calls go by `Trail.stage_induction`, with these two as what is known of a step.
-/

namespace MetricFanout

@[simp] theorem Request.operation_withKey (r : Request) (key : String) :
    (r.withKey key).operation = r.operation := by
  cases r <;> rfl

theorem Request.withKey_key (r : Request) : r.withKey r.key = r := by
  cases r <;> rfl

/-- The sub-calls of a stage. A plain call is its only one. -/
def Stage.branches : Stage → List Branch
  | .plain b => [b]
  | .leaves bs => bs
  | _ => []

namespace Branch

/-- What becomes of a sub-call that is handed a gathering. -/
def received (f : Finished Answer) : Branch → Branch
  | .waiting r id stats =>
      if id = f.gather then
        .done (r.conclusion f.replies) (stats.recordFailures r.operation f.replies)
      else .waiting r id stats
  | b => b

/-- What still waits has not been handed what it waits for. -/
theorem eq_of_received {f : Finished Answer} {b : Branch} {r : Request} {id : Nat} {stats : Stats}
    (h : b.received f = .waiting r id stats) : b = .waiting r id stats := by
  cases b with
  | done result stats => cases h
  | waiting r' id' stats' =>
      by_cases hid : id' = f.gather
      · rw [received, if_pos hid] at h
        cases h
      · rwa [received, if_neg hid] at h

theorem receive_fst (s : Session) (f : Finished Answer) (b : Branch) :
    (b.receive s f).1 = b.received f := by
  cases b with
  | done result stats => rfl
  | waiting r id stats =>
      unfold receive received
      by_cases hid : id = f.gather
      · simp only [if_pos hid, Engine.conclude_fst]
      · simp only [if_neg hid]

theorem receiveAll_fst (s : Session) (f : Finished Answer) (bs : List Branch) :
    (receiveAll s f bs).1 = bs.map (received f) := by
  induction bs generalizing s with
  | nil => rfl
  | cons b rest ih => rw [receiveAll, List.map_cons, ← ih, ← receive_fst s]

end Branch

/-! ## Entering -/

namespace Session

/-- How a call can be entered: its stage, what it counts besides its sub-calls, its marks at the search cache
and the search backend, and those of its sub-calls. -/
inductive Enters (s : Session) (behaviour : Behaviour) (deadline : Nat) (r : Request) :
    Stage → Stats → List Mark → List Mark → Prop where
  | plain (hroute : s.engine.route r = .plain) :
      Enters s behaviour deadline r (.plain (s.startPlain behaviour deadline r).1) {} []
        (s.plainMarks r)
  | completer {route : SearchRoute Backend} (hroute : s.engine.route r = .completer)
      (hsearch : s.engine.search = some route) :
      Enters s behaviour deadline r (.completing s.nextGather) (Stats.countSearch {})
        [.send (s.searchSending route r.key)] []
  | hit {leaves : List String} (hroute : s.engine.route r = .search)
      (hget : (s.engine.searches.get s.now r.key).1 = some leaves) :
      Enters s behaviour deadline r ((s.searched r.key).enterLeaves behaviour deadline r leaves).1
        (Stats.countSearchLookup {} true).countSearch [.seek s.now r.key true]
        ((s.searched r.key).leafMarks behaviour deadline r leaves)
  | miss {route : SearchRoute Backend} (hroute : s.engine.route r = .search)
      (hsearch : s.engine.search = some route)
      (hget : (s.engine.searches.get s.now r.key).1 = none) :
      Enters s behaviour deadline r (.resolving s.nextGather)
        (Stats.countSearchLookup {} false).countSearch
        [.seek s.now r.key false, .send (s.searchSending route r.key)] []

theorem enters (s : Session) (behaviour : Behaviour) (deadline : Nat) (r : Request) :
    s.Enters behaviour deadline r (s.enter behaviour deadline r).1 (s.enter behaviour deadline r).2.1
      (s.opening r) (s.entry behaviour deadline r) := by
  cases hroute : s.engine.route r with
  | plain =>
      simp only [enter, opening, entry, hroute]
      exact .plain hroute
  | completer =>
      obtain ⟨route, hsearch⟩ := Engine.search_of_route (by rw [hroute]; decide)
      simp only [enter, opening, entry, hroute, hsearch]
      exact .completer hroute hsearch
  | search =>
      obtain ⟨route, hsearch⟩ := Engine.search_of_route (by rw [hroute]; decide)
      have hleaves : (s.engine.consultSearch s.now r.key).1 =
          (s.engine.searches.get s.now r.key).1 := rfl
      have hlookup : (s.engine.consultSearch s.now r.key).2.1 =
          Stats.countSearchLookup {} (s.engine.searches.get s.now r.key).1.isSome := rfl
      simp only [enter, opening, entry, hroute, hsearch, hleaves, hlookup]
      cases hget : (s.engine.searches.get s.now r.key).1 with
      | some leaves => exact .hit hroute hget
      | none => exact .miss hroute hsearch hget

theorem branches_enterLeaves (s : Session) (behaviour : Behaviour) (deadline : Nat) (r : Request)
    (leaves : List String) : (s.enterLeaves behaviour deadline r leaves).1.branches =
      (s.startLeaves behaviour deadline r leaves).1 := by
  cases leaves <;> rfl

end Session

/-! ## Going on -/

namespace Call

/-- What can become of a call that is handed a gathering: its marks, its stage, and what it counts besides
its sub-calls. -/
inductive Receives (s : Session) (behaviour : Behaviour) (f : Finished Answer) (c : Call) :
    List Mark → Stage → Stats → Prop where
  /-- It waits for something else. -/
  | idle : Receives s behaviour f c [] c.stage c.stats
  | completed (h : c.stage = .completing f.gather) :
      Receives s behaviour f c [] (.ended (Engine.complete f.replies))
        (c.stats.recordFailures .find f.replies)
  | failed {err : CallError} (h : c.stage = .resolving f.gather) :
      Receives s behaviour f c [] (.ended (.error err)) (c.stats.recordFailures .find f.replies)
  | resolved {leaves : List String} (h : c.stage = .resolving f.gather) :
      Receives s behaviour f c
        (keepMarks s.now c.request.key leaves ++
          (s.resolved c.request.key f).leafMarks behaviour c.deadline c.request leaves)
        ((s.resolved c.request.key f).enterLeaves behaviour c.deadline c.request leaves).1
        (c.stats.recordFailures .find f.replies)
  | plain {b : Branch} (h : c.stage = .plain b) :
      Receives s behaviour f c (b.marks s.now f) (.plain (b.received f)) c.stats
  | leaves {bs : List Branch} (h : c.stage = .leaves bs) :
      Receives s behaviour f c (bs.flatMap (Branch.marks s.now f))
        (.leaves (bs.map (Branch.received f))) c.stats

theorem stats_stamp (c : Call) (now : Nat) : (c.stamp now).stats = c.stats := by
  unfold stamp
  split <;> rfl

/-- A call starts as it is entered. -/
theorem starts (s : Session) (behaviour : Behaviour) (r : Request) :
    s.Enters behaviour (s.now + s.engine.timeouts.globalMs) r (start s behaviour r).1.stage
      (start s behaviour r).1.stats (s.opening r)
      (s.entry behaviour (s.now + s.engine.timeouts.globalMs) r) := by
  have hstage : (start s behaviour r).1.stage = _ := stage_stamp _ _
  have hstats : (start s behaviour r).1.stats = _ := stats_stamp _ _
  rw [hstage, hstats]
  exact s.enters behaviour _ r

theorem receives (s : Session) (behaviour : Behaviour) (f : Finished Answer) (c : Call) :
    c.Receives s behaviour f (c.marks s behaviour f) (c.receive s behaviour f).1.stage
      (c.receive s behaviour f).1.stats := by
  cases hstage : c.stage with
  | completing id =>
      by_cases hid : id = f.gather
      · simp only [marks, receive, hstage, if_pos hid, stage_stamp, stats_stamp]
        exact .completed (hid ▸ hstage)
      · simp only [marks, receive, hstage, if_neg hid]
        exact hstage ▸ .idle
  | resolving id =>
      by_cases hid : id = f.gather
      · simp only [marks, receive, hstage, if_pos hid]
        cases (s.engine.resolve s.now c.request.key f.replies).1 with
        | error err =>
            simp only [stage_stamp, stats_stamp]
            exact .failed (hid ▸ hstage)
        | ok leaves =>
            simp only [stage_stamp, stats_stamp]
            exact .resolved (hid ▸ hstage)
      · simp only [marks, receive, hstage, if_neg hid]
        exact hstage ▸ .idle
  | plain b =>
      simp only [marks, receive, hstage, stage_stamp, stats_stamp, Branch.receive_fst]
      exact .plain hstage
  | leaves bs =>
      simp only [marks, receive, hstage, stage_stamp, stats_stamp, Branch.receiveAll_fst]
      exact .leaves hstage
  | ended result =>
      simp only [marks, receive, hstage]
      exact hstage ▸ .idle

end Call

namespace Watch

variable {may : Session → Nat → Prop} {r : Run} {behaviour : Behaviour} {request : Request}
  {log : List Footprint} {w : Watch}

/-- What holds when a call is entered, and is kept when it is handed a gathering, holds of its marks behind
the opening, of its stage and of what it counts besides its sub-calls. -/
theorem Trail.stage_induction {P : List Mark → Stage → Stats → Prop}
    (henter : ∀ {deadline stage stats entry},
      r.session.Enters behaviour deadline request stage stats (r.session.opening request) entry →
        P entry stage stats)
    (hreceive : ∀ {s later f rest marks stage stats} {c : Call}, r.session.Alike s →
      c.request = request → P rest c.stage c.stats → c.Receives s later f marks stage stats →
      P (rest ++ marks) stage stats)
    (h : Trail may r behaviour request log w) :
    ∃ rest, ownMarks log = r.session.opening request ++ rest ∧ P rest w.call.stage w.call.stats := by
  refine h.own_induction (P := fun own c => ∃ rest, own = r.session.opening request ++ rest ∧
    P rest c.stage c.stats) ⟨_, rfl, ?_⟩ ?_
  · exact henter (Call.starts r.session behaviour request)
  · rintro s later f own c hs hc ⟨rest, rfl, ih⟩
    exact ⟨rest ++ c.marks s later f, List.append_assoc _ _ _,
      hreceive hs hc ih (c.receives s later f)⟩

end Watch

/-! ## Marks of sub-calls -/

/-- The result of a find that was put to the pool. -/
def Harvest.result (h : Harvest) : Except CallError CallResult :=
  (mergeFind h.replies).map fun m => .found m.found

/-- Sub-calls of one operation account for marks: who waits has sent what it waits for; what has been sent
is waited for, or what it found has been stored if it was a find; and what has been stored is the merge
of what was sent for, and the result of a sub-call. -/
structure Ascribed (op : Operation) (marks : List Mark) (bs : List Branch) : Prop where
  waiting : ∀ {r id stats}, .waiting r id stats ∈ bs →
    r.operation = op ∧ ∃ d, .send d ∈ marks ∧ d.gather = id ∧ d.request = r
  sent : ∀ {d}, .send d ∈ marks → (∃ stats, .waiting d.request d.gather stats ∈ bs) ∨
    ∀ query, d.request = .find query →
      ∃ h, .store h ∈ marks ∧ h.gather = d.gather ∧ h.query = query
  stored : ∀ {h}, .store h ∈ marks → op = .find ∧
    (∃ d, .send d ∈ marks ∧ d.gather = h.gather ∧ d.request = .find h.query) ∧
    ∃ stats, .done h.result stats ∈ bs

namespace Ascribed

variable {op : Operation} {marks marks' : List Mark} {bs bs' : List Branch}

/-- Leaves may be remembered, without sub-calls. -/
theorem of_keep (op : Operation) (time : Nat) (query : String) (leaves : List String) :
    Ascribed op (keepMarks time query leaves) [] := by
  constructor
  case waiting => exact fun h => absurd h List.not_mem_nil
  case sent =>
    intro d hd
    cases leaves with
    | nil => cases hd
    | cons leaf rest => cases List.mem_singleton.1 hd
  case stored =>
    intro h hh
    cases leaves with
    | nil => cases hh
    | cons leaf rest => cases List.mem_singleton.1 hh

theorem append (h : Ascribed op marks bs) (h' : Ascribed op marks' bs') :
    Ascribed op (marks ++ marks') (bs ++ bs') := by
  have hleft := List.subset_append_left marks marks'
  have hright := List.subset_append_right marks marks'
  constructor
  case waiting =>
    intro r id stats hb
    rcases List.mem_append.1 hb with hb | hb
    · obtain ⟨hop, d, hd, hid⟩ := h.waiting hb
      exact ⟨hop, d, hleft hd, hid⟩
    · obtain ⟨hop, d, hd, hid⟩ := h'.waiting hb
      exact ⟨hop, d, hright hd, hid⟩
  case sent =>
    intro d hd
    rcases List.mem_append.1 hd with hd | hd
    · refine (h.sent hd).imp (fun ⟨stats, hb⟩ => ⟨stats, List.mem_append_left _ hb⟩) ?_
      intro hstore query hquery
      obtain ⟨x, hx, hsame⟩ := hstore query hquery
      exact ⟨x, hleft hx, hsame⟩
    · refine (h'.sent hd).imp (fun ⟨stats, hb⟩ => ⟨stats, List.mem_append_right _ hb⟩) ?_
      intro hstore query hquery
      obtain ⟨x, hx, hsame⟩ := hstore query hquery
      exact ⟨x, hright hx, hsame⟩
  case stored =>
    intro x hx
    rcases List.mem_append.1 hx with hx | hx
    · obtain ⟨hop, ⟨d, hd, hsame⟩, stats, hb⟩ := h.stored hx
      exact ⟨hop, ⟨d, hleft hd, hsame⟩, stats, List.mem_append_left _ hb⟩
    · obtain ⟨hop, ⟨d, hd, hsame⟩, stats, hb⟩ := h'.stored hx
      exact ⟨hop, ⟨d, hright hd, hsame⟩, stats, List.mem_append_right _ hb⟩

theorem startPlain (s : Session) (behaviour : Behaviour) (deadline : Nat) (r : Request) :
    Ascribed r.operation (s.plainMarks r) [(s.startPlain behaviour deadline r).1] := by
  cases hplan : (s.engine.consult s.now r).1 with
  | known found =>
      rw [s.startPlain_of_known behaviour deadline hplan, Session.plainMarks, hplan]
      constructor
      case waiting =>
        intro _ _ _ h
        cases List.mem_singleton.1 h
      case sent =>
        intro _ h
        cases List.mem_singleton.1 h
      case stored =>
        intro _ h
        cases List.mem_singleton.1 h
  | ask backends =>
      rw [s.startPlain_of_ask behaviour deadline hplan, Session.plainMarks, hplan]
      constructor
      case waiting =>
        intro r' id stats h
        cases List.mem_singleton.1 h
        exact ⟨rfl, _, List.mem_cons_of_mem _ (List.mem_singleton_self _), rfl, rfl⟩
      case sent =>
        intro d hd
        rcases List.mem_cons.1 hd with hd | hd
        · cases hd
        · cases List.mem_singleton.1 hd
          exact .inl ⟨_, List.mem_singleton_self _⟩
      case stored =>
        intro h hh
        rcases List.mem_cons.1 hh with hh | hh
        · cases hh
        · cases List.mem_singleton.1 hh

theorem startLeaves (s : Session) (behaviour : Behaviour) (deadline : Nat) (r : Request)
    (leaves : List String) :
    Ascribed r.operation (s.leafMarks behaviour deadline r leaves)
      (s.startLeaves behaviour deadline r leaves).1 := by
  induction leaves generalizing s with
  | nil => exact of_keep _ 0 "" []
  | cons leaf rest ih =>
      have hfirst := startPlain s behaviour deadline (r.withKey leaf)
      rw [Request.operation_withKey] at hfirst
      exact hfirst.append (ih _)

theorem enterLeaves (s : Session) (behaviour : Behaviour) (deadline : Nat) (r : Request)
    (leaves : List String) :
    Ascribed r.operation (s.leafMarks behaviour deadline r leaves)
      (s.enterLeaves behaviour deadline r leaves).1.branches := by
  rw [Session.branches_enterLeaves]
  exact startLeaves s behaviour deadline r leaves

end Ascribed

/-- A sub-call leaves a mark when it is handed what it waits for, if it is a find. -/
theorem Branch.mem_marks {now : Nat} {f : Finished Answer} {b : Branch} {m : Mark} :
    m ∈ b.marks now f ↔ ∃ query stats, b = .waiting (.find query) f.gather stats ∧
      m = .store ⟨f.gather, now, query, f.replies.map (Reply.map Answer.found?)⟩ := by
  cases b with
  | done result stats => simp [marks]
  | waiting r id stats =>
      cases r with
      | find query =>
          simp only [marks]
          by_cases hid : id = f.gather
          · simp [hid]
          · simp [hid]
      | render target since upTo => simp [marks]
      | info target => simp [marks]

/-- Sub-calls that are handed a gathering still account for all marks. -/
theorem Ascribed.received {op : Operation} {marks : List Mark} {bs : List Branch}
    (h : Ascribed op marks bs) (now : Nat) (f : Finished Answer) :
    Ascribed op (marks ++ bs.flatMap (Branch.marks now f)) (bs.map (Branch.received f)) := by
  have hleft := List.subset_append_left marks (bs.flatMap (Branch.marks now f))
  constructor
  case waiting =>
    intro r id stats hb
    obtain ⟨b, hb, hsame⟩ := List.mem_map.1 hb
    rw [Branch.eq_of_received hsame] at hb
    obtain ⟨hop, d, hd, hid⟩ := h.waiting hb
    exact ⟨hop, d, hleft hd, hid⟩
  case sent =>
    intro d hd
    rcases List.mem_append.1 hd with hd | hd
    · rcases h.sent hd with ⟨stats, hb⟩ | hstore
      · -- Whoever is answered by this gathering stops waiting, and has stored what it found.
        by_cases hid : d.gather = f.gather
        · refine .inr fun query hquery => ?_
          rw [hquery, hid] at hb
          have hm : _ ∈ Branch.marks now f (.waiting (.find query) f.gather stats) :=
            Branch.mem_marks.2 ⟨query, stats, rfl, rfl⟩
          exact ⟨_, List.mem_append_right _ (List.mem_flatMap.2 ⟨_, hb, hm⟩), hid.symm, rfl⟩
        · refine .inl ⟨stats, List.mem_map.2 ⟨_, hb, ?_⟩⟩
          exact if_neg hid
      · refine .inr fun query hquery => ?_
        obtain ⟨x, hx, hsame⟩ := hstore query hquery
        exact ⟨x, hleft hx, hsame⟩
    · obtain ⟨b, _, hm⟩ := List.mem_flatMap.1 hd
      obtain ⟨_, _, _, hsame⟩ := Branch.mem_marks.1 hm
      cases hsame
  case stored =>
    intro x hx
    rcases List.mem_append.1 hx with hx | hx
    · obtain ⟨hop, ⟨d, hd, hsame⟩, stats, hb⟩ := h.stored hx
      exact ⟨hop, ⟨d, hleft hd, hsame⟩, stats, List.mem_map.2 ⟨_, hb, rfl⟩⟩
    · obtain ⟨b, hb, hm⟩ := List.mem_flatMap.1 hx
      obtain ⟨query, stats, rfl, hsame⟩ := Branch.mem_marks.1 hm
      cases hsame
      obtain ⟨hop, d, hd, hid, hrequest⟩ := h.waiting hb
      exact ⟨hop.symm, ⟨d, hleft hd, hid, hrequest⟩, _, List.mem_map.2 ⟨_, hb, if_pos rfl⟩⟩

/-! ## Marks of calls -/

/-- What is known of the marks of a call behind the opening, at a stage: they belong to its sub-calls, but for
leaves that are remembered by a search whose query was not in the search cache; and a completion leaves
none. -/
structure Stage.Follows (s : Session) (request : Request) (rest : List Mark) (stage : Stage) : Prop where
  ascribed : Ascribed request.operation rest stage.branches
  completer : s.engine.route request = .completer → rest = [] ∧ stage.branches = []
  resolving : ∀ {id}, stage = .resolving id → rest = [] ∧ s.engine.route request = .search ∧
    (s.engine.searches.get s.now request.key).1 = none
  kept : ∀ {time query leaves}, .keep time query leaves ∈ rest → query = request.key ∧
    s.engine.route request = .search ∧ (s.engine.searches.get s.now request.key).1 = none

theorem Session.keep_not_mem_plainMarks (s : Session) (r : Request) (time : Nat) (query : String)
    (leaves : List String) : .keep time query leaves ∉ s.plainMarks r := by
  intro h
  unfold plainMarks at h
  rcases List.mem_cons.1 h with h | h
  · cases h
  · split at h
    · cases h
    · cases List.mem_singleton.1 h

theorem Session.keep_not_mem_leafMarks (s : Session) (behaviour : Behaviour) (deadline : Nat)
    (r : Request) (leaves : List String) (time : Nat) (query : String) (kept : List String) :
    .keep time query kept ∉ s.leafMarks behaviour deadline r leaves := by
  induction leaves generalizing s with
  | nil => exact List.not_mem_nil
  | cons leaf rest ih =>
      intro h
      rcases List.mem_append.1 h with h | h
      · exact s.keep_not_mem_plainMarks _ time query kept h
      · exact ih _ h

namespace Stage.Follows

variable {s q : Session} {request : Request} {behaviour : Behaviour} {f : Finished Answer}
  {rest marks : List Mark} {stage : Stage} {stats : Stats}

theorem enters {deadline : Nat} {opening entry : List Mark}
    (h : s.Enters behaviour deadline request stage stats opening entry) :
    stage.Follows s request entry := by
  have hnone : ∀ op, Ascribed op [] [] := fun op => .of_keep op 0 "" []
  cases h with
  | plain hroute =>
      constructor
      case ascribed => exact .startPlain s behaviour deadline request
      case completer => exact fun h => nomatch hroute.symm.trans h
      case resolving => exact fun h => nomatch h
      case kept => exact fun h => absurd h (s.keep_not_mem_plainMarks _ _ _ _)
  | completer hroute hsearch =>
      constructor
      case ascribed => exact hnone _
      case completer => exact fun _ => ⟨rfl, rfl⟩
      case resolving => exact fun h => nomatch h
      case kept => exact fun h => absurd h List.not_mem_nil
  | hit hroute hget =>
      constructor
      case ascribed => exact .enterLeaves _ behaviour deadline request _
      case completer => exact fun h => nomatch hroute.symm.trans h
      case resolving => exact fun h => absurd h (Session.enterLeaves_ne_resolving _ _ _ _ _ _)
      case kept => exact fun h => absurd h (Session.keep_not_mem_leafMarks _ _ _ _ _ _ _ _)
  | miss hroute hsearch hget =>
      constructor
      case ascribed => exact hnone _
      case completer => exact fun h => nomatch hroute.symm.trans h
      case resolving => exact fun _ => ⟨rfl, hroute, hget⟩
      case kept => exact fun h => absurd h List.not_mem_nil

theorem receives {c : Call} (hc : c.request = request) (h : c.stage.Follows s request rest)
    (hr : c.Receives q behaviour f marks stage stats) : stage.Follows s request (rest ++ marks) := by
  cases hr with
  | idle =>
      rw [List.append_nil]
      exact h
  | completed hstage =>
      rw [hstage] at h
      rw [List.append_nil]
      exact ⟨h.ascribed, h.completer, (fun h => nomatch h), h.kept⟩
  | failed hstage =>
      rw [hstage] at h
      rw [List.append_nil]
      exact ⟨h.ascribed, h.completer, (fun h => nomatch h), h.kept⟩
  | @resolved leaves hstage =>
      obtain ⟨hrest, hroute, hget⟩ := h.resolving hstage
      rw [hrest, hc, List.nil_append]
      constructor
      case ascribed =>
        exact (Ascribed.of_keep request.operation q.now request.key leaves).append
          (.enterLeaves _ behaviour c.deadline request leaves)
      case completer => exact fun h => nomatch hroute.symm.trans h
      case resolving => exact fun h => absurd h (Session.enterLeaves_ne_resolving _ _ _ _ _ _)
      case kept =>
        intro time query kept hm
        rcases List.mem_append.1 hm with hm | hm
        · cases leaves with
          | nil => cases hm
          | cons leaf rest =>
              cases List.mem_singleton.1 hm
              exact ⟨rfl, hroute, hget⟩
        · exact absurd hm (Session.keep_not_mem_leafMarks _ _ _ _ _ _ _ _)
  | @plain b hstage =>
      rw [hstage] at h
      have hmarks := h.ascribed.received q.now f
      constructor
      case ascribed => simpa [branches] using hmarks
      case completer => exact fun hroute => nomatch (h.completer hroute).2
      case resolving => exact fun h => nomatch h
      case kept =>
        intro time query kept hm
        rcases List.mem_append.1 hm with hm | hm
        · exact h.kept hm
        · obtain ⟨_, _, _, hsame⟩ := Branch.mem_marks.1 hm
          cases hsame
  | @leaves bs hstage =>
      rw [hstage] at h
      constructor
      case ascribed => exact h.ascribed.received q.now f
      case completer =>
        intro hroute
        obtain ⟨hrest, hbs⟩ := h.completer hroute
        have hbs : bs = [] := hbs
        rw [hrest, hbs]
        exact ⟨rfl, rfl⟩
      case resolving => exact fun h => nomatch h
      case kept =>
        intro time query kept hm
        rcases List.mem_append.1 hm with hm | hm
        · exact h.kept hm
        · obtain ⟨b, _, hm⟩ := List.mem_flatMap.1 hm
          obtain ⟨_, _, _, hsame⟩ := Branch.mem_marks.1 hm
          cases hsame

end Stage.Follows

/-- The marks of a call are an opening, and what follows from it. -/
theorem Watch.Trail.follows {may : Session → Nat → Prop} {r : Run} {behaviour : Behaviour}
    {request : Request} {log : List Footprint} {w : Watch}
    (h : Trail may r behaviour request log w) :
    ∃ rest, ownMarks log = r.session.opening request ++ rest ∧
      w.call.stage.Follows r.session request rest :=
  h.stage_induction (P := fun rest stage _ => stage.Follows r.session request rest)
    (fun henter => .enters henter) (fun _ hc ih hreceive => .receives hc ih hreceive)

end MetricFanout
