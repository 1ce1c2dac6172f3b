import MetricFanout.Proofs.Cache.Touches
import MetricFanout.Proofs.Engine.Deeds
import MetricFanout.Proofs.Engine.Reach
/-!
# Marks of calls

What a call does to the caches and to the floor leaves marks: a look-up, a find that is remembered, leaves
that are remembered, a request that is sent to numbered backends. The caches after a call are the caches
before it, touched as the marks say, and nothing else is sent.

## Implementation notes

Deeds say what a call does for its own sake; marks say what others can notice of it. Marks are listed by
functions that follow those of the engine and add nothing to what they do. `Track` ties them to the session:
each mark stands for one change, and there are no other changes.
-/

namespace MetricFanout

/-! ## What is stored -/

namespace Harvest

/-- What is put into the path cache when a find is remembered. -/
def puts (h : Harvest) : List (Touch CachedFind) :=
  if h.merged.found.isEmpty then []
  else
    .put h.time h.query ⟨h.merged.found, h.merged.responders⟩ ::
      (h.merged.found.filter fun x => x.path != h.query).map fun x =>
        .put h.time x.path ⟨[x], h.merged.holdersOf x.path⟩

/-- What is stored is put, and nothing else. -/
theorem mem_puts {h : Harvest} {x : Touch CachedFind} :
    x ∈ h.puts ↔ ∃ key c, h.stored? key = some c ∧ x = .put h.time key c := by
  unfold puts
  constructor
  · intro hx
    split at hx
    · cases hx
    · rename_i hne
      rcases List.mem_cons.1 hx with rfl | hx
      · exact ⟨h.query, _, stored?_query (by simpa using hne), rfl⟩
      · obtain ⟨m, hm, rfl⟩ := List.mem_map.1 hx
        obtain ⟨hm, hquery⟩ := List.mem_filter.1 hm
        exact ⟨m.path, _, stored?_path hm (by simpa using hquery), rfl⟩
  · rintro ⟨key, c, hc, rfl⟩
    obtain ⟨hne, ⟨rfl, rfl⟩ | ⟨hkey, m, hm, rfl, rfl⟩⟩ := stored?_cases hc
    · rw [if_neg (by simpa using hne)]
      exact List.mem_cons_self
    · rw [if_neg (by simpa using hne)]
      refine List.mem_cons_of_mem _ (List.mem_map.2 ⟨m, List.mem_filter.2 ⟨hm, ?_⟩, rfl⟩)
      simpa using hkey

theorem put?_puts {h : Harvest} {key : String} (hkey : h.stored? key = none) :
    ∀ x ∈ h.puts, x.put? key = none := by
  intro x hx
  obtain ⟨k, c, hc, rfl⟩ := mem_puts.1 hx
  have hne : k ≠ key := by
    rintro rfl
    rw [hkey] at hc
    cases hc
  simp [Touch.put?, hne]

end Harvest

theorem Engine.paths_remember (e : Engine) (h : Harvest) :
    (e.remember h.time h.query h.merged).paths = e.paths.after h.puts := by
  unfold remember Harvest.puts
  split
  · rfl
  · simp only [TtlCache.after, List.foldl_cons, List.foldl_map]
    rfl

/-- A find that is remembered changes nothing but the path cache. -/
theorem Engine.remember_eq (e : Engine) (h : Harvest) :
    e.remember h.time h.query h.merged = { e with paths := e.paths.after h.puts } := by
  rw [← paths_remember]
  unfold remember
  split <;> rfl

/-! ## Marks -/

/-- A request that is sent to backends, each with its number, and the number under which replies are
gathered. -/
structure Sending where
  gather : Nat
  time : Nat
  request : Request
  targets : List (Nat × Backend)

/-- The requests as they are put on the floor. -/
def Sending.asks (d : Sending) : List (Target Ask) :=
  d.targets.map fun (number, b) => ⟨number, b.identity, ⟨b, d.request⟩⟩

/-- What can be noticed of a call, and of a purge. -/
inductive Mark where
  /-- A key is looked up in the path cache. -/
  | look (time : Nat) (key : String) (hit : Bool)
  /-- A find that was put to the pool is over, and what it found is remembered. -/
  | store (h : Harvest)
  /-- A query is looked up in the search cache. -/
  | seek (time : Nat) (query : String) (hit : Bool)
  /-- The leaves of a search query are remembered. -/
  | keep (time : Nat) (query : String) (leaves : List String)
  | send (d : Sending)
  | purge (time : Nat)

namespace Mark

def time : Mark → Nat
  | .look time _ _ => time
  | .store h => h.time
  | .seek time _ _ => time
  | .keep time _ _ => time
  | .send d => d.time
  | .purge time => time

/-- What is done to the path cache. -/
def paths : Mark → List (Touch CachedFind)
  | .look time key _ => [.get time key]
  | .store h => h.puts
  | .purge time => [.purge time]
  | _ => []

/-- What is done to the search cache. -/
def searches : Mark → List (Touch (List String))
  | .seek time query _ => [.get time query]
  | .keep time query leaves => [.put time query leaves]
  | .purge time => [.purge time]
  | _ => []

theorem time_paths {m : Mark} {x : Touch CachedFind} (hx : x ∈ m.paths) : x.time = m.time := by
  cases m with
  | look time key hit => cases List.mem_singleton.1 hx; rfl
  | store h =>
      obtain ⟨key, c, _, rfl⟩ := Harvest.mem_puts.1 hx
      rfl
  | seek time query hit => cases hx
  | keep time query leaves => cases hx
  | send d => cases hx
  | purge time => cases List.mem_singleton.1 hx; rfl

theorem time_searches {m : Mark} {x : Touch (List String)} (hx : x ∈ m.searches) :
    x.time = m.time := by
  cases m with
  | look time key hit => cases hx
  | store h => cases hx
  | seek time query hit => cases List.mem_singleton.1 hx; rfl
  | keep time query leaves => cases List.mem_singleton.1 hx; rfl
  | send d => cases hx
  | purge time => cases List.mem_singleton.1 hx; rfl

end Mark

/-! ## Marks beside the engine -/

namespace Session

/-- A plain call looks its subject up, and may have to ask backends of the pool. -/
def plainMarks (s : Session) (r : Request) : List Mark :=
  .look s.now r.key (s.engine.paths.get s.now r.key).1.isSome ::
    match (s.engine.consult s.now r).1 with
    | .known _ => []
    | .ask backends => [.send ⟨s.nextGather, s.now, r, backends.map fun b => (s.numberOf b, b)⟩]

/-- The sub-calls of leaves start one after the other. -/
def leafMarks (s : Session) (behaviour : Behaviour) (deadline : Nat) (r : Request) :
    List String → List Mark
  | [] => []
  | leaf :: rest =>
      s.plainMarks (r.withKey leaf) ++
        leafMarks (s.startPlain behaviour deadline (r.withKey leaf)).2 behaviour deadline r rest

/-- What is sent to the search backend. Its number is behind those of the pool. -/
def searchSending (s : Session) (route : SearchRoute Backend) (query : String) : Sending :=
  ⟨s.nextGather, s.now, .find query, [(s.engine.pool.size, route.backend)]⟩

/-- What a call has to do with the search cache and the search backend when it is entered. -/
def opening (s : Session) (r : Request) : List Mark :=
  match s.engine.route r, s.engine.search with
  | .completer, some route => [.send (s.searchSending route r.key)]
  | .search, some route =>
      match (s.engine.searches.get s.now r.key).1 with
      | some _ => [.seek s.now r.key true]
      | none => [.seek s.now r.key false, .send (s.searchSending route r.key)]
  | _, _ => []

/-- What a call has to do with the path cache and the pool when it is entered. -/
def entry (s : Session) (behaviour : Behaviour) (deadline : Nat) (r : Request) : List Mark :=
  match s.engine.route r, s.engine.search with
  | .completer, some _ => []
  | .search, some _ =>
      match (s.engine.searches.get s.now r.key).1 with
      | some leaves => (s.searched r.key).leafMarks behaviour deadline r leaves
      | none => []
  | _, _ => s.plainMarks r

/-- The marks of a call that starts. -/
def startMarks (s : Session) (behaviour : Behaviour) (r : Request) : List Mark :=
  s.opening r ++ s.entry behaviour (s.now + s.engine.timeouts.globalMs) r

end Session

/-- A find of a sub-call is remembered when it is over. -/
def Branch.marks (now : Nat) (f : Finished Answer) : Branch → List Mark
  | .waiting (.find query) id _ =>
      if id = f.gather then [.store ⟨id, now, query, f.replies.map (Reply.map Answer.found?)⟩]
      else []
  | _ => []

/-- Leaves are remembered if there are any. -/
def keepMarks (time : Nat) (query : String) : List String → List Mark
  | [] => []
  | leaf :: rest => [.keep time query (leaf :: rest)]

namespace Call

/-- The marks of a call that is handed a gathering. -/
def marks (s : Session) (behaviour : Behaviour) (f : Finished Answer) (c : Call) : List Mark :=
  match c.stage with
  | .resolving id =>
      if id = f.gather then
        match (s.engine.resolve s.now c.request.key f.replies).1 with
        | .ok leaves =>
            keepMarks s.now c.request.key leaves ++
              (s.resolved c.request.key f).leafMarks behaviour c.deadline c.request leaves
        | .error _ => []
      else []
  | .plain b => b.marks s.now f
  | .leaves bs => bs.flatMap (Branch.marks s.now f)
  | _ => []

end Call

/-- The marks of several calls that are handed a gathering. -/
def Run.marks (s : Session) (behaviour : Behaviour) (f : Finished Answer) : List Call → List Mark
  | [] => []
  | c :: rest => c.marks s behaviour f ++ marks (c.receive s behaviour f).2 behaviour f rest

/-! ## One mark, one change -/

namespace Session

variable {behaviour : Behaviour}

/-- A change of a session, and the mark that it leaves. -/
inductive Marking (behaviour : Behaviour) : Session → Mark → Session → Prop where
  | look (s : Session) (r : Request) :
      Marking behaviour s (.look s.now r.key (s.engine.paths.get s.now r.key).1.isSome) (s.looked r)
  | store {s : Session} {h : Harvest} (htime : h.time = s.now) :
      Marking behaviour s (.store h)
        { s with engine := s.engine.remember h.time h.query h.merged }
  | seek (s : Session) (query : String) :
      Marking behaviour s (.seek s.now query (s.engine.searches.get s.now query).1.isSome)
        (s.searched query)
  | keep (s : Session) (query : String) {leaves : List String} (hne : leaves ≠ []) :
      Marking behaviour s (.keep s.now query leaves)
        { s with
          engine := { s.engine with searches := s.engine.searches.put s.now query leaves } }
  | send (s : Session) (deadline : Nat) (r : Request) (targets : List (Nat × Backend)) :
      Marking behaviour s (.send ⟨s.nextGather, s.now, r, targets⟩)
        (s.gather behaviour deadline r targets).2

/-- Changes, one after the other. -/
inductive Track (behaviour : Behaviour) (s : Session) : List Mark → Session → Prop where
  | refl : Track behaviour s [] s
  | mark {marks : List Mark} {m : Mark} {q v : Session} (h : Track behaviour s marks q)
      (a : Marking behaviour q m v) : Track behaviour s (marks ++ [m]) v

theorem Marking.track {s q : Session} {m : Mark} (a : Marking behaviour s m q) :
    Track behaviour s [m] q := Track.refl.mark a

theorem Track.trans {s q v : Session} {marks marks' : List Mark} (h : Track behaviour s marks q)
    (h' : Track behaviour q marks' v) : Track behaviour s (marks ++ marks') v := by
  induction h' with
  | refl =>
      rw [List.append_nil]
      exact h
  | mark _ a ih =>
      rw [← List.append_assoc]
      exact ih.mark a

/-! ## Entering -/

theorem track_startPlain (s : Session) (behaviour : Behaviour) (deadline : Nat) (r : Request) :
    Track behaviour s (s.plainMarks r) (s.startPlain behaviour deadline r).2 := by
  have hlooked : Track behaviour s _ (s.looked r) := (Marking.look s r).track
  cases hplan : (s.engine.consult s.now r).1 with
  | known found =>
      simp only [plainMarks, startPlain_of_known s behaviour deadline hplan, hplan]
      exact hlooked
  | ask backends =>
      simp only [plainMarks, startPlain_of_ask s behaviour deadline hplan, hplan]
      have hsend : Marking behaviour (s.looked r) _ _ :=
        .send (s.looked r) deadline r (backends.map fun b => (s.numberOf b, b))
      simp only [gather, List.map_map] at hsend
      exact hlooked.mark hsend

theorem track_startLeaves (s : Session) (behaviour : Behaviour) (deadline : Nat) (r : Request)
    (leaves : List String) :
    Track behaviour s (s.leafMarks behaviour deadline r leaves)
      (s.startLeaves behaviour deadline r leaves).2 := by
  induction leaves generalizing s with
  | nil => exact .refl
  | cons leaf rest ih => exact (s.track_startPlain behaviour deadline _).trans (ih _)

theorem track_enterLeaves (s : Session) (behaviour : Behaviour) (deadline : Nat) (r : Request)
    (leaves : List String) :
    Track behaviour s (s.leafMarks behaviour deadline r leaves)
      (s.enterLeaves behaviour deadline r leaves).2 := by
  unfold enterLeaves
  split
  · rename_i hempty
    rw [List.isEmpty_iff.1 hempty]
    exact .refl
  · exact s.track_startLeaves behaviour deadline r leaves

theorem track_gatherSearch (s : Session) (behaviour : Behaviour) (deadline : Nat)
    (route : SearchRoute Backend) (query : String) :
    Track behaviour s [.send (s.searchSending route query)]
      (s.gatherSearch behaviour deadline route query).2 :=
  (Marking.send s deadline (.find query) [(s.engine.pool.size, route.backend)]).track

theorem track_enter (s : Session) (behaviour : Behaviour) (deadline : Nat) (r : Request) :
    Track behaviour s (s.opening r ++ s.entry behaviour deadline r)
      (s.enter behaviour deadline r).2.2 := by
  have hplain := s.track_startPlain behaviour deadline r
  cases hroute : s.engine.route r with
  | plain =>
      simp only [enter, opening, entry, hroute, List.nil_append]
      exact hplain
  | completer =>
      cases hsearch : s.engine.search with
      | none =>
          simp only [enter, opening, entry, hroute, hsearch, List.nil_append]
          exact hplain
      | some route =>
          simp only [enter, opening, entry, hroute, hsearch, List.append_nil]
          exact s.track_gatherSearch behaviour deadline route r.key
  | search =>
      cases hsearch : s.engine.search with
      | none =>
          simp only [enter, opening, entry, hroute, hsearch, List.nil_append]
          exact hplain
      | some route =>
          have hsearched : Track behaviour s _ (s.searched r.key) := (Marking.seek s r.key).track
          have hleaves : (s.engine.consultSearch s.now r.key).1 =
              (s.engine.searches.get s.now r.key).1 := rfl
          simp only [enter, opening, entry, hroute, hsearch, hleaves]
          cases hget : (s.engine.searches.get s.now r.key).1 with
          | some leaves =>
              rw [hget] at hsearched
              exact hsearched.trans (track_enterLeaves _ behaviour deadline r leaves)
          | none =>
              rw [hget] at hsearched
              exact hsearched.trans (track_gatherSearch _ behaviour deadline route r.key)

end Session

/-! ## Going on -/

namespace Branch

theorem track_receive (s : Session) (behaviour : Behaviour) (f : Finished Answer) (b : Branch) :
    s.Track behaviour (b.marks s.now f) (b.receive s f).2 := by
  cases b with
  | done result stats => exact .refl
  | waiting r id stats =>
      by_cases hid : id = f.gather
      · cases r with
        | find query =>
            simp only [marks, receive, if_pos hid, Engine.conclude_find]
            exact (Session.Marking.store (h := ⟨id, s.now, query, _⟩) rfl).track
        | render target since upTo =>
            simp only [marks, receive, if_pos hid]
            exact .refl
        | info target =>
            simp only [marks, receive, if_pos hid]
            exact .refl
      · cases r <;> simp only [marks, receive, if_neg hid] <;> exact .refl

theorem track_receiveAll (s : Session) (behaviour : Behaviour) (f : Finished Answer)
    (bs : List Branch) :
    s.Track behaviour (bs.flatMap (Branch.marks s.now f)) (receiveAll s f bs).2 := by
  induction bs generalizing s with
  | nil => exact .refl
  | cons b rest ih =>
      have hrest := ih (b.receive s f).2
      rw [receive_now] at hrest
      exact (track_receive s behaviour f b).trans hrest

end Branch

namespace Session

theorem track_resolved (s : Session) (behaviour : Behaviour) (query : String) (f : Finished Answer)
    {leaves : List String} (h : (s.engine.resolve s.now query f.replies).1 = .ok leaves) :
    Track behaviour s (keepMarks s.now query leaves) (s.resolved query f) := by
  rw [Engine.resolve_fst] at h
  rw [resolved, Engine.resolve_snd, h]
  cases leaves with
  | nil => exact .refl
  | cons leaf rest => exact (Marking.keep s query (List.cons_ne_nil leaf rest)).track

end Session

namespace Call

theorem track_start (s : Session) (behaviour : Behaviour) (r : Request) :
    s.Track behaviour (s.startMarks behaviour r) (start s behaviour r).2 :=
  s.track_enter behaviour _ r

theorem track_receive (s : Session) (behaviour : Behaviour) (f : Finished Answer) (c : Call) :
    s.Track behaviour (c.marks s behaviour f) (c.receive s behaviour f).2 := by
  cases hstage : c.stage with
  | completing id => by_cases hid : id = f.gather <;> simp only [marks, receive, hstage, hid] <;>
      exact .refl
  | resolving id =>
      by_cases hid : id = f.gather
      · simp only [marks, receive, hstage, if_pos hid]
        cases hleaves : (s.engine.resolve s.now c.request.key f.replies).1 with
        | error err =>
            have hsame := s.resolved_of_error c.request.key f hleaves
            rw [Session.resolved] at hsame
            simp only [hsame]
            exact .refl
        | ok leaves =>
            exact (s.track_resolved behaviour c.request.key f hleaves).trans
              (Session.track_enterLeaves _ behaviour c.deadline c.request leaves)
      · simp only [marks, receive, hstage, if_neg hid]
        exact .refl
  | plain b =>
      simp only [marks, receive, hstage]
      exact Branch.track_receive s behaviour f b
  | leaves bs =>
      simp only [marks, receive, hstage]
      exact Branch.track_receiveAll s behaviour f bs
  | ended result =>
      simp only [marks, receive, hstage]
      exact .refl

end Call

theorem Run.track_receiveAll (s : Session) (behaviour : Behaviour) (f : Finished Answer)
    (cs : List Call) :
    s.Track behaviour (Run.marks s behaviour f cs) (receiveAll s behaviour f cs).2 := by
  induction cs generalizing s with
  | nil => exact .refl
  | cons c rest ih => exact (c.track_receive s behaviour f).trans (ih _)

/-! ## What marks say -/

namespace Session

variable {behaviour : Behaviour} {s q : Session} {m : Mark} {marks : List Mark}

theorem Marking.now_eq (a : Marking behaviour s m q) : q.now = s.now := by
  cases a <;> rfl

theorem Track.now_eq (h : Track behaviour s marks q) : q.now = s.now := by
  induction h with
  | refl => rfl
  | mark _ a ih => exact a.now_eq.trans ih

theorem Marking.time_eq (a : Marking behaviour s m q) : m.time = s.now := by
  cases a with
  | store htime => exact htime
  | _ => rfl

/-- Marks are dated. -/
theorem Track.time_eq (h : Track behaviour s marks q) : ∀ m ∈ marks, m.time = s.now := by
  induction h with
  | refl => exact fun _ hm => absurd hm List.not_mem_nil
  | mark h a ih =>
      intro m hm
      rcases List.mem_append.1 hm with hm | hm
      · exact ih m hm
      · rw [List.mem_singleton.1 hm, a.time_eq, h.now_eq]

/-- Only leaves that exist are remembered. -/
theorem Track.leaves_ne_nil (h : Track behaviour s marks q) {time : Nat} {query : String}
    {leaves : List String} (hm : .keep time query leaves ∈ marks) : leaves ≠ [] := by
  induction h with
  | refl => cases hm
  | mark h a ih =>
      rcases List.mem_append.1 hm with hm | hm
      · exact ih hm
      · cases List.mem_singleton.1 hm
        cases a with
        | keep query hne => exact hne

/-! ### Caches -/

/-- The caches of a later session are those of an earlier one, touched as marks say. -/
structure Touched (s : Session) (marks : List Mark) (q : Session) : Prop where
  paths : q.engine.paths = s.engine.paths.after (marks.flatMap Mark.paths)
  searches : q.engine.searches = s.engine.searches.after (marks.flatMap Mark.searches)

theorem Touched.refl (s : Session) : s.Touched [] s := ⟨rfl, rfl⟩

theorem Touched.trans {v : Session} {marks' : List Mark} (h : s.Touched marks q)
    (h' : q.Touched marks' v) : s.Touched (marks ++ marks') v := by
  constructor
  case paths => rw [h'.paths, h.paths, List.flatMap_append, TtlCache.after_append]
  case searches => rw [h'.searches, h.searches, List.flatMap_append, TtlCache.after_append]

theorem Marking.touched (a : Marking behaviour s m q) : s.Touched [m] q := by
  cases a with
  | look r => exact ⟨rfl, rfl⟩
  | @store h htime =>
      constructor
      case paths =>
        simp only [Engine.remember_eq, List.flatMap_singleton]
        rfl
      case searches => simp only [Engine.remember_eq]; rfl
  | seek query => exact ⟨rfl, rfl⟩
  | keep query hne => exact ⟨rfl, rfl⟩
  | send deadline r targets => exact ⟨rfl, rfl⟩

theorem Track.touched (h : Track behaviour s marks q) : s.Touched marks q := by
  induction h with
  | refl => exact .refl s
  | mark _ a ih => exact ih.trans a.touched

/-! ### The floor -/

/-- A ledger has a page with the targets of all that is sent. -/
def Pages (asks : Ledger Ask) (bound : Nat) (marks : List Mark) : Prop :=
  ∀ d, .send d ∈ marks → d.gather < bound ∧ asks d.gather = d.asks

theorem Pages.grow {asks asks' : Ledger Ask} {bound bound' : Nat} (h : Pages asks bound marks)
    (hg : asks.Grows bound asks' bound') : Pages asks' bound' marks := by
  intro d hd
  obtain ⟨hlt, hasks⟩ := h d hd
  exact ⟨Nat.lt_of_lt_of_le hlt hg.le, (hg.same _ hlt).trans hasks⟩

theorem Pages.append {asks : Ledger Ask} {bound : Nat} {marks' : List Mark}
    (h : Pages asks bound marks) (h' : Pages asks bound marks') :
    Pages asks bound (marks ++ marks') := by
  intro d hd
  exact (List.mem_append.1 hd).elim (h d) (h' d)

theorem Marking.sound {asks : Ledger Ask} (a : Marking behaviour s m q)
    (hs : s.floor.Sound asks s.nextGather) : ∃ asks', q.floor.Sound asks' q.nextGather ∧
      asks.Grows s.nextGather asks' q.nextGather ∧ Pages asks' q.nextGather [m] := by
  cases a with
  | send deadline r targets =>
      refine ⟨_, hs.begin behaviour.network s.now _ deadline _, Ledger.Grows.note asks _ _, ?_⟩
      intro d hd
      cases List.mem_singleton.1 hd
      exact ⟨Nat.lt_succ_self _, Ledger.note_self _ _ _⟩
  | look r => exact ⟨asks, hs, .refl _ _, fun d hd => nomatch List.mem_singleton.1 hd⟩
  | store htime => exact ⟨asks, hs, .refl _ _, fun d hd => nomatch List.mem_singleton.1 hd⟩
  | seek query => exact ⟨asks, hs, .refl _ _, fun d hd => nomatch List.mem_singleton.1 hd⟩
  | keep query hne => exact ⟨asks, hs, .refl _ _, fun d hd => nomatch List.mem_singleton.1 hd⟩

/-- All requests stay accounted for, and what has been sent is on the ledger. -/
theorem Track.sound {asks : Ledger Ask} (h : Track behaviour s marks q)
    (hs : s.floor.Sound asks s.nextGather) : ∃ asks', q.floor.Sound asks' q.nextGather ∧
      asks.Grows s.nextGather asks' q.nextGather ∧ Pages asks' q.nextGather marks := by
  induction h with
  | refl => exact ⟨asks, hs, .refl _ _, fun _ hd => absurd hd List.not_mem_nil⟩
  | mark _ a ih =>
      obtain ⟨asks', hsound, hgrows, hpages⟩ := ih
      obtain ⟨asks'', hsound', hgrows', hpages'⟩ := a.sound hsound
      exact ⟨asks'', hsound', hgrows.trans hgrows', (hpages.grow hgrows').append hpages'⟩

end Session

end MetricFanout
