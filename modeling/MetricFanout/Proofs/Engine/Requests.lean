import MetricFanout.Proofs.Engine.Tallies
/-!
# Requests to numbered backends

How many requests backends get from a call, by their numbers. The numbers of the pool come first, and sub-calls
send to the pool alone: what is asked behind the opening of a call is inside the pool. A find puts one request
to every backend of the pool for each key that the path cache does not know.

A request is counted for each target of what is sent, whatever becomes of it on the floor. Nothing else is
sent: gatherings have the numbers of sendings, in their order.
-/

namespace MetricFanout

/-! ## Sendings -/

/-- What is sent with a mark. -/
def Mark.sending? : Mark → Option Sending
  | .send d => some d
  | _ => none

/-- All that is sent, in order. -/
def sendings (marks : List Mark) : List Sending := marks.filterMap Mark.sending?

/-- The number of requests to a backend. -/
def requests (number : Nat) (marks : List Mark) : Nat :=
  ((sendings marks).flatMap fun d => d.targets.map Prod.fst).count number

section Sendings

variable {marks marks' : List Mark}

@[simp] theorem sendings_append (marks marks' : List Mark) :
    sendings (marks ++ marks') = sendings marks ++ sendings marks' := List.filterMap_append

theorem mem_sendings {d : Sending} : d ∈ sendings marks ↔ .send d ∈ marks := by
  rw [sendings, List.mem_filterMap]
  constructor
  · rintro ⟨m, hm, hd⟩
    cases m <;> cases hd
    exact hm
  · exact fun hd => ⟨_, hd, rfl⟩

@[simp] theorem requests_append (number : Nat) (marks marks' : List Mark) :
    requests number (marks ++ marks') = requests number marks + requests number marks' := by
  simp only [requests, sendings_append, List.flatMap_append, List.count_append]

@[simp] theorem requests_nil (number : Nat) : requests number [] = 0 := rfl

@[simp] theorem requests_cons_send (number : Nat) (d : Sending) (marks : List Mark) :
    requests number (.send d :: marks) =
      (d.targets.map Prod.fst).count number + requests number marks := List.count_append

@[simp] theorem requests_cons_look (number time : Nat) (key : String) (hit : Bool)
    (marks : List Mark) : requests number (.look time key hit :: marks) = requests number marks := rfl

@[simp] theorem requests_cons_seek (number time : Nat) (query : String) (hit : Bool)
    (marks : List Mark) : requests number (.seek time query hit :: marks) = requests number marks := rfl

/-- Who is not among the targets gets no request. -/
theorem requests_eq_zero {number : Nat}
    (h : ∀ d, .send d ∈ marks → ∀ x ∈ d.targets, x.1 ≠ number) : requests number marks = 0 := by
  rw [requests, List.count_eq_zero]
  intro hnumber
  obtain ⟨d, hd, hx⟩ := List.mem_flatMap.1 hnumber
  obtain ⟨x, hx, hsame⟩ := List.mem_map.1 hx
  exact h d (mem_sendings.1 hd) x hx hsame

end Sendings

/-! ### Gatherings -/

section Numbers

variable {behaviour : Behaviour} {s q : Session} {m : Mark} {marks : List Mark}

/-- Every gathering that begins is that of something sent, in order. -/
def Session.Numbers (s : Session) (marks : List Mark) (q : Session) : Prop :=
  (sendings marks).map Sending.gather = List.range' s.nextGather (sendings marks).length ∧
    q.nextGather = s.nextGather + (sendings marks).length

theorem Session.Numbers.trans {v : Session} {marks' : List Mark} (h : s.Numbers marks q)
    (h' : q.Numbers marks' v) : s.Numbers (marks ++ marks') v := by
  obtain ⟨hnumbers, hnext⟩ := h
  obtain ⟨hnumbers', hnext'⟩ := h'
  rw [hnext] at hnumbers' hnext'
  rw [Numbers, sendings_append, List.map_append, List.length_append, hnumbers, hnumbers', hnext',
    List.range'_append_1, Nat.add_assoc]
  exact ⟨rfl, rfl⟩

theorem Session.Marking.numbers (a : Marking behaviour s m q) : s.Numbers [m] q := by
  cases a <;> exact ⟨rfl, rfl⟩

theorem Session.Track.numbers (h : Track behaviour s marks q) : s.Numbers marks q := by
  induction h with
  | refl => exact ⟨rfl, rfl⟩
  | mark _ a ih => exact ih.trans a.numbers

theorem Watch.Trail.numbers {may : Session → Nat → Prop} {r : Run} {request : Request}
    {log : List Footprint} {w : Watch} (h : Trail may r behaviour request log w) :
    r.session.Numbers (allMarks log) w.session := by
  induction h with
  | start =>
      rw [allMarks_owned]
      exact (Call.track_start r.session behaviour request).numbers
  | @step log log' w v _ m ih =>
      rw [allMarks_append]
      refine ih.trans ?_
      rcases m.session_cases with ⟨later, rest, _, htrack⟩ | ⟨hlog, hv⟩ | ⟨hlog, _, _, hnext, _⟩
      · exact htrack.numbers
      · rw [hlog, hv]
        exact ⟨rfl, rfl⟩
      · rw [hlog]
        exact ⟨rfl, hnext⟩

end Numbers

/-! ## Numbers of the pool -/

namespace Session

variable {s : Session} (hpool : s.engine.pool.identities.Nodup)
include hpool

/-- A backend of the pool is found under its number. -/
theorem getElem?_numberOf {b : Backend} (hb : b ∈ s.engine.pool.backends) :
    s.engine.pool.backends[s.numberOf b]? = some b := by
  have hlt : s.numberOf b < s.engine.pool.backends.length :=
    List.findIdx_lt_length_of_exists ⟨b, hb, beq_self_eq_true _⟩
  have hsame : s.engine.pool.backends[s.numberOf b].identity = b.identity :=
    eq_of_beq (List.findIdx_getElem (w := hlt))
  rw [List.getElem?_eq_getElem hlt]
  exact congrArg some (List.inj_on_of_nodup_map hpool (List.getElem_mem hlt) hb hsame)

/-- The backends of the pool are numbered by their places. -/
theorem map_numberOf : s.engine.pool.backends.map s.numberOf = List.range s.engine.pool.size := by
  refine List.ext_getElem (by simp [Pool.size]) fun i hi _ => ?_
  rw [List.length_map] at hi
  have hnumber := getElem?_numberOf hpool (List.getElem_mem hi)
  have hlt := (List.getElem?_eq_some_iff.1 hnumber).1
  rw [List.getElem_map, List.getElem_range]
  exact (List.Nodup.getElem_inj_iff hpool.of_map).1 (List.getElem?_eq_some_iff.1 hnumber).2

end Session

/-! ## Inside the pool -/

/-- What has to do with the path cache and the pool alone. Leaves may be remembered, but no query is looked
up. -/
def Mark.Inside (pool : Pool) : Mark → Prop
  | .seek _ _ _ => False
  | .purge _ => False
  | .send d => ∀ x ∈ d.targets, pool.backends[x.1]? = some x.2
  | _ => True

/-- What sub-calls of one operation leave: it is inside the pool, and if they are finds, every backend of the
pool gets one request for each key that the path cache does not know. -/
structure Pooled (pool : Pool) (op : Operation) (marks : List Mark) : Prop where
  inside : ∀ m ∈ marks, m.Inside pool
  finds : op = .find → ∀ n < pool.size, requests n marks = marks.countP (Mark.looks false)

namespace Pooled

variable {pool : Pool} {op : Operation} {marks marks' : List Mark}

theorem append (h : Pooled pool op marks) (h' : Pooled pool op marks') :
    Pooled pool op (marks ++ marks') := by
  constructor
  case inside => exact fun m hm => (List.mem_append.1 hm).elim (h.inside m) (h'.inside m)
  case finds =>
    intro hop n hn
    rw [requests_append, List.countP_append, h.finds hop n hn, h'.finds hop n hn]

theorem nil (pool : Pool) (op : Operation) : Pooled pool op [] :=
  ⟨fun _ hm => absurd hm List.not_mem_nil, fun _ _ _ => rfl⟩

theorem keepMarks (pool : Pool) (op : Operation) (time : Nat) (query : String) (leaves : List String) :
    Pooled pool op (keepMarks time query leaves) := by
  cases leaves with
  | nil => exact nil pool op
  | cons leaf rest =>
      refine ⟨fun m hm => ?_, fun _ _ _ => rfl⟩
      rw [List.mem_singleton.1 hm]
      trivial

theorem branchMarks (pool : Pool) (op : Operation) (now : Nat) (f : Finished Answer)
    (bs : List Branch) : Pooled pool op (bs.flatMap (Branch.marks now f)) := by
  have hstore : ∀ m ∈ bs.flatMap (Branch.marks now f), ∃ h, m = .store h := by
    intro m hm
    obtain ⟨b, _, hm⟩ := List.mem_flatMap.1 hm
    obtain ⟨_, _, _, hm⟩ := Branch.mem_marks.1 hm
    exact ⟨_, hm⟩
  constructor
  case inside =>
    intro m hm
    obtain ⟨h, rfl⟩ := hstore m hm
    trivial
  case finds =>
    intro _ n _
    rw [countP_branchMarks (Mark.ofLookups_looks false)]
    refine requests_eq_zero fun d hd => ?_
    obtain ⟨h, hsame⟩ := hstore _ hd
    cases hsame

theorem plainMarks {s : Session} (hpool : s.engine.pool.identities.Nodup) (r : Request) :
    Pooled s.engine.pool r.operation (s.plainMarks r) := by
  constructor
  case inside =>
    intro m hm
    unfold Session.plainMarks at hm
    rcases List.mem_cons.1 hm with rfl | hm
    · trivial
    · cases hplan : (s.engine.consult s.now r).1 with
      | known found =>
          rw [hplan] at hm
          cases hm
      | ask backends =>
          rw [hplan] at hm
          rw [List.mem_singleton.1 hm]
          intro x hx
          obtain ⟨b, hb, rfl⟩ := List.mem_map.1 hx
          exact Session.getElem?_numberOf hpool (s.backends_consult r hplan hb)
  case finds =>
    intro hop n hn
    obtain ⟨query, rfl⟩ : ∃ query, r = .find query := by
      cases r with
      | find query => exact ⟨query, rfl⟩
      | render target since upTo => cases hop
      | info target => cases hop
    have hplan := Session.consult_find s.engine s.now query
    have hkey : (Request.find query).key = query := rfl
    rw [countP_plainMarks (Mark.ofLookups_looks false), hkey, Session.plainMarks, hplan, hkey]
    cases (s.engine.paths.get s.now query).1 with
    | some c => rfl
    | none =>
        have hall := Session.map_numberOf hpool
        have hone : (List.range s.engine.pool.size).count n = 1 :=
          List.count_eq_one_of_mem List.nodup_range (List.mem_range.2 hn)
        rw [← hall] at hone
        simpa [Mark.looks, Function.comp_def] using hone

theorem leafMarks {s : Session} (hpool : s.engine.pool.identities.Nodup) (behaviour : Behaviour)
    (deadline : Nat) (r : Request) (leaves : List String) :
    Pooled s.engine.pool r.operation (s.leafMarks behaviour deadline r leaves) := by
  induction leaves generalizing s with
  | nil => exact nil _ _
  | cons leaf rest ih =>
      have hsame := (s.acts_startPlain behaviour deadline (r.withKey leaf)).alike.pool
      have hfirst := plainMarks hpool (r.withKey leaf)
      rw [← hsame] at hpool
      have hrest := ih hpool
      rw [hsame] at hrest
      rw [Request.operation_withKey] at hfirst
      exact hfirst.append hrest

/-- What follows from the opening of a call is left by its sub-calls. -/
theorem enters {s : Session} (hpool : s.engine.pool.identities.Nodup) {behaviour : Behaviour}
    {deadline : Nat} {r : Request} {stage : Stage} {stats : Stats} {opening entry : List Mark}
    (h : s.Enters behaviour deadline r stage stats opening entry) :
    Pooled s.engine.pool r.operation entry := by
  cases h with
  | plain hroute => exact plainMarks hpool r
  | completer hroute hsearch => exact nil _ _
  | hit hroute hget => exact leafMarks (s := s.searched r.key) hpool behaviour deadline r _
  | miss hroute hsearch hget => exact nil _ _

theorem receives {s : Session} (hpool : s.engine.pool.identities.Nodup) {behaviour : Behaviour}
    {f : Finished Answer} {c : Call} {stage : Stage} {stats : Stats}
    (h : c.Receives s behaviour f marks stage stats) :
    Pooled s.engine.pool c.request.operation marks := by
  cases h with
  | idle => exact nil _ _
  | completed hstage => exact nil _ _
  | failed hstage => exact nil _ _
  | @resolved leaves hstage =>
      have hsame : (s.resolved c.request.key f).engine.pool = s.engine.pool :=
        (Engine.resolve_same _ _ _ _).2
      rw [← hsame] at hpool
      have hleaves := leafMarks hpool behaviour c.deadline c.request leaves
      rw [hsame] at hleaves
      exact (keepMarks _ _ _ _ _).append hleaves
  | @plain b hstage =>
      have hb := branchMarks s.engine.pool c.request.operation s.now f [b]
      rwa [List.flatMap_singleton] at hb
  | leaves hstage => exact branchMarks _ _ _ _ _

end Pooled

/-- The marks of a call are an opening, and what its sub-calls leave. -/
theorem Watch.Trail.pooled {may : Session → Nat → Prop} {r : Run} {behaviour : Behaviour}
    {request : Request} {log : List Footprint} {w : Watch}
    (hpool : r.session.engine.pool.identities.Nodup) (h : Trail may r behaviour request log w) :
    ∃ rest, ownMarks log = r.session.opening request ++ rest ∧
      Pooled r.session.engine.pool request.operation rest := by
  refine h.stage_induction (P := fun rest _ _ =>
    Pooled r.session.engine.pool request.operation rest) (fun henter => .enters hpool henter) ?_
  intro s later f rest marks stage stats c hs hc ih hreceive
  have hsame := hs.pool
  rw [← hsame] at hpool
  have hmarks := Pooled.receives hpool hreceive
  rw [hsame, hc] at hmarks
  exact ih.append hmarks

end MetricFanout
