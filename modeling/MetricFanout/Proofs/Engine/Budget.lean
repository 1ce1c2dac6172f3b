import MetricFanout.Proofs.Engine.Narrowing
import MetricFanout.Proofs.Engine.Watch
/-!
# The time that a call takes

A call has ended when its global time limit comes. This holds in any run, whatever is in the caches, whoever
holds or waits for permits, and however backends behave, because all gatherings that a call begins have
the deadline of the call, and the grace window only shortens a timer.

## Implementation notes

Computation takes no time: results are taken before time passes, and no timer is passed by. Both are
conditions on waiting; a reply may come as late as it likes. A call is owed a result by every gathering it
waits for, and `Owes` says that it comes in time.
-/

namespace MetricFanout

variable {σ α : Type}

/-! ## Gatherings that end in time -/

namespace Gather

/-- The grace window only shortens a timer. -/
theorem timer_arrive_le {g : Gather α} {limit : Nat} (ht : g.timer ≤ limit) (hd : g.deadline ≤ limit)
    (now position : Nat) (o : Option (Outcome α)) : (g.arrive now position o).timer ≤ limit := by
  cases o with
  | none => exact ht
  | some o =>
      simp only [arrive, timerAfter]
      split
      · rename_i hgrace
        simp only [Bool.and_eq_true, decide_eq_true_eq] at hgrace
        omega
      · exact ht

end Gather

namespace Floor

/-- A gathering is over, or its timer runs out by a time at the latest. -/
def Owes (f : Floor σ α) (id limit : Nat) : Prop :=
  (∃ g, (id, g) ∈ f.gathers ∧ g.timer ≤ limit ∧ g.deadline ≤ limit) ∨
    ∃ r ∈ f.finished, r.gather = id

namespace Owes

variable {f : Floor σ α} {id limit : Nat}

theorem settle (h : f.Owes id limit) (net : Network σ α) (now : Nat) :
    (f.settle net now).Owes id limit := by
  rw [Owes, settle_gathers, settle_finished]
  rcases h with ⟨g, hg, hlimit⟩ | ⟨r, hr, hid⟩
  · cases hresult : g.result? now with
    | none => exact .inl ⟨g, List.mem_filter.2 ⟨hg, by simp [hresult]⟩, hlimit⟩
    | some replies =>
        refine .inr ⟨⟨id, now, replies⟩, List.mem_append_right _ ?_, rfl⟩
        exact List.mem_filterMap.2 ⟨(id, g), hg, by simp [hresult]⟩
  · exact .inr ⟨r, List.mem_append_left _ hr, hid⟩

theorem begin (h : f.Owes id limit) (net : Network σ α) (now gather after deadline : Nat)
    (targets : List (Target σ)) : (f.begin net now gather after deadline targets).Owes id limit := by
  apply settle
  rw [Owes, addAll_gathers, addAll_finished]
  rcases h with ⟨g, hg, hlimit⟩ | hfinished
  · exact .inl ⟨g, List.mem_append_left _ hg, hlimit⟩
  · exact .inr hfinished

/-- A gathering that begins ends by its deadline. -/
theorem of_begin (f : Floor σ α) (net : Network σ α) (now gather after deadline : Nat)
    (targets : List (Target σ)) :
    (f.begin net now gather after deadline targets).Owes gather deadline := by
  apply settle
  rw [Owes, addAll_gathers]
  exact .inl ⟨Gather.begin (targets.map Target.name) now after deadline,
    List.mem_append_right _ (List.mem_singleton_self _), Nat.le_refl _, Nat.le_refl _⟩

theorem happen (h : f.Owes id limit) (net : Network σ α) (e : FloorEvent σ α) :
    (f.happen net e).Owes id limit := by
  cases e with
  | timer t => exact h.settle net t
  | back t d o =>
      apply settle
      rcases h with ⟨g, hg, htimer, hdeadline⟩ | hfinished
      · refine .inl ⟨if id = d.gather then g.arrive t d.position o else g, ?_, ?_, ?_⟩
        · exact List.mem_map.2 ⟨(id, g), hg, rfl⟩
        · split
          · exact Gather.timer_arrive_le htimer hdeadline t d.position o
          · exact htimer
        · split
          · rw [Gather.arrive_deadline]
            exact hdeadline
          · exact hdeadline
      · exact .inr hfinished

/-- The results of other gatherings may be taken. -/
theorem take {r : Finished α} {rest : List (Finished α)} (h : f.Owes id limit)
    (hfinished : f.finished = r :: rest) (hid : id ≠ r.gather) :
    { f with finished := rest }.Owes id limit := by
  rcases h with hopen | ⟨d, hd, hgather⟩
  · exact .inl hopen
  · rw [hfinished] at hd
    cases List.mem_cons.1 hd with
    | inl hd => exact absurd (hgather.symm.trans (congrArg _ hd)) hid
    | inr hd => exact .inr ⟨d, hd, hgather⟩

end Owes

/-- Nothing happens later than a timer. -/
theorem time_le_timer {net : Network σ α} {f : Floor σ α} {e : FloorEvent σ α}
    (h : f.next? net = some e) {g : Nat × Gather α} (hg : g ∈ f.gathers) : e.time ≤ g.2.timer := by
  cases htimer : f.firstTimer? with
  | none =>
      rw [firstTimer?_eq_none htimer] at hg
      cases hg
  | some t =>
      have hleast : t ≤ g.2.timer := (List.min?_eq_some_iff.1 htimer).2 _ (List.mem_map_of_mem hg)
      refine Nat.le_trans ?_ hleast
      unfold next? at h
      rw [htimer] at h
      cases hback : f.nextBack? net with
      | none =>
          rw [hback] at h
          cases h
          exact Nat.le_refl _
      | some b =>
          rw [hback] at h
          simp only at h
          split at h
          · cases h
            exact Nat.le_refl _
          · rename_i hlate
            cases h
            exact Nat.le_of_lt (Nat.lt_of_not_le hlate)

end Floor

/-! ## Sessions in which computation takes no time -/

namespace Session

variable {behaviour : Behaviour} {s q : Session} {deeds : List Deed}

theorem Act.owes (a : Act behaviour s deeds q) :
    (∀ id limit, s.floor.Owes id limit → q.floor.Owes id limit) ∧
      ∀ i ∈ asked deeds, q.floor.Owes i.gather i.deadline := by
  have hsame : (∀ id limit, s.floor.Owes id limit → s.floor.Owes id limit) ∧
      ∀ i ∈ ([] : List Inquiry), s.floor.Owes i.gather i.deadline :=
    ⟨fun _ _ h => h, fun _ hi => absurd hi List.not_mem_nil⟩
  cases a with
  | change paths => exact hsame
  | search query => exact hsame
  | know r found => exact hsame
  | hear r f => exact hsame
  | resolve query leaves => exact hsame
  | ask deadline r backends =>
      refine ⟨fun id limit h => h.begin behaviour.network s.now _ _ deadline _, ?_⟩
      intro i hi
      rw [List.mem_singleton.1 hi]
      exact .of_begin _ _ _ _ _ _ _

/-- What was owed stays owed, and so is what calls ask for. -/
theorem Acts.owes (h : Acts behaviour s deeds q) :
    (∀ id limit, s.floor.Owes id limit → q.floor.Owes id limit) ∧
      ∀ i ∈ asked deeds, q.floor.Owes i.gather i.deadline := by
  induction h with
  | refl => exact ⟨fun _ _ h => h, fun _ hi => absurd hi List.not_mem_nil⟩
  | act _ a ih =>
      obtain ⟨hkeep, hasked⟩ := ih
      obtain ⟨hkeep', hasked'⟩ := a.owes
      refine ⟨fun id limit h => hkeep' id limit (hkeep id limit h), ?_⟩
      intro i hi
      rw [asked_append] at hi
      cases List.mem_append.1 hi with
      | inl hi => exact hkeep' _ _ (hasked i hi)
      | inr hi => exact hasked' i hi

end Session

/-! ## Calls that end in time -/

namespace Watch

/-- A call has ended by a time, or it is owed a result by then. -/
structure OnTime (limit : Nat) (w : Watch) : Prop where
  stamped : w.call.Stamped
  ended : ∀ t, w.call.endedAt = some t → t ≤ limit
  now : w.call.endedAt = none → w.session.now ≤ limit
  owed : ∀ x ∈ w.call.awaited, w.session.floor.Owes x.1 limit

namespace OnTime

variable {limit : Nat} {w v : Watch}

theorem start (r : Run) (behaviour : Behaviour) (request : Request) :
    (start r behaviour request).OnTime (r.session.now + r.session.engine.timeouts.globalMs) := by
  have hacts := Call.acts_start r.session behaviour request
  obtain ⟨hstamped, htime⟩ := Call.stamped_start r.session behaviour request
  constructor
  case stamped => exact hstamped
  case ended =>
    intro t ht
    rw [htime t ht]
    exact Nat.le_add_right _ _
  case now =>
    intro _
    have hnow : (Watch.start r behaviour request).session.now = _ := hacts.now_eq
    rw [hnow]
    exact Nat.le_add_right _ _
  case owed =>
    intro x hx
    have hawaited : (Watch.start r behaviour request).call.awaited = _ :=
      Call.awaited_start r.session behaviour request
    rw [hawaited] at hx
    obtain ⟨i, hi, rfl⟩ := List.mem_map.1 hx
    have howed := hacts.owes.2 i hi
    rw [Session.deadline_enterDeeds _ _ _ _ i hi] at howed
    exact howed

/-- What neither touches the call nor passes a timer by. -/
theorem of_same (h : w.OnTime limit) (hcall : v.call = w.call)
    (hnow : w.call.endedAt = none → v.session.now ≤ limit)
    (howes : ∀ id, w.session.floor.Owes id limit → v.session.floor.Owes id limit) : v.OnTime limit := by
  constructor
  case stamped =>
    rw [hcall]
    exact h.stamped
  case ended =>
    rw [hcall]
    exact h.ended
  case now =>
    rw [hcall]
    exact hnow
  case owed =>
    rw [hcall]
    exact fun x hx => howes x.1 (h.owed x hx)

/-- A call that has not ended waits for a gathering, and its timer does not run out later. -/
theorem timer_le (h : w.OnTime limit) (hopen : w.call.endedAt = none)
    (hfinished : w.session.floor.finished = []) : ∃ g ∈ w.session.floor.gathers, g.2.timer ≤ limit := by
  have hwaits : w.call.awaited ≠ [] := by
    intro hnone
    have hended := h.stamped.2 hnone
    rw [hopen] at hended
    cases hended
  obtain ⟨x, hx⟩ := List.exists_mem_of_ne_nil _ hwaits
  rcases h.owed x hx with ⟨g, hg, htimer, _⟩ | ⟨r, hr, _⟩
  · exact ⟨_, hg, htimer⟩
  · rw [hfinished] at hr
    cases hr

theorem handOver (h : w.OnTime limit) (hlimit : w.call.deadline = limit) (behaviour : Behaviour)
    {f : Finished Answer} {rest : List (Finished Answer)}
    (hfinished : w.session.floor.finished = f :: rest) : (w.handOver behaviour f rest).OnTime limit := by
  have hmid := w.acts_midway behaviour f rest
  have hcall := w.call.acts_receive (w.midway behaviour f rest) behaviour f
  have hafter := w.acts_afterwards behaviour f rest
  have hnow : (w.handOver behaviour f rest).session.now = w.session.now := calc
    (w.handOver behaviour f rest).session.now
        = (w.call.receive (w.midway behaviour f rest) behaviour f).2.now := hafter.now_eq
    _ = (w.midway behaviour f rest).now := hcall.now_eq
    _ = w.session.now := hmid.now_eq
  have howed : ∀ x ∈ (w.handOver behaviour f rest).call.awaited,
      (w.handOver behaviour f rest).session.floor.Owes x.1 limit := by
    intro x hx
    have hawaited : (w.handOver behaviour f rest).call.awaited = _ := Call.awaited_receive _ _ _ _
    rw [hawaited] at hx
    cases List.mem_append.1 hx with
    | inl hx =>
        obtain ⟨hx, hid⟩ := List.mem_filter.1 hx
        have htaken : (w.session.take rest).floor.Owes x.1 limit :=
          (h.owed x hx).take hfinished (of_decide_eq_true hid)
        exact hafter.owes.1 _ _ (hcall.owes.1 _ _ (hmid.owes.1 _ _ htaken))
    | inr hx =>
        obtain ⟨i, hi, rfl⟩ := List.mem_map.1 hx
        have howes := hcall.owes.2 i hi
        rw [Call.deadline_deeds _ _ _ _ i hi, hlimit] at howes
        exact hafter.owes.1 _ _ howes
  cases hended : w.call.endedAt with
  | some t =>
      have hwaits := h.stamped.1 (by rw [hended]; rfl)
      have hsame : (w.handOver behaviour f rest).call = w.call :=
        Call.receive_of_ended hwaits (by rw [hended]; rfl) _ behaviour f
      constructor
      case stamped =>
        rw [hsame]
        exact h.stamped
      case ended =>
        rw [hsame]
        exact h.ended
      case now =>
        intro hopen
        rw [hsame, hended] at hopen
        cases hopen
      case owed => exact howed
  | none =>
      obtain ⟨hstamped, htime⟩ :=
        Call.stamped_receive h.stamped hended (w.midway behaviour f rest) behaviour f
      have hle : w.session.now ≤ limit := h.now hended
      constructor
      case stamped => exact hstamped
      case ended =>
        intro t ht
        rw [htime t ht, hmid.now_eq]
        exact hle
      case now =>
        intro _
        rw [hnow]
        exact hle
      case owed => exact howed

theorem move (h : w.OnTime limit) (hlimit : w.call.deadline = limit) {own all : List Deed}
    (m : Move Session.Prompt w own all v) : v.OnTime limit := by
  cases m with
  | call behaviour request =>
      have hacts := Call.acts_start w.session behaviour request
      refine h.of_same rfl (fun hopen => ?_) fun id => hacts.owes.1 id limit
      have hnow : (Call.start w.session behaviour request).2.now = _ := hacts.now_eq
      rw [hnow]
      exact h.now hopen
  | handOver behaviour hfinished => exact h.handOver hlimit behaviour hfinished
  | happen behaviour hfinished hnext =>
      refine h.of_same rfl (fun hopen => ?_) fun id howes => howes.happen behaviour.network _
      obtain ⟨g, hg, htimer⟩ := h.timer_le hopen hfinished
      exact Nat.max_le.2 ⟨h.now hopen, Nat.le_trans (Floor.time_le_timer hnext hg) htimer⟩
  | wait hprompt =>
      refine h.of_same rfl (fun hopen => ?_) fun id howes => howes
      obtain ⟨g, hg, htimer⟩ := h.timer_le hopen hprompt.1
      exact Nat.le_trans (hprompt.2 g hg) htimer
  | purge => exact h.of_same rfl h.now fun id howes => howes
  | leave hbefore hafter => exact h.of_same rfl h.now fun id howes => howes

end OnTime

variable {r : Run} {behaviour : Behaviour} {request : Request} {own all : List Deed} {w : Watch}

theorem Course.onTime (h : Course Session.Prompt r behaviour request own all w) :
    w.OnTime (r.session.now + r.session.engine.timeouts.globalMs) := by
  induction h with
  | start => exact .start r behaviour request
  | move h m ih => exact ih.move h.deadline_eq m

theorem OnTime.result {limit : Nat} (h : w.OnTime limit) {t : Nat} (ht : w.call.endedAt = some t) :
    ∃ result stats, w.call.result? = some (result, stats) := by
  have hended := Call.isSome_result? w.call |>.2 (h.stamped.1 (by rw [ht]; rfl))
  obtain ⟨⟨result, stats⟩, hresult⟩ := Option.isSome_iff_exists.1 hended
  exact ⟨result, stats, hresult⟩

end Watch

/-- Nothing happens in a run that has been run to its end. -/
theorem Run.step?_finish (behaviour : Behaviour) (r : Run) :
    (r.finish behaviour).step? behaviour = none := by
  fun_induction finish behaviour r with
  | case1 r h => exact h
  | case2 r q h ih => exact ih

theorem Watch.OnTime.of_finished {limit : Nat} {w : Watch} (h : w.OnTime limit) {later : Behaviour}
    (hstep : w.run.step? later = none) : ∃ t, w.call.endedAt = some t := by
  cases hended : w.call.endedAt with
  | some t => exact ⟨t, rfl⟩
  | none =>
      unfold Run.step? at hstep
      cases hfinished : w.run.session.floor.finished with
      | cons f rest =>
          rw [hfinished] at hstep
          cases hstep
      | nil =>
          rw [hfinished] at hstep
          obtain ⟨g, hg, _⟩ := h.timer_le hended hfinished
          have hnone := Floor.gathers_of_next?_eq_none (Option.map_eq_none_iff.1 hstep)
          exact absurd hg (hnone ▸ List.not_mem_nil)

/-- A call that starts in any run, and is watched while computation takes no time, has ended with a result
by its global time limit, or the limit has not come yet; and whenever everything runs to its end, however
backends behave from then on, it ends with a result by then. -/
theorem Watch.Course.within_budget {r : Run} {behaviour : Behaviour} {request : Request}
    {own all : List Deed} {w : Watch} (h : Course Session.Prompt r behaviour request own all w) :
    (∀ t, w.call.endedAt = some t → t ≤ r.session.now + r.session.engine.timeouts.globalMs ∧
      ∃ result stats, w.call.result? = some (result, stats)) ∧
    (w.call.endedAt = none →
      w.session.now ≤ r.session.now + r.session.engine.timeouts.globalMs) ∧
    ∀ later, ∃ own all v t, Course Session.Prompt r behaviour request own all v ∧
      v.run = w.run.finish later ∧ v.call.endedAt = some t ∧
      t ≤ r.session.now + r.session.engine.timeouts.globalMs ∧
      ∃ result stats, v.call.result? = some (result, stats) := by
  have htime := h.onTime
  refine ⟨fun t ht => ⟨htime.ended t ht, htime.result ht⟩, htime.now, ?_⟩
  intro later
  obtain ⟨own', all', v, hv, hrun, _⟩ := h.finish later
  have hend : v.run.step? later = none := by
    rw [hrun]
    exact Run.step?_finish _ _
  obtain ⟨t, ht⟩ := hv.onTime.of_finished hend
  exact ⟨own', all', v, t, hv, hrun, ht, hv.onTime.ended t ht, hv.onTime.result ht⟩

/-- A find that is put to two backends ends by its limit. -/
theorem Watch.Course.within_budget_pair : ∃ own all v t,
    Course Session.Prompt ⟨.ofEngine Pair.engine, []⟩ Pair.behaviour (.find "a*") own all v ∧
      v.call.endedAt = some t ∧ t ≤ 10000 := by
  have hstart : Course Session.Prompt ⟨.ofEngine Pair.engine, []⟩ Pair.behaviour (.find "a*") _ _ _ :=
    .start
  obtain ⟨_, _, hfinish⟩ := within_budget hstart
  obtain ⟨own, all, v, t, hv, _, ht, hle, _⟩ := hfinish Pair.behaviour
  exact ⟨own, all, v, t, hv, ht, hle⟩

end MetricFanout
