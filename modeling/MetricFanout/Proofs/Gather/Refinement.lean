import MetricFanout.Proofs.Gather.Room
/-!
# A single gathering refines its schedule

Where every request that comes back does so with an outcome, nobody is aborted: a target is heard in
time or it is timed out. The replies of a gathering are then read off its schedule.
-/

namespace MetricFanout

variable {σ α : Type}

namespace Dispatch

variable {net : Network σ α} {d : Dispatch σ} {limits : List Nat} {rs : List (Return σ α)}

theorem silent_eq_abandoned (hout : ∀ r ∈ rs, r.outcome.isSome) : d.silent rs = d.abandoned rs := by
  apply List.filter_congr
  intro i _
  rw [Bool.eq_iff_iff]
  simp only [Bool.not_eq_true', Bool.eq_false_iff, ne_eq, List.any_eq_true, Bool.and_eq_true]
  refine not_congr (exists_congr fun r => and_congr_right fun hr => ?_)
  simp [hout r (counted_sublist.subset hr)]

/-- Who counts is heard with the outcome and at the time of the schedule. -/
theorem map_heard (hout : ∀ r ∈ rs, r.outcome.isSome) :
    (d.heard rs).map (fun r => (r.backend, some r.outcome, r.elapsed)) =
      (d.counted rs).map fun r => (d.nameOf r.position, r.outcome, r.time - d.start) := by
  have hsome : ∀ r ∈ d.counted rs, r.outcome.isSome := fun r hr => hout r (counted_sublist.subset hr)
  rw [heard]
  generalize d.counted rs = counted at hsome ⊢
  induction counted with
  | nil => rfl
  | cons r rest ih =>
      obtain ⟨o, ho⟩ := Option.isSome_iff_exists.1 (hsome r List.mem_cons_self)
      have hrest := ih fun s hs => hsome s (List.mem_cons_of_mem _ hs)
      simp only [List.filterMap_cons, ho, Option.map_some, List.map_cons, hrest]
      rfl

/-- Who is not heard has timed out. -/
theorem replies_eq (hout : ∀ r ∈ rs, r.outcome.isSome) :
    d.replies rs = d.heard rs ++ (d.abandoned rs).map fun i =>
      ⟨d.nameOf i, .error .timeout, d.endsAt rs - d.start⟩ := by
  rw [replies, silent_eq_abandoned hout]
  congr 1
  apply List.map_congr_left
  intro i hi
  rw [verdict, if_neg (List.ne_nil_of_mem hi)]
  rfl

/-- The times of the replies never decrease. -/
theorem IsSchedule.elapsed_sorted (h : d.IsSchedule rs) (hout : ∀ r ∈ rs, r.outcome.isSome) :
    ((d.replies rs).map Reply.elapsed).Pairwise (· ≤ ·) := by
  have helapsed : (d.heard rs).map Reply.elapsed =
      (d.counted rs).map fun r => r.time - d.start := by
    have hthird := congrArg (List.map fun x => x.2.2) (map_heard (d := d) hout)
    rw [List.map_map, List.map_map] at hthird
    exact hthird
  rw [replies_eq hout, List.map_append, helapsed, List.map_map, List.pairwise_append]
  refine ⟨?_, ?_, ?_⟩
  · rw [List.pairwise_map]
    refine (h.sorted.sublist counted_sublist).imp fun {a b} hab => ?_
    exact Nat.sub_le_sub_right hab d.start
  · rw [List.pairwise_map]
    exact List.pairwise_of_forall fun _ _ => Nat.le_refl _
  · intro x hx y hy
    obtain ⟨r, hr, rfl⟩ := List.mem_map.1 hx
    obtain ⟨i, _, rfl⟩ := List.mem_map.1 hy
    exact Nat.sub_le_sub_right (h.time_le_endsAt hr) d.start

/-- A gathering on its own follows a schedule `rs`, of which it hears these replies. -/
structure Follows (d : Dispatch σ) (net : Network σ α) (limits : List Nat) (id : Nat) (rs : List (Return σ α))
    (heard : List (Reply α)) : Prop where
  /-- It ends with one result: those that are heard, and behind them all others as timed out. -/
  finished : (d.run net limits id).finished = [⟨id, d.endsAt rs, heard ++ (d.abandoned rs).map fun i =>
    ⟨d.nameOf i, .error .timeout, d.endsAt rs - d.start⟩⟩]
  /-- Exactly those are heard that count, in order of return, each with its own outcome and time. -/
  counted : heard.map (fun r => (r.backend, some r.outcome, r.elapsed)) =
    (d.counted rs).map fun r => (d.nameOf r.position, r.outcome, r.time - d.start)
  /-- Every target has one reply. -/
  once : ((d.counted rs).map Return.position ++ d.abandoned rs).Perm (List.range d.targets.length)
  /-- The others come in their own order. -/
  ordered : (d.abandoned rs).Pairwise (· < ·)
  /-- It is over with the last return if nobody is abandoned, and else at the cut-off, or at once when that is
  past. -/
  ends : d.endsAt rs =
    if d.abandoned rs = [] then (((d.counted rs).getLast?).map Return.time).getD d.start
    else max d.start (d.cutoff rs)
  /-- The times of the replies never decrease. -/
  elapsed : (heard.map Reply.elapsed ++ (d.abandoned rs).map fun _ => d.endsAt rs - d.start).Pairwise (· ≤ ·)
  schedule : d.IsSchedule rs
  /-- The schedule is made of what the network has for the targets. -/
  origin : ∀ r ∈ rs, ∃ t, d.targets[r.position]? = some t ∧ r.outcome = (net.deliver t.subject).outcome
  /-- With room for all, the schedule is any that the network can prescribe. -/
  due : net.Ordered → d.Roomy limits → rs = d.due net

/-- **A gathering on its own refines its schedule.** First, in order of return, come exactly the targets whose
return is strictly before the cut-off or no later than the first success before the deadline; then come all others
as timed out. -/
theorem run_refines_schedule (net : Network σ α) (d : Dispatch σ) (limits : List Nat) (id : Nat)
    (hout : ∀ t ∈ d.targets, (net.deliver t.subject).delay.isSome →
      (net.deliver t.subject).outcome.isSome) :
    ∃ heard, d.Follows net limits id (d.schedule net limits id) heard := by
  have hschedule := d.isSchedule_schedule net limits id
  have horigin := d.schedule_origin net limits id
  have hsome : ∀ r ∈ d.schedule net limits id, r.outcome.isSome := by
    intro r hr
    obtain ⟨t, ht, _, hdelay, houtcome⟩ := horigin r hr
    rw [houtcome]
    exact hout t (List.mem_of_getElem? ht) hdelay
  have hfinished := d.run_finished net limits id
  have helapsed := hschedule.elapsed_sorted hsome
  rw [replies_eq hsome] at hfinished helapsed
  rw [List.map_append, List.map_map] at helapsed
  refine ⟨d.heard (d.schedule net limits id), ?_⟩
  constructor
  case finished => exact hfinished
  case counted => exact map_heard hsome
  case once => exact hschedule.counted_append_abandoned_perm
  case ordered => exact List.pairwise_lt_range.filter _
  case ends => rfl
  case elapsed => exact helapsed
  case schedule => exact hschedule
  case origin =>
    intro r hr
    obtain ⟨t, ht, _, _, houtcome⟩ := horigin r hr
    exact ⟨t, ht, houtcome⟩
  case due => exact fun hnet hroom => schedule_of_room id hnet hroom

/-- A network of three: the first answers, the second knows nothing, and the third is never heard of. -/
def trio : Network Nat Nat where
  deliver
    | 0 => ⟨some 10, some (.ok 7)⟩
    | 1 => ⟨some 5, some (.error .notFound)⟩
    | _ => ⟨none, none⟩
  before a b := a < b

/-- A gathering of the three, with a grace window of 50 ms in a second. -/
def trioDispatch : Dispatch Nat where
  start := 100
  after := 50
  deadline := 1100
  targets := [⟨0, "a", 0⟩, ⟨1, "b", 1⟩, ⟨2, "c", 2⟩]

theorem trio_ordered : trio.Ordered where
  asymm h := by
    simp only [trio, decide_eq_true_eq, decide_eq_false_iff_not] at h ⊢
    omega
  cotrans h := by
    simp only [trio, decide_eq_true_eq] at h ⊢
    omega

theorem trio_due : trioDispatch.due trio =
    [⟨1, 1, 105, some (.error .notFound)⟩, ⟨0, 0, 110, some (.ok 7)⟩] := by
  simp [due, trioDispatch, returnOf, trio, List.zipIdx, List.mergeSort, Return.before]

theorem run_refines_schedule_trio : (trioDispatch.run trio [0, 0, 0] 4).finished =
    [⟨4, 160, [⟨"b", .error .notFound, 5⟩, ⟨"a", .ok 7, 10⟩, ⟨"c", .error .timeout, 60⟩]⟩] := by
  obtain ⟨heard, h⟩ := run_refines_schedule trio trioDispatch [0, 0, 0] 4 (by decide)
  have hdue := h.due trio_ordered (by simp [Roomy, trioDispatch])
  have hfinished := h.finished
  have hheard := h.counted
  rw [hdue, trio_due] at hfinished hheard
  have hcounted : heard.map (fun r => (r.backend, some r.outcome, r.elapsed)) =
      [("b", some (.error .notFound), 5), ("a", some (.ok 7), 10)] := hheard
  obtain ⟨⟨backend, outcome, elapsed⟩, rest, rfl, hb, hrest⟩ := List.map_eq_cons_iff.1 hcounted
  obtain ⟨⟨backend', outcome', elapsed'⟩, rest', rfl, ha, hnil⟩ := List.map_eq_cons_iff.1 hrest
  cases hb
  cases ha
  rw [List.map_eq_nil_iff.1 hnil] at hfinished
  exact hfinished

end Dispatch

end MetricFanout
