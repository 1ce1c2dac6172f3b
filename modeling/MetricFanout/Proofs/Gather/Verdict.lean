import MetricFanout.Proofs.Gather.Room
import MetricFanout.Proofs.Reply.Tally
/-!
# What is said of targets without a reply

A target is without a reply for one of two reasons: its request ended without an outcome, or it had not
ended at the cut-off. A gathering tells the two apart only as long as one of them does not occur: all its
silent targets get the same verdict, which depends on whether any of them is abandoned.

`Separates` says what telling them apart would be; the main statement says exactly when it holds, and what
is counted in either case. The two targets at the end show a gathering in which it does not hold.
-/

namespace MetricFanout

variable {σ α : Type}

namespace Dispatch

variable (d : Dispatch σ) (rs : List (Return σ α))

/-- The positions of the targets whose requests ended without an outcome in time, in order of return. -/
def lost : List Nat := ((d.counted rs).filter fun r => r.outcome.isNone).map Return.position

/-- What is recorded of the targets without a reply, in their order. -/
def recorded : List (Nat × Failure) := (d.silent rs).map fun i => (i, d.verdict rs)

/-- Records that tell the two reasons apart: a target has timed out only if its request had not ended when
nothing was waited for any more, and a target whose request ended without an outcome before that was
aborted. -/
structure Separates (records : List (Nat × Failure)) : Prop where
  timeout : ∀ i, (i, Failure.timeout) ∈ records → i ∈ d.abandoned rs
  aborted : ∀ i ∈ d.lost rs, (i, Failure.aborted) ∈ records

variable {d rs}

theorem mem_lost {i : Nat} : i ∈ d.lost rs ↔
    ∃ r ∈ d.counted rs, r.outcome = none ∧ r.position = i := by
  simp only [lost, List.mem_map, List.mem_filter, Option.isNone_iff_eq_none]
  constructor
  · rintro ⟨r, ⟨hr, ho⟩, hi⟩
    exact ⟨r, hr, ho, hi⟩
  · rintro ⟨r, hr, ho, hi⟩
    exact ⟨r, ⟨hr, ho⟩, hi⟩

theorem mem_abandoned {i : Nat} : i ∈ d.abandoned rs ↔
    i < d.targets.length ∧ ∀ r ∈ d.counted rs, r.position ≠ i := by
  simp only [abandoned, List.mem_filter, List.mem_range, Bool.not_eq_true', Bool.eq_false_iff, ne_eq,
    List.any_eq_true, beq_iff_eq, not_exists, not_and]

theorem mem_silent {i : Nat} : i ∈ d.silent rs ↔
    i < d.targets.length ∧ ∀ r ∈ d.counted rs, r.position = i → r.outcome = none := by
  simp only [silent, List.mem_filter, List.mem_range, Bool.not_eq_true', Bool.eq_false_iff, ne_eq,
    List.any_eq_true, Bool.and_eq_true, beq_iff_eq, not_exists, not_and, Option.isSome_iff_ne_none]
  refine and_congr_right fun _ => forall₂_congr fun r _ => ?_
  tauto

/-- The silent targets are those whose requests ended without an outcome, and the abandoned ones. -/
theorem IsSchedule.silent_perm (h : d.IsSchedule rs) :
    (d.silent rs).Perm (d.lost rs ++ d.abandoned rs) := by
  have hlost : (d.lost rs).Nodup := by
    have hcounted : ((d.counted rs).map Return.position).Nodup :=
      List.pairwise_map.2 (h.nodup.sublist counted_sublist)
    exact hcounted.sublist (List.filter_sublist.map _)
  have hdisjoint : (d.lost rs ++ d.abandoned rs).Nodup := by
    refine List.nodup_append.2 ⟨hlost, List.nodup_range.filter _, ?_⟩
    rintro i hi j hj rfl
    obtain ⟨r, hr, _, hposition⟩ := mem_lost.1 hi
    exact (mem_abandoned.1 hj).2 r hr hposition
  have hsilent : (d.silent rs).Nodup := List.nodup_range.filter _
  refine (List.perm_ext_iff_of_nodup hsilent hdisjoint).2 fun i => ?_
  rw [mem_silent, List.mem_append, mem_lost, mem_abandoned]
  constructor
  · rintro ⟨hi, hnone⟩
    by_cases hex : ∃ r ∈ d.counted rs, r.position = i
    · obtain ⟨r, hr, hposition⟩ := hex
      exact .inl ⟨r, hr, hnone r hr hposition, hposition⟩
    · exact .inr ⟨hi, fun r hr hposition => hex ⟨r, hr, hposition⟩⟩
  · rintro (⟨r, hr, ho, rfl⟩ | ⟨hi, hnone⟩)
    · refine ⟨h.position_lt r (counted_sublist.subset hr), fun s hs hposition => ?_⟩
      have hsr : s = r := h.eq_of_position_eq (counted_sublist.subset hs) (counted_sublist.subset hr)
        hposition
      rw [hsr, ho]
    · exact ⟨hi, fun r hr hposition => absurd hposition (hnone r hr)⟩

theorem mem_recorded {i : Nat} {why : Failure} :
    (i, why) ∈ d.recorded rs ↔ i ∈ d.silent rs ∧ why = d.verdict rs := by
  simp only [recorded, List.mem_map, Prod.mk.injEq]
  constructor
  · rintro ⟨j, hj, rfl, rfl⟩
    exact ⟨hj, rfl⟩
  · rintro ⟨hi, rfl⟩
    exact ⟨i, hi, rfl, rfl⟩

/-- The records tell the two reasons apart exactly if one of them does not occur. -/
theorem IsSchedule.separates_iff (h : d.IsSchedule rs) :
    d.Separates rs (d.recorded rs) ↔ d.lost rs = [] ∨ d.abandoned rs = [] := by
  have hmem : ∀ i, i ∈ d.silent rs ↔ i ∈ d.lost rs ∨ i ∈ d.abandoned rs := by
    intro i
    rw [h.silent_perm.mem_iff, List.mem_append]
  constructor
  · intro hsep
    by_contra hboth
    obtain ⟨hlost, habandoned⟩ := not_or.1 hboth
    obtain ⟨i, hi⟩ := List.exists_mem_of_ne_nil _ hlost
    -- a record of an aborted target would have to carry the verdict, which is the other one
    have hverdict := (mem_recorded.1 (hsep.aborted i hi)).2
    rw [verdict, if_neg habandoned] at hverdict
    cases hverdict
  · rintro (hlost | habandoned)
    · constructor
      · intro i hi
        have hsilent := (hmem i).1 (mem_recorded.1 hi).1
        rw [hlost] at hsilent
        exact hsilent.resolve_left List.not_mem_nil
      · intro i hi
        rw [hlost] at hi
        cases hi
    · constructor
      · intro i hi
        have hverdict := (mem_recorded.1 hi).2
        rw [verdict, if_pos habandoned] at hverdict
        cases hverdict
      · intro i hi
        refine mem_recorded.2 ⟨(hmem i).2 (.inl hi), ?_⟩
        rw [verdict, if_pos habandoned]

/-! ## What is counted -/

/-- The replies that are made of records count one by one. -/
theorem countP_recorded (p : Reply α → Bool) (q : Failure → Bool)
    (hp : ∀ (backend : String) (why : Failure) (elapsed : Nat), p ⟨backend, .error why, elapsed⟩ = q why) :
    ((d.recorded rs).map fun w => (d.replyOf (d.endsAt rs) w.1 (.error w.2) : Reply α)).countP p =
      if q (d.verdict rs) then (d.silent rs).length else 0 := by
  have hone : ∀ w ∈ d.recorded rs,
      (p ∘ fun w => d.replyOf (d.endsAt rs) w.1 (.error w.2)) w = q (d.verdict rs) := by
    intro w hw
    rw [Function.comp_apply, replyOf, hp, (mem_recorded.1 hw).2]
  rw [List.countP_map]
  cases hq : q (d.verdict rs) with
  | true =>
      rw [List.countP_eq_length.2 fun w hw => (hone w hw).trans hq]
      simp [recorded]
  | false =>
      rw [List.countP_eq_zero.2 fun w hw => by rw [hone w hw, hq]; simp]
      rfl

/-- A gathering on an idle floor ends with the replies of those who were heard, and behind them one record
for each of the others. These are the targets whose requests ended without an outcome and those that are
abandoned, and they all get one verdict: they have timed out if any target is abandoned, and were aborted
otherwise. So the two are told apart exactly if no request ended without an outcome in time or no target
is abandoned; and otherwise the requests that ended without an outcome are counted among the timeouts, and
not among the errors of the operation. -/
theorem run_verdict (net : Network σ α) (d : Dispatch σ) (limits : List Nat) (id : Nat) :
    ∃ rs, rs = d.schedule net limits id ∧
      (d.IsSchedule rs ∧ ∀ r ∈ rs, ∃ t, d.targets[r.position]? = some t ∧
        r.outcome = (net.deliver t.subject).outcome) ∧
      (d.run net limits id).finished = [⟨id, d.endsAt rs, d.heard rs ++
        (d.recorded rs).map fun w => d.replyOf (d.endsAt rs) w.1 (.error w.2)⟩] ∧
      ((d.recorded rs).map Prod.fst).Perm (d.lost rs ++ d.abandoned rs) ∧
      (∀ w ∈ d.recorded rs, w.2 = if d.abandoned rs = [] then .aborted else .timeout) ∧
      (d.Separates rs (d.recorded rs) ↔ d.lost rs = [] ∨ d.abandoned rs = []) ∧
      ∀ (stats : Stats) (op : Operation), ∃ counted,
        counted = stats.recordFailures op (d.heard rs ++
          (d.recorded rs).map fun w => d.replyOf (d.endsAt rs) w.1 (.error w.2)) ∧
        counted.timeouts = stats.timeouts + (d.heard rs).countP Reply.isTimeout +
          (if d.abandoned rs = [] then 0 else (d.lost rs).length + (d.abandoned rs).length) ∧
        counted.errors op = stats.errors op + (d.heard rs).countP Reply.isFault +
          (if d.abandoned rs = [] then (d.lost rs).length else 0) := by
  have hschedule := d.isSchedule_schedule net limits id
  have hfinished := d.run_finished net limits id
  have hlength := hschedule.silent_perm.length_eq
  rw [List.length_append] at hlength
  refine ⟨_, rfl, ⟨hschedule, ?_⟩, ?_, ?_, fun w hw => (mem_recorded.1 hw).2, hschedule.separates_iff, ?_⟩
  · intro r hr
    obtain ⟨t, ht, _, _, houtcome⟩ := d.schedule_origin net limits id r hr
    exact ⟨t, ht, houtcome⟩
  · rw [hfinished, replies, recorded, List.map_map]
    rfl
  · have hfst : (d.recorded (d.schedule net limits id)).map Prod.fst =
        d.silent (d.schedule net limits id) := by
      rw [recorded, List.map_map]
      exact List.map_id _
    rw [hfst]
    exact hschedule.silent_perm
  · intro stats op
    refine ⟨_, rfl, ?_, ?_⟩
    · rw [Stats.timeouts_recordFailures, List.countP_append,
        countP_recorded Reply.isTimeout Failure.isTimeout fun _ _ _ => rfl, verdict, hlength]
      split
      · simp [Failure.isTimeout]
      · simp only [Failure.isTimeout, decide_true, if_true]
        omega
    · rw [Stats.errors_recordFailures, if_pos rfl, List.countP_append,
        countP_recorded Reply.isFault (fun f => !f.isTimeout && !f.isNotFound) fun _ _ _ => rfl, verdict,
        hlength]
      split
      · rename_i hnone
        simp only [hnone, Failure.isTimeout, Failure.isNotFound, List.length_nil]
        simp
        omega
      · simp [Failure.isTimeout]

/-! ## Two targets -/

/-- A request to the first ends without an outcome, and the second is never heard of. -/
def silentPair : Network Nat Nat where
  deliver
    | 0 => ⟨some 10, none⟩
    | _ => ⟨none, none⟩
  before a b := a < b

/-- A gathering of the two that waits for 100 ms. -/
def silentDispatch : Dispatch Nat where
  start := 0
  after := 50
  deadline := 100
  targets := [⟨0, "a", 0⟩, ⟨1, "b", 1⟩]

theorem silentPair_ordered : silentPair.Ordered where
  asymm h := by
    simp only [silentPair, decide_eq_true_eq, decide_eq_false_iff_not] at h ⊢
    omega
  cotrans h := by
    simp only [silentPair, decide_eq_true_eq] at h ⊢
    omega

theorem silentPair_schedule : silentDispatch.schedule silentPair [0, 0] 0 = [⟨0, 0, 10, none⟩] := by
  rw [schedule_of_room 0 silentPair_ordered (by simp [Roomy, silentDispatch])]
  simp [due, silentDispatch, returnOf, silentPair, List.zipIdx]

/-- The first target is recorded as timed out, although its request ended long before the deadline; one
error of the operation is missing, and there is one timeout too many. -/
theorem not_separates_pair :
    0 ∈ silentDispatch.lost (silentDispatch.schedule silentPair [0, 0] 0) ∧
      (silentDispatch.run silentPair [0, 0] 0).finished =
        [⟨0, 100, [⟨"a", .error .timeout, 100⟩, ⟨"b", .error .timeout, 100⟩]⟩] ∧
      ¬ silentDispatch.Separates (silentDispatch.schedule silentPair [0, 0] 0)
        (silentDispatch.recorded (silentDispatch.schedule silentPair [0, 0] 0)) ∧
      Stats.recordFailures {} .find
        ([⟨"a", .error .timeout, 100⟩, ⟨"b", .error .timeout, 100⟩] : List (Reply Nat)) =
          { timeouts := 2 } := by
  have hschedule := silentDispatch.isSchedule_schedule silentPair [0, 0] 0
  have hfinished := silentDispatch.run_finished silentPair [0, 0] 0
  rw [silentPair_schedule] at hschedule hfinished ⊢
  have hlost : silentDispatch.lost ([⟨0, 0, 10, none⟩] : List (Return Nat Nat)) = [0] := by decide
  have habandoned : silentDispatch.abandoned ([⟨0, 0, 10, none⟩] : List (Return Nat Nat)) = [1] := by
    decide
  refine ⟨?_, ?_, ?_, rfl⟩
  · rw [hlost]
    exact List.mem_singleton_self 0
  · rw [hfinished]
    rfl
  · rw [hschedule.separates_iff, hlost, habandoned]
    simp

end Dispatch

end MetricFanout
