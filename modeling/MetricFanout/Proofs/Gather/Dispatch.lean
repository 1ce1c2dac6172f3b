import MetricFanout.Proofs.Gather.Solo
import Mathlib.Tactic.Tauto
/-!
# A single gathering comes to what its schedule says

The run of a gathering on an idle floor ends with exactly one result, and that result is the one that
the schedule prescribes: who is heard, in which order, who is given up, and when it is over.

Before the first success the timer of a gathering is its deadline, and afterwards it stands. So what a
gathering hears is found by induction on the schedule, with one lemma for each of the two states.
-/

namespace MetricFanout

variable {σ α : Type}

/-! ## What is heard -/

namespace Gather

variable {d : Dispatch σ} {rs : List (Return σ α)}

theorem arrive_of_opens {g : Gather α} {r : Return σ α} (hg : g.succeeded = false)
    (htimer : g.timer = g.deadline) (h : r.opens g.deadline = true) :
    (g.arrive r.time r.position r.outcome).succeeded = true ∧
      (g.arrive r.time r.position r.outcome).timer = min g.deadline (r.time + g.after) := by
  cases ho : r.outcome with
  | none => simp [Return.opens, ho] at h
  | some o =>
      have hok : o.isOk = true := by
        simp only [Return.opens, ho, Bool.and_eq_true] at h
        exact h.2
      refine ⟨by simp [arrive, hok], ?_⟩
      simp only [arrive, timerAfter, hok, hg, htimer, Bool.not_false, Bool.and_true, Bool.true_and,
        decide_eq_true_eq]
      split <;> omega

theorem arrive_of_not_opens {g : Gather α} {r : Return σ α} (hg : g.succeeded = false)
    (h : r.opens g.deadline = false) (hr : r.time < g.deadline) :
    (g.arrive r.time r.position r.outcome).succeeded = false ∧
      (g.arrive r.time r.position r.outcome).timer = g.timer := by
  cases ho : r.outcome with
  | none => exact ⟨hg, rfl⟩
  | some o =>
      have hok : o.isOk = false := by
        simpa [Return.opens, ho, hr] using h
      simp [arrive, timerAfter, hg, hok]

/-- Once there was a success the timer stands, and what comes before it is heard. -/
theorem hears_of_succeeded {g : Gather α} (hg : g.succeeded = true)
    (hsorted : rs.Pairwise fun a b => a.time ≤ b.time) :
    g.hears rs = rs.filter (fun r => r.time < g.timer) ∧
      (g.arriveAll (g.hears rs)).timer = g.timer := by
  induction rs generalizing g with
  | nil => exact ⟨rfl, rfl⟩
  | cons r rest ih =>
      obtain ⟨hfirst, hrest⟩ := List.pairwise_cons.1 hsorted
      by_cases ht : r.time < g.timer
      · have hg' : (g.arrive r.time r.position r.outcome).succeeded = true := by
          cases h : r.outcome <;> simp [arrive, hg]
        have htimer : (g.arrive r.time r.position r.outcome).timer = g.timer := by
          cases h : r.outcome <;> simp [arrive, timerAfter, hg]
        obtain ⟨hhears, hlast⟩ := ih hg' hrest
        rw [hears_of_return rest ht, List.filter_cons_of_pos (by simp [ht])]
        refine ⟨by rw [hhears, htimer], ?_⟩
        rw [arriveAll, hlast, htimer]
      · have hlate : ∀ s ∈ r :: rest, g.timer ≤ s.time := by
          intro s hs
          rcases List.mem_cons.1 hs with rfl | hs
          · exact Nat.not_lt.1 ht
          · exact Nat.le_trans (Nat.not_lt.1 ht) (hfirst s hs)
        rw [hears_of_timer hlate]
        refine ⟨(List.filter_eq_nil_iff.2 fun s hs => ?_).symm, rfl⟩
        simpa using hlate s hs

/-- As long as there was no success, the first one decides what is heard and when the timer runs out.
-/
theorem hears_of_not_succeeded {g : Gather α} (hg : g.succeeded = false)
    (htimer : g.timer = g.deadline) (hdeadline : g.deadline = d.deadline)
    (hafter : g.after = d.after) (hsorted : rs.Pairwise fun a b => a.time ≤ b.time) :
    g.hears rs = d.counted rs ∧ (g.arriveAll (g.hears rs)).timer = d.cutoff rs := by
  induction rs generalizing g with
  | nil => exact ⟨by simp [hears, Dispatch.counted], htimer.trans hdeadline⟩
  | cons r rest ih =>
      obtain ⟨hfirst, hrest⟩ := List.pairwise_cons.1 hsorted
      by_cases ht : r.time < g.timer
      · have hr : r.time < g.deadline := htimer ▸ ht
        rw [hears_of_return rest ht, arriveAll]
        cases ho : r.opens g.deadline with
        | true =>
            -- the grace window opens, and what comes behind is heard by the timer alone
            obtain ⟨hg', htimer'⟩ := arrive_of_opens hg htimer ho
            obtain ⟨hhears, hlast⟩ := hears_of_succeeded hg' hrest
            rw [hdeadline] at ho htimer'
            rw [hafter] at htimer'
            rw [hlast, hhears, htimer', Dispatch.counted_cons_of_opens ho,
              Dispatch.cutoff_cons_of_opens ho]
            exact ⟨rfl, rfl⟩
        | false =>
            obtain ⟨hg', htimer'⟩ := arrive_of_not_opens hg ho hr
            obtain ⟨hhears, hlast⟩ := ih hg' (by rw [htimer', arrive_deadline, htimer])
              (by rw [arrive_deadline, hdeadline]) (by rw [arrive_after, hafter]) hrest
            rw [hdeadline] at ho hr
            rw [Dispatch.counted_cons_of_not_opens ho hr, Dispatch.cutoff_cons_of_not_opens ho,
              hlast, hhears]
            exact ⟨rfl, rfl⟩
      · have hlate : ∀ s ∈ r :: rest, g.timer ≤ s.time := by
          intro s hs
          rcases List.mem_cons.1 hs with rfl | hs
          · exact Nat.not_lt.1 ht
          · exact Nat.le_trans (Nat.not_lt.1 ht) (hfirst s hs)
        have hlate' : ∀ s ∈ r :: rest, d.deadline ≤ s.time := by
          rwa [htimer, hdeadline] at hlate
        obtain ⟨hcounted, hcutoff⟩ := Dispatch.counted_of_late hlate'
        rw [hears_of_timer hlate, hcounted, hcutoff]
        exact ⟨rfl, htimer.trans hdeadline⟩

/-! ## What is known in the end -/

@[simp] theorem arriveAll_targets (g : Gather α) (rs : List (Return σ α)) :
    (g.arriveAll rs).targets = g.targets := by
  induction rs generalizing g with
  | nil => rfl
  | cons r rest ih => rw [arriveAll, ih, arrive_targets]

@[simp] theorem arriveAll_start (g : Gather α) (rs : List (Return σ α)) :
    (g.arriveAll rs).start = g.start := by
  induction rs generalizing g with
  | nil => rfl
  | cons r rest ih => rw [arriveAll, ih, arrive_start]

theorem arriveAll_replyOf (g : Gather α) (rs : List (Return σ α)) (now position : Nat)
    (o : Outcome α) : (g.arriveAll rs).replyOf now position o = g.replyOf now position o := by
  simp [replyOf]

theorem arriveAll_replies (g : Gather α) (rs : List (Return σ α)) :
    (g.arriveAll rs).replies =
      g.replies ++ rs.filterMap fun r => r.outcome.map (g.replyOf r.time r.position) := by
  induction rs generalizing g with
  | nil => simp [arriveAll]
  | cons r rest ih =>
      have hreply : (g.arrive r.time r.position r.outcome).replyOf = g.replyOf := by
        funext now position o
        simp [replyOf]
      rw [arriveAll, ih, hreply]
      cases h : r.outcome <;> simp [arrive, h]

theorem mem_arriveAll_waiting {g : Gather α} (hw : g.waiting.Nodup) {i : Nat} :
    i ∈ (g.arriveAll rs).waiting ↔ i ∈ g.waiting ∧ ∀ r ∈ rs, r.position ≠ i := by
  induction rs generalizing g with
  | nil => simp [arriveAll]
  | cons r rest ih =>
      have hw' : (g.arrive r.time r.position r.outcome).waiting.Nodup := by
        rw [arrive_waiting]
        exact hw.sublist List.erase_sublist
      rw [arriveAll, ih hw', arrive_waiting, hw.mem_erase_iff]
      simp only [List.forall_mem_cons, ne_comm (a := i)]
      tauto

theorem mem_arriveAll_lost {g : Gather α} {i : Nat} :
    i ∈ (g.arriveAll rs).lost ↔ i ∈ g.lost ∨ ∃ r ∈ rs, r.outcome = none ∧ r.position = i := by
  induction rs generalizing g with
  | nil => simp [arriveAll]
  | cons r rest ih =>
      rw [arriveAll, ih]
      cases h : r.outcome with
      | none => simp [arrive, h, or_assoc, eq_comm (a := i)]
      | some o => simp [arrive, h]

/-- Every return ends one request. -/
theorem length_arriveAll_waiting {g : Gather α} (hw : g.waiting.Nodup)
    (hmem : ∀ r ∈ rs, r.position ∈ g.waiting)
    (hnodup : rs.Pairwise fun a b => a.position ≠ b.position) :
    (g.arriveAll rs).waiting.length + rs.length = g.waiting.length := by
  induction rs generalizing g with
  | nil => rfl
  | cons r rest ih =>
      obtain ⟨hfirst, hrest⟩ := List.pairwise_cons.1 hnodup
      have hr := hmem r List.mem_cons_self
      have hw' : (g.arrive r.time r.position r.outcome).waiting.Nodup := by
        rw [arrive_waiting]
        exact hw.sublist List.erase_sublist
      have hmem' : ∀ s ∈ rest, s.position ∈ (g.arrive r.time r.position r.outcome).waiting := by
        intro s hs
        rw [arrive_waiting, hw.mem_erase_iff]
        exact ⟨(hfirst s hs).symm, hmem s (List.mem_cons_of_mem _ hs)⟩
      have hlen := ih hw' hmem' hrest
      have hpos := List.length_pos_of_mem hr
      rw [arrive_waiting, List.length_erase_of_mem hr] at hlen
      rw [arriveAll, List.length_cons]
      omega

end Gather

/-! ## The beginning -/

namespace Dispatch

variable (net : Network σ α) (d : Dispatch σ) (limits : List Nat) (id : Nat)

theorem begin_eq : (Floor.ofLimits limits).begin net d.start id d.after d.deadline d.targets =
    (d.asked limits id).settle net d.start := rfl

theorem asked_errands : (d.asked limits id : Floor σ α).errands = Floor.errandsOf id 0 0 d.targets := by
  rw [asked, Floor.addAll_errands]
  rfl

theorem mem_asked {e : Errand σ α} (h : e ∈ (d.asked limits id : Floor σ α).errands) :
    e.ticket = e.position ∧ e.gather = id ∧ e.transit = none := by
  rw [asked_errands] at h
  obtain ⟨i, t, _, rfl⟩ := Floor.mem_errandsOf h
  exact ⟨rfl, rfl, rfl⟩

theorem asked_positions : (d.asked limits id : Floor σ α).errands.map Errand.position =
    List.range d.targets.length := by
  rw [asked_errands, Floor.positions_errandsOf, List.range_eq_range']

theorem alone_asked : Alone id (d.asked limits id : Floor σ α) d.gathering := by
  constructor
  case gathers => rw [asked, Floor.addAll_gathers]
  case finished =>
    rw [asked, Floor.addAll_finished]
    rfl
  case waiting =>
    rw [asked_positions, gathering, Gather.begin, List.length_map]
  case nodup => exact List.nodup_range
  case gather => exact fun e he => (d.mem_asked limits id he).2.1
  case numbered => exact fun e he => (d.mem_asked limits id he).1

/-- The schedule of a gathering is one: nothing comes back before it is sent, in the order of time, and
once at most. -/
theorem isSchedule_schedule : d.IsSchedule (d.schedule net limits id) := by
  have hsince : ((d.asked limits id : Floor σ α).send net d.start).Since d.start := by
    intro e he r hr
    obtain ⟨e', he', rfl | rfl⟩ := Floor.mem_send_errands he
    · simp [Errand.return?, (d.mem_asked limits id he').2.2] at hr
    · exact Errand.le_return?_send hr
  have hnumbered : ((d.asked limits id : Floor σ α).send net d.start).Numbered := by
    intro e he
    obtain ⟨e', he', rfl | rfl⟩ := Floor.mem_send_errands he
    · exact (d.mem_asked limits id he').1
    · exact (d.mem_asked limits id he').1
  obtain ⟨hstart, hsorted⟩ := Floor.returns_sorted net hsince
  obtain ⟨hposition, hnodup⟩ := Floor.returns_positions net hnumbered
  refine ⟨hstart, hsorted, ?_, hnodup⟩
  intro r hr
  have hmem := hposition r hr
  rw [Floor.map_send Errand.position net d.start _ (fun _ => rfl), asked_positions] at hmem
  exact List.mem_range.1 hmem

/-- Every return of the schedule is that of a target, with the outcome that the network has for it. -/
theorem schedule_origin : ∀ r ∈ d.schedule net limits id, ∃ t, d.targets[r.position]? = some t ∧
    r.subject = t.subject ∧ (net.deliver t.subject).delay.isSome ∧
    r.outcome = (net.deliver t.subject).outcome := by
  have hfaithful : ((d.asked limits id : Floor σ α).send net d.start).Faithful net := by
    apply Floor.faithful_send
    intro e he
    exact .inl (d.mem_asked limits id he).2.2
  intro r hr
  obtain ⟨houtcome, hdelay, e, he, hposition, hsubject⟩ := Floor.returns_origin hfaithful r hr
  have hasked : ∃ e' ∈ (d.asked limits id : Floor σ α).errands,
      e'.position = e.position ∧ e'.subject = e.subject := by
    obtain ⟨e', he', rfl | rfl⟩ := Floor.mem_send_errands he
    · exact ⟨e, he', rfl, rfl⟩
    · exact ⟨e', he', rfl, rfl⟩
  obtain ⟨e', he', hposition', hsubject'⟩ := hasked
  rw [asked_errands] at he'
  obtain ⟨i, t, ht, rfl⟩ := Floor.mem_errandsOf he'
  rw [hposition, Nat.zero_add] at hposition'
  rw [hsubject] at hsubject'
  refine ⟨t, ?_, hsubject'.symm, ?_, ?_⟩
  · rw [← hposition']
    exact ht
  · rw [← hsubject'] at hdelay
    exact hdelay
  · rw [← hsubject'] at houtcome
    exact houtcome

/-! ## The end -/

variable {d} {rs : List (Return σ α)}

/-- The gathering that has heard what counts closes with what the schedule prescribes. -/
theorem IsSchedule.close_counted (h : d.IsSchedule rs) (now : Nat) (why : Failure) :
    ((d.gathering : Gather α).arriveAll (d.counted rs)).close now why =
      d.heard rs ++ (d.silent rs).map fun i => d.replyOf now i (.error why) := by
  have hsilent : ((d.gathering : Gather α).arriveAll (d.counted rs)).silent = d.silent rs := by
    simp only [Gather.silent, silent, Gather.arriveAll_targets, gathering, Gather.begin,
      List.length_map]
    apply List.filter_congr
    intro i hi
    have hrange : (List.range d.targets.length).Nodup := List.nodup_range
    rw [Bool.eq_iff_iff]
    simp only [Bool.or_eq_true, List.contains_iff_mem, Bool.not_eq_true', Bool.eq_false_iff,
      List.any_eq_true, Bool.and_eq_true, beq_iff_eq, ne_eq]
    rw [Gather.mem_arriveAll_waiting hrange, Gather.mem_arriveAll_lost]
    constructor
    · rintro (⟨_, hall⟩ | hlost) ⟨r, hr, hsome, hpos⟩
      · exact hall r hr hpos
      · rcases hlost with h' | ⟨q, hq, hnone, hqpos⟩
        · cases h'
        · have hrq : r = q := h.eq_of_position_eq (counted_sublist.subset hr)
            (counted_sublist.subset hq) (hpos.trans hqpos.symm)
          rw [hrq, hnone] at hsome
          cases hsome
    · intro hnone
      by_cases hex : ∃ r ∈ d.counted rs, r.position = i
      · obtain ⟨r, hr, hpos⟩ := hex
        refine .inr (.inr ⟨r, hr, ?_, hpos⟩)
        cases ho : r.outcome with
        | none => rfl
        | some o => exact absurd ⟨r, hr, by simp [ho], hpos⟩ hnone
      · exact .inl ⟨hi, fun r hr hpos => hex ⟨r, hr, hpos⟩⟩
  rw [Gather.close, hsilent, Gather.arriveAll_replies]
  simp only [Gather.arriveAll_replyOf]
  rfl

/-- The gathering waits for nobody any more just when nobody is abandoned. -/
theorem IsSchedule.waiting_counted_eq_nil_iff (h : d.IsSchedule rs) :
    ((d.gathering : Gather α).arriveAll (d.counted rs)).waiting = [] ↔ d.abandoned rs = [] := by
  have hlen : ((d.gathering : Gather α).arriveAll (d.counted rs)).waiting.length +
      (d.counted rs).length = (d.gathering : Gather α).waiting.length := by
    apply Gather.length_arriveAll_waiting List.nodup_range
    · intro r hr
      exact List.mem_range.2 (by simpa using h.position_lt r (counted_sublist.subset hr))
    · exact h.nodup.sublist counted_sublist
  have hperm := h.counted_append_abandoned_perm.length_eq
  simp only [gathering, Gather.begin, List.length_range, List.length_map] at hlen
  simp only [List.length_append, List.length_map, List.length_range] at hperm
  rw [← List.length_eq_zero_iff, ← List.length_eq_zero_iff]
  simp only [gathering, Gather.begin, List.length_map]
  omega

/-- What a gathering comes to that hears what counts and whose timer is the cut-off in the end. -/
theorem IsSchedule.outcome_counted (h : d.IsSchedule rs) (hstart : d.start ≤ d.deadline)
    (htimer : ((d.gathering : Gather α).arriveAll (d.counted rs)).timer = d.cutoff rs) :
    (d.gathering : Gather α).outcome (d.counted rs) = (d.endsAt rs, d.replies rs) := by
  rw [Gather.outcome, replies, endsAt, verdict]
  by_cases hc : d.abandoned rs = []
  · rw [if_pos (List.isEmpty_iff.2 (h.waiting_counted_eq_nil_iff.2 hc)), if_pos hc, if_pos hc,
      h.close_counted]
    rfl
  · have hne : ¬ ((d.gathering : Gather α).arriveAll (d.counted rs)).waiting.isEmpty = true := by
      rw [List.isEmpty_iff, h.waiting_counted_eq_nil_iff]
      exact hc
    rw [if_neg hne, if_neg hc, if_neg hc, h.close_counted, htimer,
      Nat.max_eq_right (le_cutoff h.start_le hstart)]

/-- A gathering that ends when it begins. -/
theorem IsSchedule.result?_of_past (h : d.IsSchedule rs)
    (hpast : d.targets = [] ∨ d.deadline ≤ d.start) :
    (d.gathering : Gather α).result? d.start = some (d.replies rs) ∧ d.endsAt rs = d.start := by
  have hcounted : d.counted rs = [] := by
    rcases hpast with hempty | hlate
    · apply List.eq_nil_iff_forall_not_mem.2
      intro r hr
      have hlt := h.position_lt r (counted_sublist.subset hr)
      simp [hempty] at hlt
    · exact (counted_of_late fun r hr => Nat.le_trans hlate (h.start_le r hr)).1
  have hclose := h.close_counted
  have hwaiting := h.waiting_counted_eq_nil_iff
  rw [hcounted] at hclose hwaiting
  have hend : d.endsAt rs = d.start := by
    rw [endsAt, hcounted]
    split
    · rfl
    · rename_i hc
      rcases hpast with hempty | hlate
      · simp [abandoned, hempty] at hc
      · rw [(counted_of_late fun r hr => Nat.le_trans hlate (h.start_le r hr)).2]
        exact Nat.max_eq_left hlate
  refine ⟨?_, hend⟩
  rw [replies, hend, ← hclose, verdict]
  by_cases hw : (d.gathering : Gather α).waiting = []
  · rw [Gather.result?_of_empty hw, if_pos (hwaiting.1 hw)]
    rfl
  · have hlate : (d.gathering : Gather α).timer ≤ d.start := by
      rcases hpast with hempty | hlate
      · simp [gathering, Gather.begin, hempty] at hw
      · exact hlate
    rw [Gather.result?_of_timer hw hlate, if_neg (mt hwaiting.2 hw)]
    rfl

variable (d)

/-- A gathering on an idle floor ends with one result: the replies that its schedule prescribes, at the
time that it prescribes. -/
theorem run_finished : (d.run net limits id).finished =
    [⟨id, d.endsAt (d.schedule net limits id), d.replies (d.schedule net limits id)⟩] := by
  have hschedule := d.isSchedule_schedule net limits id
  have halone : Alone id (d.asked limits id : Floor σ α) d.gathering := d.alone_asked limits id
  simp only [run, begin_eq]
  by_cases hpast : d.targets = [] ∨ d.deadline ≤ d.start
  · obtain ⟨hresult, hend⟩ := hschedule.result?_of_past hpast
    obtain ⟨hg, he, hf⟩ := halone.settle_of_ended net hresult
    rw [Timetable.run_of_empty hg he, hf, hend]
  · have hlate : d.targets ≠ [] ∧ d.start < d.deadline := by
      simpa only [not_or, Nat.not_le] using hpast
    have hw : (d.gathering : Gather α).waiting ≠ [] := by
      simpa [gathering, Gather.begin] using hlate.1
    obtain ⟨hopen, hreturns⟩ := halone.settle_of_open net (Gather.result?_of_open hw hlate.2)
    obtain ⟨hhears, htimer⟩ := Gather.hears_of_not_succeeded (d := d)
      (g := (d.gathering : Gather α)) rfl rfl rfl rfl hschedule.sorted
    rw [hhears] at htimer
    have houtcome := hschedule.outcome_counted (Nat.le_of_lt hlate.2) htimer
    rw [hopen.run_finished hw, hreturns]
    rw [schedule] at hhears houtcome ⊢
    rw [hhears, houtcome]

end Dispatch

end MetricFanout
