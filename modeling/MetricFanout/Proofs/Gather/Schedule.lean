import MetricFanout.Proofs.Gather.Floor
/-!
# What a gathering should come to

A gathering on its own: a request goes to every target at once, and a schedule says which of them
come back, when, in which order and with what. This module says which of the returns count, when the
gathering is over, and what its replies are, by the schedule alone.

A schedule is a list of returns in the order in which they come. The first success before the deadline
opens the gathering, and the cut-off follows from it. A return counts if it comes strictly before the
cut-off, or no later than the one that opens. The schedule of a dispatch is what its backends do on a
floor on which nobody is ever given up: a request comes back some time after it got its permit.
-/

namespace MetricFanout

variable {σ α : Type}

/-- A request that comes back: from which target, when, and with what outcome, if any. -/
structure Return (σ α : Type) where
  position : Nat
  subject : σ
  time : Nat
  outcome : Option (Outcome α)

/-- Whether a return is a success before a deadline. -/
def Return.opens (deadline : Nat) (r : Return σ α) : Bool :=
  r.time < deadline &&
    match r.outcome with
    | some o => o.isOk
    | none => false

/-- The return of an errand in transit. -/
def Errand.return? (e : Errand σ α) : Option (Return σ α) :=
  e.transit.bind fun t => t.due.map fun due => ⟨e.position, e.subject, due, t.outcome⟩

namespace Floor

/-- An errand comes back and leaves its permit to whoever is next. -/
def release (net : Network σ α) (now : Nat) (e : Errand σ α) (f : Floor σ α) : Floor σ α :=
  send net now (f.dismiss fun d => d.ticket = e.ticket)

theorem length_release_lt (net : Network σ α) (now : Nat) {e : Errand σ α} {f : Floor σ α}
    (he : e ∈ f.errands) : (f.release net now e).errands.length < f.errands.length := by
  simp only [release, send, List.length_map, dismiss_errands]
  exact List.length_filter_lt_length_iff_exists.2 ⟨e, he, by simp⟩

/-- What comes back on a floor, in order, if nobody is ever given up. -/
def returns (net : Network σ α) (f : Floor σ α) : List (Return σ α) :=
  match _h : f.firstBack? net with
  | none => []
  | some e =>
      match e.return? with
      | none => []
      | some r => r :: returns net (f.release net r.time e)
termination_by f.errands.length
decreasing_by exact length_release_lt net _ (firstBack?_mem _h)

theorem returns_of_none {net : Network σ α} {f : Floor σ α} (h : f.firstBack? net = none) :
    f.returns net = [] := by
  rw [returns]
  split
  · rfl
  · simp_all

theorem returns_of_some {net : Network σ α} {f : Floor σ α} {e : Errand σ α} {r : Return σ α}
    (h : f.firstBack? net = some e) (hr : e.return? = some r) :
    f.returns net = r :: (f.release net r.time e).returns net := by
  rw [returns]
  split
  · simp_all
  · rename_i d hd
    obtain rfl := Option.some.inj (hd.symm.trans h)
    simp only [hr]

end Floor

/-- A gathering on its own: when it starts, its two limits, and its targets. The deadline may be
past when it starts. -/
structure Dispatch (σ : Type) where
  start : Nat
  /-- The length of the grace window. -/
  after : Nat
  deadline : Nat
  targets : List (Target σ)

namespace Dispatch

variable (d : Dispatch σ) (rs : List (Return σ α))

/-- The time from which on nothing is waited for: the first success before the deadline opens the
grace window, which ends with the deadline at the latest. -/
def cutoff : Nat :=
  match rs.find? (Return.opens d.deadline) with
  | some s => min d.deadline (s.time + d.after)
  | none => d.deadline

/-- How many returns come no later than the success that opens the gathering. -/
def opening : Nat :=
  match rs.findIdx? (Return.opens d.deadline) with
  | some k => k + 1
  | none => 0

/-- The returns that count: those no later than the success that opens the gathering, and those strictly
before the cut-off. -/
def counted : List (Return σ α) :=
  rs.take (d.opening rs) ++ (rs.drop (d.opening rs)).filter fun r => r.time < d.cutoff rs

/-- The positions of the targets without a return that counts, in their order. -/
def abandoned : List Nat :=
  (List.range d.targets.length).filter fun i => !(d.counted rs).any fun r => r.position == i

/-- When the gathering is over: with the last return if all of them count, at once if there is no target,
and otherwise at the cut-off, or at once if that is past. -/
def endsAt : Nat :=
  if d.abandoned rs = [] then (((d.counted rs).getLast?).map Return.time).getD d.start
  else max d.start (d.cutoff rs)

/-- The name of the target at a position. -/
def nameOf (position : Nat) : String := ((d.targets.map Target.name)[position]?).getD ""

/-- The reply of a target, made of an outcome that was there at a time. -/
def replyOf (time position : Nat) (outcome : Outcome α) : Reply α :=
  ⟨d.nameOf position, outcome, time - d.start⟩

/-- The replies of those who returned an outcome in time, in order of return. -/
def heard : List (Reply α) :=
  (d.counted rs).filterMap fun r => r.outcome.map (d.replyOf r.time r.position)

/-- The positions of the targets that returned no outcome in time, in their order. -/
def silent : List Nat :=
  (List.range d.targets.length).filter fun i =>
    !(d.counted rs).any fun r => r.outcome.isSome && r.position == i

/-- What is said of a target without an outcome: it was aborted if every request came back in time, and
timed out otherwise. -/
def verdict : Failure := if d.abandoned rs = [] then .aborted else .timeout

/-- All replies: those of the targets that were heard, then a failure for each of the others. -/
def replies : List (Reply α) :=
  d.heard rs ++ (d.silent rs).map fun i => d.replyOf (d.endsAt rs) i (.error (d.verdict rs))

/-! ## What the prescription is like -/

/-- A schedule of a gathering: returns come after the start in the order of time, one for a target at
most. -/
structure IsSchedule : Prop where
  start_le : ∀ r ∈ rs, d.start ≤ r.time
  sorted : rs.Pairwise fun a b => a.time ≤ b.time
  position_lt : ∀ r ∈ rs, r.position < d.targets.length
  nodup : rs.Pairwise fun a b => a.position ≠ b.position

variable {d rs} {r : Return σ α} {rest : List (Return σ α)}

theorem cutoff_cons_of_opens (h : r.opens d.deadline = true) :
    d.cutoff (r :: rest) = min d.deadline (r.time + d.after) := by
  simp only [cutoff, List.find?_cons_of_pos h]

theorem cutoff_cons_of_not_opens (h : r.opens d.deadline = false) :
    d.cutoff (r :: rest) = d.cutoff rest := by
  have hneg : ¬ r.opens d.deadline = true := by simp [h]
  simp only [cutoff, List.find?_cons_of_neg hneg]

theorem counted_cons_of_opens (h : r.opens d.deadline = true) :
    d.counted (r :: rest) =
      r :: rest.filter fun s => s.time < min d.deadline (r.time + d.after) := by
  have hopening : d.opening (r :: rest) = 1 := by simp [opening, List.findIdx?_cons, h]
  simp [counted, hopening, cutoff_cons_of_opens h]

/-- A return before the deadline that does not open the gathering counts, and leaves the rest as it is.
-/
theorem counted_cons_of_not_opens (h : r.opens d.deadline = false) (hr : r.time < d.deadline) :
    d.counted (r :: rest) = r :: d.counted rest := by
  cases hk : rest.findIdx? (Return.opens d.deadline) with
  | some k =>
      have hrest : d.opening rest = k + 1 := by simp only [opening, hk]
      have hopening : d.opening (r :: rest) = k + 1 + 1 := by
        simp [opening, List.findIdx?_cons, h, hk]
      simp [counted, hrest, hopening, cutoff_cons_of_not_opens h]
  | none =>
      have hnone : rest.find? (Return.opens d.deadline) = none := by
        apply List.find?_eq_none.2
        intro s hs
        simp [List.findIdx?_eq_none_iff.1 hk s hs]
      have hrest : d.opening rest = 0 := by simp only [opening, hk]
      have hopening : d.opening (r :: rest) = 0 := by
        simp [opening, List.findIdx?_cons, h, hk]
      have hcutoff : d.cutoff rest = d.deadline := by simp only [cutoff, hnone]
      simp [counted, hrest, hopening, cutoff_cons_of_not_opens h, hcutoff, hr]

theorem counted_of_late (h : ∀ r ∈ rs, d.deadline ≤ r.time) :
    d.counted rs = [] ∧ d.cutoff rs = d.deadline := by
  have hclosed : ∀ r ∈ rs, Return.opens d.deadline r = false := by
    intro r hr
    simp [Return.opens, Nat.not_lt.2 (h r hr)]
  have hnone : rs.find? (Return.opens d.deadline) = none := by
    apply List.find?_eq_none.2
    intro r hr
    simp [hclosed r hr]
  have hopening : d.opening rs = 0 := by
    simp only [opening, List.findIdx?_eq_none_iff.2 hclosed]
  have hcutoff : d.cutoff rs = d.deadline := by simp only [cutoff, hnone]
  refine ⟨?_, hcutoff⟩
  simp only [counted, hopening, List.take_zero, List.drop_zero, List.nil_append, hcutoff]
  apply List.filter_eq_nil_iff.2
  intro r hr
  simpa using h r hr

theorem counted_sublist : (d.counted rs).Sublist rs := by
  have h := (List.Sublist.refl (rs.take (d.opening rs))).append
    (List.filter_sublist (p := fun r => decide (r.time < d.cutoff rs)) (l := rs.drop (d.opening rs)))
  rwa [List.take_append_drop] at h

/-- The cut-off is no earlier than everything that the returns and the deadline are no earlier than. -/
theorem le_cutoff {time : Nat} (h : ∀ r ∈ rs, time ≤ r.time) (hd : time ≤ d.deadline) :
    time ≤ d.cutoff rs := by
  rw [cutoff]
  cases hs : rs.find? (Return.opens d.deadline) with
  | none => exact hd
  | some s =>
      have hle := h s (List.mem_of_find?_eq_some hs)
      exact Nat.le_min.2 ⟨hd, Nat.le_trans hle (Nat.le_add_right _ _)⟩

/-- Nothing that counts comes after the cut-off. -/
theorem le_cutoff_of_mem_counted (hsorted : rs.Pairwise fun a b => a.time ≤ b.time)
    (h : r ∈ d.counted rs) : r.time ≤ d.cutoff rs := by
  induction rs with
  | nil => simp [counted] at h
  | cons s rest ih =>
      obtain ⟨hle, hrest⟩ := List.pairwise_cons.1 hsorted
      by_cases hs : s.time < d.deadline
      · cases ho : s.opens d.deadline with
        | true =>
            rw [counted_cons_of_opens ho] at h
            rw [cutoff_cons_of_opens ho]
            rcases List.mem_cons.1 h with rfl | h
            · omega
            · have hlt := (List.mem_filter.1 h).2
              simp only [decide_eq_true_eq] at hlt
              omega
        | false =>
            rw [counted_cons_of_not_opens ho hs] at h
            rw [cutoff_cons_of_not_opens ho]
            rcases List.mem_cons.1 h with rfl | h
            · exact le_cutoff hle (Nat.le_of_lt hs)
            · exact ih hrest h
      · have hlate : ∀ q ∈ s :: rest, d.deadline ≤ q.time := by
          intro q hq
          rcases List.mem_cons.1 hq with rfl | hq
          · exact Nat.not_lt.1 hs
          · exact Nat.le_trans (Nat.not_lt.1 hs) (hle q hq)
        rw [(counted_of_late hlate).1] at h
        cases h

namespace IsSchedule

/-- Every target either counts or is abandoned, and never both. -/
theorem counted_append_abandoned_perm (h : d.IsSchedule rs) :
    ((d.counted rs).map Return.position ++ d.abandoned rs).Perm (List.range d.targets.length) := by
  have hcounted : ((d.counted rs).map Return.position).Perm
      ((List.range d.targets.length).filter fun i =>
        (d.counted rs).any fun r => r.position == i) := by
    have hnodup : ((d.counted rs).map Return.position).Nodup :=
      List.pairwise_map.2 (h.nodup.sublist counted_sublist)
    refine (List.perm_ext_iff_of_nodup hnodup (List.nodup_range.filter _)).2 fun i => ?_
    simp only [List.mem_map, List.mem_filter, List.mem_range, List.any_eq_true, beq_iff_eq]
    constructor
    · rintro ⟨r, hr, rfl⟩
      exact ⟨h.position_lt r (counted_sublist.subset hr), r, hr, rfl⟩
    · rintro ⟨_, hr⟩
      exact hr
  exact (hcounted.append_right _).trans (List.filter_append_perm _ _)

/-- Two returns of one target are the same return. -/
theorem eq_of_position_eq (h : d.IsSchedule rs) {r s : Return σ α} (hr : r ∈ rs) (hs : s ∈ rs)
    (hrs : r.position = s.position) : r = s := by
  have hnodup : (rs.map Return.position).Nodup := List.pairwise_map.2 h.nodup
  exact List.inj_on_of_nodup_map hnodup hr hs hrs

/-- Nothing that counts comes later than the end. -/
theorem time_le_endsAt (h : d.IsSchedule rs) (hr : r ∈ d.counted rs) : r.time ≤ d.endsAt rs := by
  have hsorted : (d.counted rs).Pairwise fun a b => a.time ≤ b.time :=
    h.sorted.sublist counted_sublist
  rw [endsAt]
  split
  · obtain ⟨init, last, hlast⟩ : ∃ init last, d.counted rs = init ++ [last] :=
      ⟨_, _, (List.dropLast_concat_getLast (List.ne_nil_of_mem hr)).symm⟩
    rw [hlast] at hr hsorted
    rw [hlast, List.getLast?_concat, Option.map_some, Option.getD_some]
    rcases List.mem_append.1 hr with hr | hr
    · exact (List.pairwise_append.1 hsorted).2.2 r hr last (by simp)
    · exact Nat.le_of_eq (congrArg Return.time (List.mem_singleton.1 hr))
  · exact Nat.le_trans (le_cutoff_of_mem_counted h.sorted hr) (Nat.le_max_right _ _)

end IsSchedule

variable (d)

/-! ## The gathering itself -/

/-- The gathering when it begins. -/
def gathering : Gather α := Gather.begin (d.targets.map Target.name) d.start d.after d.deadline

/-- An idle floor on which every target has been asked, under the number of a gathering, and nothing has
been sent yet. -/
def asked (limits : List Nat) (id : Nat) : Floor σ α :=
  Floor.addAll id 0 { (Floor.ofLimits limits : Floor σ α) with gathers := [(id, d.gathering)] }
    d.targets

/-- The schedule of the gathering: what comes back on a floor with the given limits if nobody is ever
given up. -/
def schedule (net : Network σ α) (limits : List Nat) (id : Nat) : List (Return σ α) :=
  ((d.asked limits id).send net d.start).returns net

/-- The gathering, begun on an idle floor with the given limits and run until nothing happens any more.
-/
def run (net : Network σ α) (limits : List Nat) (id : Nat) : Floor σ α :=
  (Timetable.run net
    ⟨(Floor.ofLimits limits).begin net d.start id d.after d.deadline d.targets, [], []⟩).floor

end Dispatch

end MetricFanout
