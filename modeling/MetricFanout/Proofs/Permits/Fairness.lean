import MetricFanout.Proofs.Permits.Tickets
/-!
# First come, first served

Requests start to ask a backend for a permit, and they are dropped: the ones that hold a permit, the ones that
stand in line, at its head or in its middle. At every moment the permits are held by the first of those that
are left, as many as there are permits, and all others stand in line in the order in which they started.

## Implementation notes

The requests at a backend are a matter of who came and who went; permits do not enter into it. So a record keeps
them apart from the permits, and the theorem compares the two. Tickets are numbered from zero, so an order of
start is an order of numbers. The record also counts permits as one does who never sees their holders: one less
for each that is handed out, one more for each that comes back.
-/

namespace MetricFanout

/-- What happens at the permits of a backend. -/
inductive PermitStep where
  /-- A request starts; it gets the next ticket. -/
  | start
  /-- A request is dropped, whether it holds a permit or waits for one. -/
  | drop (ticket : Nat)

/-- The permits of a backend and what has happened at them. -/
structure PermitRecord where
  permits : Permits
  /-- The number of requests that have started. -/
  started : Nat := 0
  /-- The tickets of those that have not been dropped, in the order of their start. -/
  present : List Nat := []
  /-- The tickets that have been given a permit, in the order in which they got it. -/
  granted : List Nat := []
  /-- The permits that are left by count. -/
  count : Int

namespace PermitRecord

/-- Nothing has happened yet. -/
def fresh (limit : Nat) : PermitRecord := { permits := { limit := limit }, count := limit }

/-- The tickets that hold a permit and did not before, in the order in which they got it. -/
def newlyHeld (before after : Permits) : List Nat := after.held.filter fun t => !before.holds t

def step (r : PermitRecord) : PermitStep → PermitRecord
  | .start =>
      let permits := r.permits.acquire r.started
      let new := newlyHeld r.permits permits
      { permits := permits, started := r.started + 1, present := r.present ++ [r.started]
        granted := r.granted ++ new, count := r.count - new.length }
  | .drop ticket =>
      let permits := r.permits.drop ticket
      let new := newlyHeld r.permits permits
      let back := if r.permits.holds ticket then 1 else 0
      { r with
        permits := permits, present := r.present.erase ticket
        granted := r.granted ++ new, count := r.count + back - new.length }

/-- The record after steps. -/
def run (r : PermitRecord) (steps : List PermitStep) : PermitRecord := steps.foldl step r

/-! ## One step -/

/-- The permits hold and keep in line who is present, and all turns are in the order of start. -/
structure InTurn (r : PermitRecord) : Prop where
  present : r.permits.tickets = r.present
  turns : (r.granted ++ r.permits.line).Pairwise (· < ·)
  started : ∀ t ∈ r.granted ++ r.permits.line, t < r.started
  granted : r.permits.held.Sublist r.granted
  count : r.count + r.permits.held.length = r.permits.limit

variable {r : PermitRecord}

theorem InTurn.fresh (limit : Nat) : (PermitRecord.fresh limit).InTurn :=
  ⟨rfl, .nil, by simp [PermitRecord.fresh], .refl _, by simp [PermitRecord.fresh]⟩

/-- Tickets are in the order of start. -/
theorem InTurn.tickets (h : r.InTurn) : r.permits.tickets.Pairwise (· < ·) :=
  h.turns.sublist (h.granted.append (.refl _))

theorem InTurn.nodup (h : r.InTurn) : r.permits.tickets.Nodup :=
  h.tickets.imp Nat.ne_of_lt

/-- Permits are handed out from the head of the line. -/
def serve (r : PermitRecord) : PermitRecord :=
  { r with
    permits := r.permits.serve
    granted := r.granted ++ r.permits.line.take r.permits.free
    count := r.count - (r.permits.line.take r.permits.free).length }

theorem InTurn.serve (h : r.InTurn) : r.serve.InTurn where
  present := r.permits.serve_tickets.trans h.present
  turns := by
    have hturns := h.turns
    rwa [← List.take_append_drop r.permits.free r.permits.line, ← List.append_assoc] at hturns
  started := by
    have hstarted := h.started
    rwa [← List.take_append_drop r.permits.free r.permits.line, ← List.append_assoc] at hstarted
  granted := h.granted.append (.refl _)
  count := by
    have hcount := h.count
    have hheld : r.permits.serve.held.length =
        r.permits.held.length + (r.permits.line.take r.permits.free).length := List.length_append
    simp only [PermitRecord.serve, hheld]
    change _ = (r.permits.limit : Int)
    omega

/-- Who holds a permit once the line has been served was in line, unless he held it before. -/
theorem newlyHeld_serve {p q : Permits} (hheld : ∀ t ∈ q.held, t ∈ p.held)
    (hline : ∀ t ∈ q.line, t ∉ p.held) : newlyHeld p q.serve = q.line.take q.free := by
  have hold : q.held.filter (fun t => !p.holds t) = [] :=
    List.filter_eq_nil_iff.2 fun t ht => by simp [Permits.holds, hheld t ht]
  have hnew : (q.line.take q.free).filter (fun t => !p.holds t) = q.line.take q.free :=
    List.filter_eq_self.2 fun t ht => by simp [Permits.holds, hline t (List.mem_of_mem_take ht)]
  rw [newlyHeld, Permits.serve, List.filter_append, hold, hnew, List.nil_append]

/-- A request that starts joins the line. -/
def join (r : PermitRecord) : PermitRecord :=
  { r with
    permits := { r.permits with line := r.permits.line ++ [r.started] }
    started := r.started + 1, present := r.present ++ [r.started] }

theorem InTurn.join (h : r.InTurn) : r.join.InTurn where
  present := by
    rw [PermitRecord.join, ← h.present, Permits.tickets, Permits.tickets, List.append_assoc]
  turns := by
    rw [PermitRecord.join, ← List.append_assoc]
    refine List.pairwise_append.2 ⟨h.turns, List.pairwise_singleton _ _, fun t ht u hu => ?_⟩
    rw [List.mem_singleton.1 hu]
    exact h.started t ht
  started := by
    intro t ht
    rw [PermitRecord.join, ← List.append_assoc] at ht
    rcases List.mem_append.1 ht with ht | ht
    · exact Nat.lt_succ_of_lt (h.started t ht)
    · rw [List.mem_singleton.1 ht]
      exact Nat.lt_succ_self _
  granted := h.granted
  count := h.count

theorem InTurn.step_start (h : r.InTurn) : r.step .start = r.join.serve := by
  have hnew : newlyHeld r.permits (r.permits.acquire r.started) =
      r.join.permits.line.take r.join.permits.free := by
    refine newlyHeld_serve (q := r.join.permits) (fun t ht => ht) fun t ht hheld => ?_
    exact (List.nodup_append.1 h.join.nodup).2.2 t hheld t ht rfl
  simp only [step, hnew]
  rfl

/-- A request that is dropped leaves its place, and its permit if it has one. -/
def leave (r : PermitRecord) (ticket : Nat) : PermitRecord :=
  { r with
    permits := { r.permits with
      held := r.permits.held.erase ticket, line := r.permits.line.erase ticket }
    present := r.present.erase ticket
    count := r.count + if r.permits.holds ticket then 1 else 0 }

theorem InTurn.leave (h : r.InTurn) (ticket : Nat) : (r.leave ticket).InTurn where
  present := by
    have hdrop := Permits.drop_tickets h.nodup ticket
    rw [h.present] at hdrop
    exact (Permits.serve_tickets _).symm.trans hdrop
  turns := h.turns.sublist ((List.Sublist.refl _).append List.erase_sublist)
  started := by
    intro t ht
    refine h.started t ?_
    rcases List.mem_append.1 ht with ht | ht
    · exact List.mem_append_left _ ht
    · exact List.mem_append_right _ (List.mem_of_mem_erase ht)
  granted := List.erase_sublist.trans h.granted
  count := by
    have hcount := h.count
    by_cases hheld : ticket ∈ r.permits.held
    · have hlength := List.length_erase_of_mem hheld
      have hpos := List.length_pos_of_mem hheld
      simp only [PermitRecord.leave, Permits.holds, List.contains_iff_mem, hheld, hlength, if_true]
      omega
    · simp only [PermitRecord.leave, Permits.holds, List.contains_iff_mem, hheld,
        List.erase_of_not_mem hheld, if_false]
      omega

theorem InTurn.step_drop (h : r.InTurn) (ticket : Nat) :
    r.step (.drop ticket) = (r.leave ticket).serve := by
  have hnew : newlyHeld r.permits (r.permits.drop ticket) =
      (r.leave ticket).permits.line.take (r.leave ticket).permits.free := by
    refine newlyHeld_serve (q := (r.leave ticket).permits) (fun t ht => List.mem_of_mem_erase ht) ?_
    exact fun t ht hheld =>
      (List.nodup_append.1 h.nodup).2.2 t hheld t (List.mem_of_mem_erase ht) rfl
  simp only [step, hnew]
  rfl

theorem InTurn.step (h : r.InTurn) (s : PermitStep) : (r.step s).InTurn := by
  cases s with
  | start => exact h.step_start ▸ h.join.serve
  | drop ticket => exact h.step_drop ticket ▸ (h.leave ticket).serve

/-! ## Runs -/

/-- What holds between any two steps. -/
structure Fair (r : PermitRecord) : Prop where
  inTurn : r.InTurn
  within : r.permits.Within
  busy : r.permits.Busy

theorem Fair.fresh (limit : Nat) : (PermitRecord.fresh limit).Fair where
  inTurn := .fresh limit
  within := fun _ => Nat.zero_le _
  busy := fun hline => absurd rfl hline

theorem Fair.step (h : r.Fair) (s : PermitStep) : (r.step s).Fair where
  inTurn := h.inTurn.step s
  within := by
    cases s with
    | start => exact h.within.acquire r.started
    | drop ticket => exact h.within.drop ticket
  busy := by
    cases s with
    | start => exact Permits.busy_serve _
    | drop ticket => exact Permits.busy_serve _

theorem Fair.run (h : r.Fair) (steps : List PermitStep) : (r.run steps).Fair := by
  induction steps generalizing r with
  | nil => exact h
  | cons s rest ih => exact ih (h.step s)

theorem run_limit (r : PermitRecord) (steps : List PermitStep) :
    (r.run steps).permits.limit = r.permits.limit := by
  induction steps generalizing r with
  | nil => rfl
  | cons s rest ih =>
      have hstep : (r.step s).permits.limit = r.permits.limit := by cases s <;> rfl
      exact (ih (r.step s)).trans hstep

/-! ## Who holds the permits -/

/-- The first of those present hold the permits, and the others stand in line. -/
theorem Fair.split (h : r.Fair) (hlimit : 0 < r.permits.limit) :
    r.permits.held = r.present.take r.permits.limit ∧ r.permits.line = r.present.drop r.permits.limit := by
  have hle := h.within hlimit
  rw [← h.inTurn.present, Permits.tickets]
  by_cases hline : r.permits.line = []
  · rw [hline, List.append_nil, List.take_of_length_le hle, List.drop_of_length_le hle]
    exact ⟨rfl, rfl⟩
  · -- beside a line all permits are held
    have hfull : r.permits.held.length = r.permits.limit := Nat.le_antisymm hle (h.busy hline).2
    exact ⟨(List.take_left' hfull).symm, (List.drop_left' hfull).symm⟩

/-- Without a limit there is no line. -/
theorem Fair.line_eq_nil (h : r.Fair) (hlimit : r.permits.limit = 0) : r.permits.line = [] := by
  by_contra hline
  exact Nat.ne_of_gt (h.busy hline).1 hlimit

/-- Without a limit a request gets its permit at once. -/
theorem Fair.granted_start (h : r.Fair) (hlimit : r.permits.limit = 0) :
    (r.step .start).granted = r.granted ++ [r.started] := by
  have hline := h.line_eq_nil hlimit
  rw [h.inTurn.step_start]
  simp [serve, join, Permits.free, hline, hlimit]

/-- **Permits are handed out in turn, and none is idle or lost.** After any steps, with a limit: the permits are
held by the first of the requests that are left, as many as there are permits, and all others wait; permits in
use and free permits are all there are, and the free ones are those that are left by count, which so never falls
below zero; a request waits only while all permits are in use. With or without a limit: permits have been handed
out in the order of start, and to nobody that started later than one that still waits; and when everything has
been dropped, no permit is in use. Without a limit nobody waits, the next request gets its permit at once, and no
permit is in use. -/
theorem first_come_first_served (limit : Nat) (steps : List PermitStep) :
    let r := (fresh limit).run steps
    (0 < limit →
      r.permits.held = r.present.take limit ∧ r.permits.line = r.present.drop limit ∧
      r.permits.held.length ≤ limit ∧ r.permits.inFlight = r.permits.held.length ∧
      r.permits.inFlight + r.permits.free = limit ∧ r.count = r.permits.free ∧
      (r.permits.line ≠ [] → r.permits.inFlight = limit)) ∧
    (r.granted ++ r.permits.line).Pairwise (· < ·) ∧ (∀ t ∈ r.permits.held, t ∈ r.granted) ∧
    (r.present = [] → r.permits.inFlight = 0) ∧
    (limit = 0 →
      r.permits.held = r.present ∧ r.permits.line = [] ∧ r.permits.inFlight = 0 ∧
      (r.step .start).granted = r.granted ++ [r.started]) := by
  intro r
  have hfair : r.Fair := (Fair.fresh limit).run steps
  have hsame : r.permits.limit = limit := run_limit (fresh limit) steps
  have hpresent : r.permits.held ++ r.permits.line = r.present := hfair.inTurn.present
  refine ⟨fun hlimit => ?_, hfair.inTurn.turns, fun t ht => hfair.inTurn.granted.subset ht, fun hnone => ?_,
    fun hzero => ?_⟩
  · have hpos : 0 < r.permits.limit := hsame ▸ hlimit
    have hsplit := hfair.split hpos
    have hle := hfair.within hpos
    have hcount := hfair.inTurn.count
    have huse : r.permits.inFlight = r.permits.held.length := if_neg (Nat.ne_of_gt hpos)
    have hfree : r.permits.free = r.permits.limit - r.permits.held.length := if_neg (Nat.ne_of_gt hpos)
    have hbusy : r.permits.line ≠ [] → r.permits.limit ≤ r.permits.held.length := fun h => (hfair.busy h).2
    rw [hsame] at hsplit hle hcount hfree hbusy
    exact ⟨hsplit.1, hsplit.2, hle, huse, by omega, by omega,
      fun hline => huse.trans (Nat.le_antisymm hle (hbusy hline))⟩
  · have hheld : r.permits.held = [] := (List.append_eq_nil_iff.1 (hpresent.trans hnone)).1
    simp [Permits.inFlight, hheld]
  · have hnolimit : r.permits.limit = 0 := hsame.trans hzero
    have hline := hfair.line_eq_nil hnolimit
    rw [hline, List.append_nil] at hpresent
    exact ⟨hpresent, hline, if_pos hnolimit, hfair.granted_start hnolimit⟩

/-- Two permits, five requests; one in the middle of the line is dropped, and then both that hold a permit. -/
def gap : List PermitStep := [.start, .start, .start, .start, .start, .drop 3, .drop 0, .drop 1]

theorem first_come_first_served_gap :
    ((fresh 2).run gap).permits.held = [2, 4] ∧ ((fresh 2).run gap).permits.line = [] ∧
    ((fresh 2).run gap).permits.inFlight + ((fresh 2).run gap).permits.free = 2 ∧
    [0, 1, 2, 4].Pairwise (· < ·) ∧
    ((fresh 2).run (gap ++ [.drop 4, .drop 2])).permits.inFlight = 0 ∧
    ((fresh 0).run gap).permits.held = [2, 4] ∧ ((fresh 0).run gap).permits.inFlight = 0 := by
  obtain ⟨hlimit, hturns, _⟩ := first_come_first_served 2 gap
  obtain ⟨hheld, hline, _, _, hcount, _⟩ := hlimit (by decide)
  obtain ⟨_, _, _, hdropped, _⟩ := first_come_first_served 2 (gap ++ [.drop 4, .drop 2])
  obtain ⟨_, _, _, _, hzero⟩ := first_come_first_served 0 gap
  obtain ⟨hall, _, hnone, _⟩ := hzero rfl
  exact ⟨hheld.trans rfl, hline.trans rfl, hcount, hturns, hdropped rfl, hall.trans rfl, hnone⟩

end PermitRecord

end MetricFanout
