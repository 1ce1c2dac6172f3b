import MetricFanout.Proofs.Gather.Returns
/-!
# A gathering alone on the floor

A floor that holds one gathering and nothing else: at each event the errands on the floor are the
requests that have not come back, and the gathering knows the others. It ends with the returns that it
hears before its timer runs out.

`Alone` is kept by every event that does not end the gathering. The induction in `Alone.run_finished`
is on the returns still to come, and follows the run event by event.
-/

namespace MetricFanout

variable {σ α : Type}

/-! ## A gathering alone on the floor -/

/-- The floor holds one gathering and nothing else, and its errands are what it waits for. -/
structure Alone (id : Nat) (f : Floor σ α) (g : Gather α) : Prop where
  gathers : f.gathers = [(id, g)]
  finished : f.finished = []
  waiting : f.errands.map Errand.position = g.waiting
  nodup : g.waiting.Nodup
  gather : ∀ e ∈ f.errands, e.gather = id
  numbered : f.Numbered

namespace Alone

variable {id now : Nat} {f : Floor σ α} {g : Gather α} {e : Errand σ α} {r : Return σ α}

/-- A gathering that has not ended stays, and only sends what is ready. -/
theorem settle_of_open (net : Network σ α) (h : Alone id f g) (hg : g.result? now = none) :
    Alone id (f.settle net now) g ∧
      (f.settle net now).returns net = (f.send net now).returns net := by
  have hended : f.ended now = [] := by simp [Floor.ended, h.gathers, hg]
  have hkeep : f.gathers.filter (fun g => (g.2.result? now).isNone) = f.gathers := by
    simp [h.gathers, hg]
  have hsettle : f.settle net now = f.send net now := by
    simp only [Floor.settle, hended, hkeep, List.append_nil, List.any_nil]
    rw [Floor.dismiss_of_stay (by simp)]
  rw [hsettle]
  refine ⟨?_, rfl⟩
  constructor
  case gathers => exact h.gathers
  case finished => exact h.finished
  case waiting =>
    rw [Floor.map_send Errand.position net now f (fun _ => rfl)]
    exact h.waiting
  case nodup => exact h.nodup
  case gather =>
    intro d hd
    obtain ⟨d', hd', hsame⟩ := Floor.mem_send_errands hd
    rcases hsame with rfl | rfl
    · exact h.gather d hd'
    · exact h.gather d' hd'
  case numbered =>
    intro d hd
    obtain ⟨d', hd', hsame⟩ := Floor.mem_send_errands hd
    rcases hsame with rfl | rfl
    · exact h.numbered d hd'
    · exact h.numbered d' hd'

/-- A gathering that has ended leaves its result and an empty floor. -/
theorem settle_of_ended (net : Network σ α) (h : Alone id f g) {replies : List (Reply α)}
    (hg : g.result? now = some replies) :
    (f.settle net now).gathers = [] ∧ (f.settle net now).errands = [] ∧
      (f.settle net now).finished = [⟨id, now, replies⟩] := by
  have hended : f.ended now = [⟨id, now, replies⟩] := by simp [Floor.ended, h.gathers, hg]
  refine ⟨by simp [h.gathers, hg], ?_, by simp [h.finished, hended]⟩
  have hover : (f.errands.filter fun e => !f.isOver now e) = [] := by
    apply List.filter_eq_nil_iff.2
    intro e he
    simp [Floor.isOver, hended, h.gather e he]
  have hmap := Floor.map_settle Errand.ticket net now f (fun _ => rfl)
  rw [hover] at hmap
  exact List.map_eq_nil_iff.1 hmap

/-- An errand comes back: the gathering knows it, and the others are still to come. -/
theorem takeIn (h : Alone id f g) (he : e ∈ f.errands) (her : e.return? = some r) :
    Alone id (f.takeIn r.time e r.outcome) (g.arrive r.time r.position r.outcome) := by
  have hpos := (Errand.return?_position her).1
  have hstay : (f.takeIn r.time e r.outcome).errands =
      f.errands.filter fun d => d.position != r.position := by
    apply List.filter_congr
    intro d hd
    simp [h.numbered d hd, h.numbered e he, hpos, bne, Bool.beq_eq_decide_eq]
  have hsub : ∀ d ∈ (f.takeIn r.time e r.outcome).errands, d ∈ f.errands := by
    intro d hd
    rw [hstay] at hd
    exact (List.mem_filter.1 hd).1
  constructor
  case gathers => simp [Floor.takeIn, h.gathers, h.gather e he, hpos]
  case finished => exact h.finished
  case waiting =>
    rw [hstay, Gather.arrive_waiting, h.nodup.erase_eq_filter, ← h.waiting, List.filter_map]
    rfl
  case nodup =>
    rw [Gather.arrive_waiting]
    exact h.nodup.sublist List.erase_sublist
  case gather => exact fun d hd => h.gather d (hsub d hd)
  case numbered => exact fun d hd => h.numbered d (hsub d hd)

/-- When an errand has come back, the next ones are those of the floor that it leaves behind. -/
theorem returns_takeIn (net : Network σ α) (f : Floor σ α) (e : Errand σ α)
    (o : Option (Outcome α)) (now : Nat) :
    ((f.takeIn now e o).send net now).returns net = (f.release net now e).returns net :=
  Floor.returns_congr rfl rfl

end Alone

/-! ## Running to the end -/

namespace Timetable

variable {net : Network σ α}

/-- On an empty floor nothing happens any more. -/
theorem run_of_empty {f : Floor σ α} (hg : f.gathers = []) (he : f.errands = [])
    (history : List (Nat × List Nat)) : ((⟨f, [], history⟩ : Timetable σ α).run net).floor = f := by
  have hnext : f.next? net = none := by
    simp [Floor.next?, Floor.firstTimer?, Floor.nextBack?, Floor.firstBack?, hg, he]
  rw [run_of_none]
  simp [step?, hnext]

/-- Without launches to come, the next event on the floor is next. -/
theorem run_of_next {f : Floor σ α} {e : FloorEvent σ α} (h : f.next? net = some e)
    (history : List (Nat × List Nat)) :
    ∃ history', (⟨f, [], history⟩ : Timetable σ α).run net =
      (⟨f.happen net e, [], history'⟩ : Timetable σ α).run net := by
  refine ⟨(e.time, (f.happen net e).inFlight) :: history, run_of_some ?_⟩
  simp [step?, h, note]

end Timetable

namespace Gather

/-- The returns that a gathering still takes in: those that come before its timer runs out. -/
def hears (g : Gather α) : List (Return σ α) → List (Return σ α)
  | [] => []
  | r :: rest =>
      if g.timer ≤ r.time then []
      else r :: (g.arrive r.time r.position r.outcome).hears rest

/-- A gathering after several returns. -/
def arriveAll (g : Gather α) : List (Return σ α) → Gather α
  | [] => g
  | r :: rest => (g.arrive r.time r.position r.outcome).arriveAll rest

/-- The time of the last of several returns, or the start of the gathering. -/
def lastTime (g : Gather α) (rs : List (Return σ α)) : Nat :=
  ((rs.getLast?).map Return.time).getD g.start

/-- What a gathering comes to, and when, if it takes in some returns and no others. -/
def outcome (g : Gather α) (rs : List (Return σ α)) : Nat × List (Reply α) :=
  if (g.arriveAll rs).waiting.isEmpty then
    (g.lastTime rs, (g.arriveAll rs).close (g.lastTime rs) .aborted)
  else ((g.arriveAll rs).timer, (g.arriveAll rs).close (g.arriveAll rs).timer .timeout)

theorem hears_of_timer {g : Gather α} {rs : List (Return σ α)} (h : ∀ r ∈ rs, g.timer ≤ r.time) :
    g.hears rs = [] := by
  cases rs with
  | nil => rfl
  | cons r rest => simp [hears, h r List.mem_cons_self]

theorem hears_of_return {g : Gather α} {r : Return σ α} (rest : List (Return σ α))
    (h : r.time < g.timer) :
    g.hears (r :: rest) = r :: (g.arrive r.time r.position r.outcome).hears rest := by
  simp [hears, Nat.not_le.2 h]

/-- A return before the timer never sets the timer back behind it. -/
theorem le_arrive_timer {g : Gather α} {now : Nat} (h : now < g.timer) (position : Nat)
    (o : Option (Outcome α)) : now ≤ (g.arrive now position o).timer := by
  cases o with
  | none => exact Nat.le_of_lt h
  | some o =>
      simp only [arrive, timerAfter]
      split <;> omega

/-- The first return can be taken in beforehand, if that does not end the gathering. -/
theorem outcome_cons {g : Gather α} {r : Return σ α} (rs : List (Return σ α))
    (h : (g.arrive r.time r.position r.outcome).waiting ≠ []) :
    g.outcome (r :: rs) = (g.arrive r.time r.position r.outcome).outcome rs := by
  cases rs with
  | nil => simp only [outcome, arriveAll, List.isEmpty_iff, h, if_false]
  | cons s rest =>
      have hlast : g.lastTime (r :: s :: rest) =
          (g.arrive r.time r.position r.outcome).lastTime (s :: rest) := by
        cases hr : (s :: rest).getLast? with
        | none => simp at hr
        | some q => simp [lastTime, hr, List.getLast?_cons_cons]
      simp only [outcome, hlast]
      rfl

end Gather

namespace Alone

variable {net : Network σ α} {id : Nat} {f : Floor σ α} {g : Gather α} {r : Return σ α}
  {rest : List (Return σ α)}

/-- The timer runs out before anything comes back. -/
theorem next?_of_timer (h : Alone id f g) (ht : ∀ r ∈ f.returns net, g.timer ≤ r.time) :
    f.next? net = some (.timer g.timer) := by
  have hfirst : f.firstTimer? = some g.timer := by simp [Floor.firstTimer?, h.gathers]
  cases hrest : f.returns net with
  | nil =>
      have hback := Floor.nextBack?_of_returns_nil hrest
      simp [Floor.next?, hfirst, hback]
  | cons r rest =>
      obtain ⟨e, _, _, hback, _⟩ := Floor.nextBack?_of_returns_cons hrest
      have hle := ht r (by simp [hrest])
      simp [Floor.next?, hfirst, hback, FloorEvent.time, hle]

/-- A return comes before the timer runs out. -/
theorem next?_of_return (h : Alone id f g) (hrest : f.returns net = r :: rest)
    (ht : r.time < g.timer) : ∃ e ∈ f.errands, e.return? = some r ∧
      f.next? net = some (.back r.time e r.outcome) ∧
      (f.release net r.time e).returns net = rest := by
  have hfirst : f.firstTimer? = some g.timer := by simp [Floor.firstTimer?, h.gathers]
  obtain ⟨e, he, her, hback, hleft⟩ := Floor.nextBack?_of_returns_cons hrest
  refine ⟨e, he, her, ?_, hleft⟩
  simp [Floor.next?, hfirst, hback, FloorEvent.time, Nat.not_le.2 ht]

/-- A gathering whose timer runs out first. -/
theorem run_of_timer (h : Alone id f g) (hw : g.waiting ≠ [])
    (ht : ∀ r ∈ f.returns net, g.timer ≤ r.time) (history : List (Nat × List Nat)) :
    ((⟨f, [], history⟩ : Timetable σ α).run net).floor.finished =
      [⟨id, g.timer, g.close g.timer .timeout⟩] := by
  obtain ⟨history', hrun⟩ := Timetable.run_of_next (h.next?_of_timer ht) history
  obtain ⟨hg, he, hf⟩ := h.settle_of_ended net
    (Gather.result?_of_timer hw (Nat.le_refl g.timer))
  rw [hrun]
  simp only [Floor.happen]
  rw [Timetable.run_of_empty hg he, hf]

/-- A gathering that ends with a return. -/
theorem run_of_last (h : Alone id f g) (hrest : f.returns net = r :: rest)
    (ht : r.time < g.timer) {replies : List (Reply α)}
    (hresult : (g.arrive r.time r.position r.outcome).result? r.time = some replies)
    (history : List (Nat × List Nat)) :
    ((⟨f, [], history⟩ : Timetable σ α).run net).floor.finished = [⟨id, r.time, replies⟩] := by
  obtain ⟨e, he, her, hnext, _⟩ := h.next?_of_return hrest ht
  obtain ⟨history', hrun⟩ := Timetable.run_of_next hnext history
  obtain ⟨hg, hes, hf⟩ := (h.takeIn he her).settle_of_ended net hresult
  rw [hrun]
  simp only [Floor.happen, Floor.arrive_eq]
  rw [Timetable.run_of_empty hg hes, hf]

/-- When the last request has ended, nothing comes back any more. -/
theorem returns_of_last (h : Alone id f g) (he : e ∈ f.errands) (her : e.return? = some r)
    (hempty : (g.arrive r.time r.position r.outcome).waiting = []) :
    (f.release net r.time e).returns net = [] := by
  apply List.eq_nil_iff_forall_not_mem.2
  intro s hs
  have hes : (f.takeIn r.time e r.outcome).errands = [] := by
    rw [← (h.takeIn he her).waiting] at hempty
    exact List.map_eq_nil_iff.1 hempty
  have hrelease : (f.release net r.time e).errands.map Errand.position = [] := by
    rw [Floor.release, Floor.map_send Errand.position net _ _ (fun _ => rfl)]
    exact congrArg (List.map Errand.position) hes
  have hmem := (Floor.returns_positions net (Floor.numbered_release net h.numbered r.time e)).1 s hs
  rw [hrelease] at hmem
  cases hmem

/-- A gathering alone on the floor comes to what it hears of the returns still to come. -/
theorem run_finished (h : Alone id f g) (hw : g.waiting ≠ []) (history : List (Nat × List Nat)) :
    ((⟨f, [], history⟩ : Timetable σ α).run net).floor.finished =
      [⟨id, (g.outcome (g.hears (f.returns net))).1,
        (g.outcome (g.hears (f.returns net))).2⟩] := by
  have hsorted := (Floor.returns_sorted net (f.since_zero)).2
  generalize hrest : f.returns net = rs at hsorted
  induction rs generalizing f g history with
  | nil =>
      have ht : ∀ r ∈ ([] : List (Return σ α)), g.timer ≤ r.time := by simp
      rw [h.run_of_timer hw (hrest ▸ ht) history, Gather.hears_of_timer ht]
      simp [Gather.outcome, Gather.arriveAll, hw]
  | cons r rest ih =>
      obtain ⟨hlate, hsorted⟩ := List.pairwise_cons.1 hsorted
      by_cases ht : r.time < g.timer
      · have hle := Gather.le_arrive_timer ht r.position r.outcome
        obtain ⟨e, he, her, hnext, hleft⟩ := h.next?_of_return hrest ht
        have h' := h.takeIn he her
        rw [Gather.hears_of_return rest ht]
        by_cases hempty : (g.arrive r.time r.position r.outcome).waiting = []
        · -- the last request has ended
          have hnil : rest = [] := hleft.symm.trans (h.returns_of_last he her hempty)
          rw [h.run_of_last hrest ht (Gather.result?_of_empty hempty r.time) history, hnil]
          simp only [Gather.outcome, Gather.hears, Gather.arriveAll, hempty, List.isEmpty_nil,
            if_true]
          rfl
        by_cases hgrace : (g.arrive r.time r.position r.outcome).timer ≤ r.time
        · -- the grace window has no length
          have hnone : (g.arrive r.time r.position r.outcome).hears rest = [] := by
            apply Gather.hears_of_timer
            intro s hs
            exact Nat.le_trans hgrace (hlate s hs)
          have htimer : (g.arrive r.time r.position r.outcome).timer = r.time := by omega
          rw [h.run_of_last hrest ht (Gather.result?_of_timer hempty hgrace) history, hnone]
          simp only [Gather.outcome, Gather.arriveAll, List.isEmpty_iff, hempty, if_false, htimer]
        · obtain ⟨history', hrun⟩ := Timetable.run_of_next hnext history
          obtain ⟨hopen, hreturns⟩ := h'.settle_of_open net
            (Gather.result?_of_open hempty (Nat.not_le.1 hgrace))
          rw [returns_takeIn, hleft] at hreturns
          rw [hrun, Gather.outcome_cons _ hempty]
          exact ih hopen hempty history' hreturns hsorted
      · have ht' : ∀ s ∈ r :: rest, g.timer ≤ s.time := by
          intro s hs
          rcases List.mem_cons.1 hs with rfl | hs
          · exact Nat.not_lt.1 ht
          · exact Nat.le_trans (Nat.not_lt.1 ht) (hlate s hs)
        rw [h.run_of_timer hw (hrest ▸ ht') history, Gather.hears_of_timer ht']
        simp [Gather.outcome, Gather.arriveAll, hw]

end Alone

end MetricFanout
