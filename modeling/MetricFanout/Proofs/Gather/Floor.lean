import Mathlib.Data.List.Nodup
import MetricFanout.Gather.Timetable
import MetricFanout.Proofs.Permits.Tickets
/-!
# What happens on a floor, field by field

What beginning, settling and arriving do to gatherings, errands and results. Sending changes nothing
about an errand but its transit.
-/

namespace MetricFanout

variable {σ α : Type}

namespace Gather

@[simp] theorem arrive_waiting (g : Gather α) (now position : Nat) (o : Option (Outcome α)) :
    (g.arrive now position o).waiting = g.waiting.erase position := by
  cases o <;> rfl

@[simp] theorem arrive_targets (g : Gather α) (now position : Nat) (o : Option (Outcome α)) :
    (g.arrive now position o).targets = g.targets := by
  cases o <;> rfl

@[simp] theorem arrive_start (g : Gather α) (now position : Nat) (o : Option (Outcome α)) :
    (g.arrive now position o).start = g.start := by
  cases o <;> rfl

@[simp] theorem arrive_after (g : Gather α) (now position : Nat) (o : Option (Outcome α)) :
    (g.arrive now position o).after = g.after := by
  cases o <;> rfl

@[simp] theorem arrive_deadline (g : Gather α) (now position : Nat) (o : Option (Outcome α)) :
    (g.arrive now position o).deadline = g.deadline := by
  cases o <;> rfl

/-- A gathering that waits for nobody has ended. -/
theorem result?_of_empty {g : Gather α} (h : g.waiting = []) (now : Nat) :
    g.result? now = some (g.close now .aborted) := by
  simp [result?, h]

/-- A gathering whose timer has run out has ended. -/
theorem result?_of_timer {g : Gather α} {now : Nat} (h : g.waiting ≠ []) (ht : g.timer ≤ now) :
    g.result? now = some (g.close now .timeout) := by
  simp [result?, h, ht]

theorem result?_of_open {g : Gather α} {now : Nat} (h : g.waiting ≠ []) (ht : now < g.timer) :
    g.result? now = none := by
  simp [result?, h, ht]

end Gather

namespace Floor

/-! ## Sending and dismissing -/

/-- What sending does not change about errands, it does not change about the errands of a floor. -/
theorem map_send {β : Type} (key : Errand σ α → β) (net : Network σ α) (now : Nat) (f : Floor σ α)
    (hkey : ∀ e : Errand σ α, key (e.send net now) = key e) :
    (send net now f).errands.map key = f.errands.map key := by
  simp only [send, List.map_map]
  apply List.map_congr_left
  intro e _
  simp only [Function.comp_apply]
  split
  · exact hkey e
  · rfl

theorem mem_send_errands {net : Network σ α} {now : Nat} {f : Floor σ α} {e : Errand σ α}
    (h : e ∈ (send net now f).errands) : ∃ d ∈ f.errands, e = d ∨ e = d.send net now := by
  obtain ⟨d, hd, rfl⟩ := List.mem_map.1 h
  refine ⟨d, hd, ?_⟩
  split
  · exact .inr rfl
  · exact .inl rfl

/-- Errands that are all in transit stay as they are. -/
theorem send_errands_of_transit (net : Network σ α) (now : Nat) {f : Floor σ α}
    (h : ∀ e ∈ f.errands, e.transit.isSome) : (send net now f).errands = f.errands := by
  simp only [send]
  conv => rhs; rw [← List.map_id f.errands]
  apply List.map_congr_left
  intro e he
  have ht := h e he
  simp [isReady, Option.isNone_eq_false_iff.2 ht]

@[simp] theorem dismiss_gathers (f : Floor σ α) (leaves : Errand σ α → Bool) :
    (f.dismiss leaves).gathers = f.gathers := rfl

@[simp] theorem dismiss_errands (f : Floor σ α) (leaves : Errand σ α → Bool) :
    (f.dismiss leaves).errands = f.errands.filter fun e => !leaves e := rfl

/-- Nothing is given up when nobody leaves. -/
theorem dismiss_of_stay {f : Floor σ α} {leaves : Errand σ α → Bool}
    (h : ∀ e ∈ f.errands, leaves e = false) : f.dismiss leaves = f := by
  have hf : f.errands.filter leaves = [] := by
    apply List.filter_eq_nil_iff.2
    intro e he
    simp [h e he]
  have hk : (f.errands.filter fun e => !leaves e) = f.errands := by
    apply List.filter_eq_self.2
    intro e he
    simp [h e he]
  simp only [dismiss, hf, hk, List.foldl_nil]

/-- One errand among others, which are told apart by their tickets. -/
theorem perm_cons_filter {errands : List (Errand σ α)} (h : (errands.map Errand.ticket).Nodup)
    {e : Errand σ α} (he : e ∈ errands) :
    errands.Perm (e :: errands.filter fun d => !decide (d.ticket = e.ticket)) := by
  have hnodup : errands.Nodup := List.Nodup.of_map _ h
  have hnot : e ∉ errands.filter fun d => !decide (d.ticket = e.ticket) := by simp
  refine (List.perm_ext_iff_of_nodup hnodup
    (List.nodup_cons.2 ⟨hnot, hnodup.filter _⟩)).2 fun d => ?_
  rw [List.mem_cons, List.mem_filter, Bool.not_eq_true', decide_eq_false_iff_not]
  constructor
  · intro hd
    by_cases hde : d.ticket = e.ticket
    · exact .inl (List.inj_on_of_nodup_map h hd he hde)
    · exact .inr ⟨hd, hde⟩
  · rintro (rfl | hd)
    · exact he
    · exact hd.1

/-! ## Settling -/

/-- Whether an errand belongs to a gathering that has ended by a time. -/
def isOver (f : Floor σ α) (now : Nat) (e : Errand σ α) : Bool :=
  (f.ended now).any fun d => d.gather = e.gather

@[simp] theorem settle_gathers (net : Network σ α) (now : Nat) (f : Floor σ α) :
    (settle net now f).gathers = f.gathers.filter fun g => (g.2.result? now).isNone := rfl

@[simp] theorem settle_finished (net : Network σ α) (now : Nat) (f : Floor σ α) :
    (settle net now f).finished = f.finished ++ f.ended now := rfl

theorem map_settle {β : Type} (key : Errand σ α → β) (net : Network σ α) (now : Nat) (f : Floor σ α)
    (hkey : ∀ e : Errand σ α, key (e.send net now) = key e) :
    (settle net now f).errands.map key =
      (f.errands.filter fun e => !f.isOver now e).map key := by
  simp only [settle]
  rw [map_send key net now _ hkey]
  rfl

/-! ## Arriving -/

/-- The floor on which an errand has come back to its gathering, before it is settled. -/
def takeIn (now : Nat) (e : Errand σ α) (outcome : Option (Outcome α)) (f : Floor σ α) :
    Floor σ α :=
  dismiss { f with
    gathers := f.gathers.map fun g =>
      (g.1, if g.1 = e.gather then g.2.arrive now e.position outcome else g.2) }
    fun d => d.ticket = e.ticket

theorem arrive_eq (net : Network σ α) (now : Nat) (e : Errand σ α) (outcome : Option (Outcome α))
    (f : Floor σ α) : f.arrive net now e outcome = settle net now (f.takeIn now e outcome) := rfl

/-! ## What happens next -/

theorem firstTimer?_eq_none {f : Floor σ α} (h : f.firstTimer? = none) : f.gathers = [] :=
  List.map_eq_nil_iff.1 (List.min?_eq_none_iff.1 h)

/-- As long as a gathering goes on, something happens. -/
theorem gathers_of_next?_eq_none {net : Network σ α} {f : Floor σ α} (h : f.next? net = none) :
    f.gathers = [] := by
  apply firstTimer?_eq_none
  unfold next? at h
  split at h
  · assumption
  · cases h
  · split at h <;> cases h

theorem mem_of_next? {net : Network σ α} {f : Floor σ α} {t : Nat} {e : Errand σ α}
    {o : Option (Outcome α)} (h : f.next? net = some (.back t e o)) : e ∈ f.errands := by
  have hback : f.nextBack? net = some (.back t e o) := by
    unfold next? at h
    split at h
    · exact h
    · cases h
    · rename_i b hb
      split at h
      · cases h
      · rw [← h]
        exact hb
  simp only [nextBack?, Option.bind_eq_bind, Option.bind_eq_some_iff, Option.pure_def,
    Option.some.injEq] at hback
  obtain ⟨d, hd, transit, _, due, _, heq⟩ := hback
  cases heq
  exact firstBack?_mem hd

/-! ## Putting errands on the floor -/

theorem holds_add {f : Floor σ α} {e : Errand σ α} (h : f.holds e = true) (gather position : Nat)
    (t : Target σ) : (f.add gather position t).holds e = true := by
  simp only [holds, add] at h ⊢
  rw [List.getElem?_modify]
  cases hp : f.permits[e.backend]? with
  | none => simp [hp] at h
  | some p =>
      simp only [hp] at h
      by_cases hb : t.backend = e.backend
      · simpa [hb] using Permits.holds_acquire h _
      · simpa [hb] using h

@[simp] theorem addAll_gathers (gather position : Nat) (f : Floor σ α) (ts : List (Target σ)) :
    (addAll gather position f ts).gathers = f.gathers := by
  induction ts generalizing position f with
  | nil => rfl
  | cons t rest ih => rw [addAll, ih]; rfl

@[simp] theorem addAll_finished (gather position : Nat) (f : Floor σ α) (ts : List (Target σ)) :
    (addAll gather position f ts).finished = f.finished := by
  induction ts generalizing position f with
  | nil => rfl
  | cons t rest ih => rw [addAll, ih]; rfl

@[simp] theorem addAll_nextTicket (gather position : Nat) (f : Floor σ α) (ts : List (Target σ)) :
    (addAll gather position f ts).nextTicket = f.nextTicket + ts.length := by
  induction ts generalizing position f with
  | nil => rfl
  | cons t rest ih =>
      rw [addAll, ih]
      simp only [add, List.length_cons]
      omega

/-- The errands as which targets are put on the floor: their tickets and positions are consecutive. -/
def errandsOf (gather : Nat) : (ticket position : Nat) → List (Target σ) → List (Errand σ α)
  | _, _, [] => []
  | ticket, position, t :: rest =>
      ⟨ticket, gather, position, t.backend, t.subject, none⟩ ::
        errandsOf gather (ticket + 1) (position + 1) rest

theorem addAll_errands (gather position : Nat) (f : Floor σ α) (ts : List (Target σ)) :
    (addAll gather position f ts).errands =
      f.errands ++ errandsOf gather f.nextTicket position ts := by
  induction ts generalizing position f with
  | nil => exact (List.append_nil _).symm
  | cons t rest ih =>
      rw [addAll, ih]
      simp only [add, errandsOf, List.append_assoc, List.singleton_append]

theorem mem_errandsOf {gather ticket position : Nat} {ts : List (Target σ)} {e : Errand σ α}
    (h : e ∈ errandsOf gather ticket position ts) : ∃ i t, ts[i]? = some t ∧
      e = ⟨ticket + i, gather, position + i, t.backend, t.subject, none⟩ := by
  induction ts generalizing ticket position with
  | nil => cases h
  | cons t rest ih =>
      cases h with
      | head => exact ⟨0, t, rfl, rfl⟩
      | tail _ h =>
          obtain ⟨i, u, hu, rfl⟩ := ih h
          refine ⟨i + 1, u, hu, ?_⟩
          rw [Nat.add_right_comm ticket, Nat.add_right_comm position]
          rfl

/-- On a new floor, tickets are positions. -/
theorem errandsOf_eq_zipIdx (gather n : Nat) (ts : List (Target σ)) :
    (errandsOf gather n n ts : List (Errand σ α)) = (ts.zipIdx n).map fun t =>
      ⟨t.2, gather, t.2, t.1.backend, t.1.subject, none⟩ := by
  induction ts generalizing n with
  | nil => rfl
  | cons t rest ih => simp only [errandsOf, ih, List.zipIdx_cons, List.map_cons]

theorem tickets_errandsOf (gather ticket position : Nat) (ts : List (Target σ)) :
    (errandsOf gather ticket position ts : List (Errand σ α)).map Errand.ticket =
      List.range' ticket ts.length := by
  induction ts generalizing ticket position with
  | nil => rfl
  | cons t rest ih => simp only [errandsOf, List.map_cons, ih, List.length_cons, List.range'_succ]

theorem positions_errandsOf (gather ticket position : Nat) (ts : List (Target σ)) :
    (errandsOf gather ticket position ts : List (Errand σ α)).map Errand.position =
      List.range' position ts.length := by
  induction ts generalizing ticket position with
  | nil => rfl
  | cons t rest ih => simp only [errandsOf, List.map_cons, ih, List.length_cons, List.range'_succ]

/-- New errands are those of their gathering. -/
theorem filter_errandsOf_self (gather ticket position : Nat) (ts : List (Target σ)) :
    (errandsOf gather ticket position ts : List (Errand σ α)).filter (fun e => e.gather = gather) =
      errandsOf gather ticket position ts := by
  apply List.filter_eq_self.2
  intro e he
  obtain ⟨i, t, _, rfl⟩ := mem_errandsOf he
  exact decide_eq_true rfl

theorem filter_errandsOf_of_ne {gather id : Nat} (h : gather ≠ id) {ticket position : Nat}
    {ts : List (Target σ)} :
    (errandsOf gather ticket position ts : List (Errand σ α)).filter (fun e => e.gather = id) =
      [] := by
  apply List.filter_eq_nil_iff.2
  intro e he
  obtain ⟨i, t, _, rfl⟩ := mem_errandsOf he
  simpa using h

end Floor

/-! ## Timetables -/

namespace Timetable

variable {net : Network σ α}

theorem run_of_none {t : Timetable σ α} (h : t.step? net = none) : t.run net = t := by
  rw [run]
  split
  · rfl
  · simp_all

theorem run_of_some {t u : Timetable σ α} (h : t.step? net = some u) : t.run net = u.run net := by
  rw [run]
  split
  · simp_all
  · simp_all

end Timetable

end MetricFanout
