import MetricFanout.Proofs.Gather.Turns
/-!
# Permits in use

However gatherings overlap at their backends, and whenever their requests come back and their timers run
out: the permits in use are those of the requests in transit, and a request that is over keeps neither its
permit nor its place in line.

Events are taken in any order and at any time, so what is said of them does not rest on the order in which a
timetable lets them happen. Within an event there are more moments, and those are turns.
-/

namespace MetricFanout

variable {σ α : Type}

namespace Floor

/-- Something happens on a floor. -/
inductive Event (net : Network σ α) : Floor σ α → Floor σ α → Prop where
  /-- A gathering begins. -/
  | begin (f : Floor σ α) (now gather after deadline : Nat) (ts : List (Target σ)) :
      Event net f (f.begin net now gather after deadline ts)
  /-- Time passes, and gatherings whose timers have run out end. -/
  | timer (f : Floor σ α) (now : Nat) : Event net f (f.settle net now)
  /-- A request comes back, with an outcome or without one. -/
  | back {f : Floor σ α} {e : Errand σ α} (he : e ∈ f.errands) (now : Nat)
      (o : Option (Outcome α)) : Event net f (f.arrive net now e o)

/-- Events happen one after the other. -/
abbrev Events (net : Network σ α) : Floor σ α → Floor σ α → Prop :=
  Relation.ReflTransGen (Event net)

/-- The gatherings that go on. -/
def underWay (f : Floor σ α) : List Nat := f.gathers.map Prod.fst

/-- The gatherings that go on, and those that have ended. -/
def begun (f : Floor σ α) : List Nat := f.underWay ++ f.finished.map Finished.gather

/-- A ticket holds no permit and stands in no line. -/
def Released (f : Floor σ α) (ticket : Nat) : Prop :=
  ∀ p ∈ f.permits, ticket ∉ p.held ∧ ticket ∉ p.line

/-! ## Requests and their gatherings -/

section Attended

variable {net : Network σ α} {f : Floor σ α}

/-- Every request is one of a gathering that goes on. -/
def Attended (f : Floor σ α) : Prop := ∀ e ∈ f.errands, e.gather ∈ f.underWay

theorem attended_settle (h : f.Attended) (now : Nat) : (f.settle net now).Attended := by
  intro e he
  have hkey : e.gather ∈ (f.settle net now).errands.map Errand.gather := List.mem_map_of_mem he
  rw [map_settle Errand.gather net now f fun _ => rfl] at hkey
  obtain ⟨d, hd, hgather⟩ := List.mem_map.1 hkey
  obtain ⟨hd, hopen⟩ := List.mem_filter.1 hd
  obtain ⟨g, hg, hid⟩ := List.mem_map.1 (h d hd)
  refine List.mem_map.2 ⟨g, List.mem_filter.2 ⟨hg, ?_⟩, hid.trans hgather⟩
  cases hresult : g.2.result? now with
  | none => rfl
  | some replies =>
      -- The request would have left with its gathering.
      have hended : (⟨g.1, now, replies⟩ : Finished α) ∈ f.ended now :=
        List.mem_filterMap.2 ⟨g, hg, congrArg (Option.map _) hresult⟩
      have hover : f.isOver now d = true :=
        List.any_eq_true.2 ⟨_, hended, decide_eq_true hid⟩
      simp [hover] at hopen

@[simp] theorem underWay_takeIn (now : Nat) (e : Errand σ α) (o : Option (Outcome α)) :
    (f.takeIn now e o).underWay = f.underWay := by
  simp only [underWay, takeIn, dismiss_gathers, List.map_map]
  rfl

theorem attended_takeIn (h : f.Attended) (now : Nat) (e : Errand σ α) (o : Option (Outcome α)) :
    (f.takeIn now e o).Attended := by
  intro d hd
  rw [underWay_takeIn]
  exact h d (List.mem_filter.1 hd).1

theorem attended_begin (h : f.Attended) (now gather after deadline : Nat) (ts : List (Target σ)) :
    (f.begin net now gather after deadline ts).Attended := by
  refine attended_settle (fun e he => ?_) now
  rw [underWay, addAll_gathers, List.map_append]
  rw [addAll_errands] at he
  rcases List.mem_append.1 he with he | he
  · exact List.mem_append_left _ (h e he)
  · obtain ⟨_, _, _, rfl⟩ := mem_errandsOf he
    exact List.mem_append_right _ List.mem_cons_self

/-- What holds a permit has been sent. -/
def Running (f : Floor σ α) : Prop := ∀ e ∈ f.errands, f.holds e = true → e.transit.isSome = true

theorem running_send (now : Nat) (f : Floor σ α) : (f.send net now).Running := by
  intro e he hheld
  obtain ⟨d, hd, rfl⟩ := List.mem_map.1 he
  split
  · rfl
  · rename_i hready
    rw [if_neg hready] at hheld
    have hd : f.holds d = true := hheld
    simpa [isReady, hd, Option.isSome_iff_ne_none] using hready

/-- Requests are counted, they belong to gatherings, and they are in transit once they may be. -/
structure Tended (limits : List Nat) (f : Floor σ α) : Prop extends Ticketed limits f where
  attended : f.Attended
  running : f.Running

theorem tended_ofLimits (limits : List Nat) : (Floor.ofLimits limits : Floor σ α).Tended limits where
  toTicketed := .ofLimits limits
  attended _ he := absurd he List.not_mem_nil
  running _ he := absurd he List.not_mem_nil

end Attended

/-! ## Events are turns -/

section Events

variable {net : Network σ α} {limits : List Nat} {f g : Floor σ α}

theorem Event.turns (h : Event net f g) (hf : f.Ticketed limits) : Turns net f g := by
  cases h with
  | begin now gather after deadline ts => exact turns_begin net hf now gather after deadline ts
  | timer now => exact turns_settle net hf now
  | back he now o =>
      have htaken := turns_takeIn net he now o
      exact htaken.trans (turns_settle net (hf.turns htaken) now)

theorem Event.tended (h : Event net f g) (hf : f.Tended limits) : g.Tended limits := by
  refine ⟨hf.toTicketed.turns (h.turns hf.toTicketed), ?_, ?_⟩
  · cases h with
    | begin now gather after deadline ts => exact attended_begin hf.attended now gather after deadline ts
    | timer now => exact attended_settle hf.attended now
    | back he now o => exact attended_settle (attended_takeIn hf.attended now _ o) now
  · -- Every event ends with sending what may be sent.
    cases h <;> exact running_send _ _

theorem Events.tended (h : Events net f g) (hf : f.Tended limits) : g.Tended limits := by
  induction h with
  | refl => exact hf
  | tail _ hevent ih => exact hevent.tended ih

theorem Events.turns (h : Events net f g) (hf : f.Tended limits) : Turns net f g := by
  induction h with
  | refl => exact .refl
  | tail hevents hevent ih => exact ih.trans (hevent.turns (Events.tended hevents hf).toTicketed)

end Events

/-! ## Tickets that are gone -/

section Released

variable {net : Network σ α} {limits : List Nat} {f g : Floor σ α}

/-- A ticket that has been given and that no request has any more stays released. -/
theorem Ticketed.released (hf : f.Ticketed limits) {ticket : Nat} (hlt : ticket < f.nextTicket)
    (hnone : ∀ d ∈ f.errands, d.ticket ≠ ticket) (h : Turns net f g) : g.Released ticket := by
  have hold := Older.of_turns h
  have hfree : ∀ p ∈ g.permits, ticket ∉ p.tickets := by
    intro p hp hticket
    obtain ⟨d, hd, hdt⟩ := (hf.turns h).exists_errand hp hticket
    obtain ⟨e, he, het, _⟩ := hold.known d hd (hdt ▸ hlt)
    exact hnone e he (het.trans hdt)
  exact fun p hp => ⟨fun hheld => hfree p hp (List.mem_append_left _ hheld),
    fun hline => hfree p hp (List.mem_append_right _ hline)⟩

/-- A request that has left has released its ticket for good. -/
theorem Ticketed.released_of_leave (hf : f.Ticketed limits) {e : Errand σ α} (he : e ∈ f.errands)
    (h : Turns net (f.dismiss fun d => d.ticket = e.ticket) g) : g.Released e.ticket :=
  (hf.leave he).released (hf.ticket_lt e he)
    (fun d hd => by simpa using (List.mem_filter.1 hd).2) h

/-- A request that has come back has released its ticket for good. -/
theorem Ticketed.released_of_back (hf : f.Ticketed limits) {e : Errand σ α} (he : e ∈ f.errands)
    {now : Nat} {o : Option (Outcome α)} (h : Turns net (f.arrive net now e o) g) :
    g.Released e.ticket := by
  have htaken := turns_takeIn net he now o
  refine (hf.turns htaken).released (hf.ticket_lt e he) (fun d hd => ?_)
    ((turns_settle net (hf.turns htaken) now).trans h)
  simpa using (List.mem_filter.1 hd).2

/-- A request whose gathering does not go on any more has released its ticket for good. -/
theorem Tended.released_of_ended (hf : f.Tended limits) {e : Errand σ α} (he : e ∈ f.errands)
    (h : Events net f g) (hended : e.gather ∉ g.underWay) {k : Floor σ α} (hk : Turns net g k) :
    k.Released e.ticket := by
  have hg := h.tended hf
  have hold := Older.of_turns (h.turns hf)
  refine hg.toTicketed.released (Nat.lt_of_lt_of_le (hf.ticket_lt e he) hold.next) ?_ hk
  intro d hd hticket
  -- Whoever has the ticket now is the one who had it then.
  obtain ⟨c, hc, hct, hgather⟩ := hold.known d hd (hticket ▸ hf.ticket_lt e he)
  obtain rfl : c = e := List.inj_on_of_nodup_map hf.tickets hc he (hct.trans hticket)
  exact hended (hgather ▸ hg.attended d hd)

end Released

/-! ## Counting -/

section Counting

variable {limits : List Nat} {f : Floor σ α}

theorem Ticketed.inFlight_eq (h : f.Ticketed limits) {b limit : Nat} (hb : limits[b]? = some limit)
    (hlimit : 0 < limit) : ∃ n, f.inFlight[b]? = some n ∧ n ≤ limit ∧
      n = (f.errands.countP fun e => e.backend = b && f.holds e) ∧
      ∀ e ∈ f.errands, e.backend = b → f.holds e = false → n = limit := by
  have hb' : (f.permits.map Permits.limit)[b]? = some limit := by rw [h.limits, hb]
  rw [List.getElem?_map, Option.map_eq_some_iff] at hb'
  obtain ⟨p, hp, rfl⟩ := hb'
  have hcount : p.inFlight = p.held.length := if_neg (Nat.ne_of_gt hlimit)
  have hmem : p ∈ f.permits := List.mem_of_getElem? hp
  have hle : p.inFlight ≤ p.limit := by
    rw [hcount]
    exact h.within p hmem hlimit
  refine ⟨p.inFlight, ?_, hle, ?_, ?_⟩
  · rw [inFlight, List.getElem?_map, hp]
    rfl
  · rw [hcount, h.length_held hp]
  · rintro e he rfl hwaits
    have hbusy := (h.busy p hmem (List.ne_nil_of_mem (h.mem_line he hp hwaits))).2
    rw [← hcount] at hbusy
    exact Nat.le_antisymm hle hbusy

theorem Ticketed.inFlight_eq_zero (h : f.Ticketed limits) (hnone : f.errands = []) :
    ∀ n ∈ f.inFlight, n = 0 := by
  intro n hn
  obtain ⟨p, hp, rfl⟩ := List.mem_map.1 hn
  obtain ⟨b, hb⟩ := List.mem_iff_getElem?.1 hp
  have hheld : p.held.length = 0 := by rw [h.length_held hb, hnone, List.countP_nil]
  unfold Permits.inFlight
  split
  · rfl
  · exact hheld

theorem Attended.errands_eq_nil (h : f.Attended) (hnone : f.gathers = []) : f.errands = [] := by
  apply List.eq_nil_iff_forall_not_mem.2
  intro e he
  have hgather := h e he
  rw [underWay, hnone] at hgather
  exact absurd hgather List.not_mem_nil

end Counting

/-! ## Every gathering ends once -/

section Begun

variable (net : Network σ α) (f : Floor σ α)

theorem ended_gather (now : Nat) : (f.ended now).map Finished.gather =
    (f.gathers.filter fun g => (g.2.result? now).isSome).map Prod.fst := by
  unfold ended
  induction f.gathers with
  | nil => rfl
  | cons g rest ih =>
      cases hresult : g.2.result? now with
      | none => simp [hresult, ih]
      | some replies => simp [hresult, ih]

open scoped List in
theorem begun_settle (now : Nat) : (f.settle net now).begun.Perm f.begun := by
  have hsplit : ((f.gathers.filter fun g => (g.2.result? now).isNone).map Prod.fst ++
      (f.ended now).map Finished.gather).Perm f.underWay := by
    rw [ended_gather, ← List.map_append]
    refine .map _ ?_
    simpa using List.filter_append_perm (fun g : Nat × Gather α => (g.2.result? now).isNone) f.gathers
  calc (f.settle net now).begun
      = (f.gathers.filter fun g => (g.2.result? now).isNone).map Prod.fst ++
          (f.finished.map Finished.gather ++ (f.ended now).map Finished.gather) := by
        simp only [begun, underWay, settle_gathers, settle_finished, List.map_append]
    _ ~ (f.gathers.filter fun g => (g.2.result? now).isNone).map Prod.fst ++
          ((f.ended now).map Finished.gather ++ f.finished.map Finished.gather) :=
        List.perm_append_comm.append_left _
    _ ~ f.begun := by
        rw [← List.append_assoc]
        exact hsplit.append_right _

theorem begun_begin (now gather after deadline : Nat) (ts : List (Target σ)) :
    (f.begin net now gather after deadline ts).begun.Perm (gather :: f.begun) := by
  refine (begun_settle net _ now).trans ?_
  simp only [begun, underWay, addAll_gathers, addAll_finished, List.map_append, List.map_cons,
    List.map_nil, List.append_assoc, List.singleton_append]
  exact List.perm_middle

theorem begun_happen (e : FloorEvent σ α) : (f.happen net e).begun.Perm f.begun := by
  cases e with
  | timer t => exact begun_settle net f t
  | back t d o =>
      have htaken : (f.takeIn t d o).begun = f.begun := by
        rw [begun, underWay_takeIn]
        rfl
      rw [← htaken]
      exact begun_settle net _ t

end Begun

end Floor

/-! ## Timetables -/

namespace Timetable

variable {net : Network σ α} {limits : List Nat} {t u : Timetable σ α}

/-- One timetable comes after the other. -/
abbrev Reaches (net : Network σ α) : Timetable σ α → Timetable σ α → Prop :=
  Relation.ReflTransGen fun t u => t.step? net = some u

/-- The gatherings that have begun and those that are still to be launched. -/
def booked (t : Timetable σ α) : List Nat := t.floor.begun ++ t.launches.map Launch.gather

/-- A step launches the next gathering or lets the next event happen. -/
theorem step?_cases (h : t.step? net = some u) :
    (∃ l rest, t.launches = l :: rest ∧ u = t.launch net l rest) ∨
      ∃ e, t.floor.next? net = some e ∧ u = t.note e.time (t.floor.happen net e) t.launches := by
  unfold step? at h
  split at h
  · cases h
  · rename_i l rest hl _
    exact .inl ⟨l, rest, hl, (Option.some.inj h).symm⟩
  · rename_i e hl he
    exact .inr ⟨e, he, by rw [hl]; exact (Option.some.inj h).symm⟩
  · rename_i l rest e hl he
    split at h
    · exact .inl ⟨l, rest, hl, (Option.some.inj h).symm⟩
    · exact .inr ⟨e, he, by rw [hl]; exact (Option.some.inj h).symm⟩

theorem event_step? (h : t.step? net = some u) : Floor.Event net t.floor u.floor := by
  obtain ⟨l, rest, _, rfl⟩ | ⟨e, he, rfl⟩ := step?_cases h
  · exact .begin t.floor l.start l.gather l.after (l.start + l.deadline) l.targets
  · cases e with
    | timer time => exact .timer t.floor time
    | back time d o => exact .back (Floor.mem_of_next? he) time o

theorem booked_step? (h : t.step? net = some u) : u.booked.Perm t.booked := by
  obtain ⟨l, rest, hl, rfl⟩ | ⟨e, he, rfl⟩ := step?_cases h
  · have hbegun := Floor.begun_begin net t.floor l.start l.gather l.after (l.start + l.deadline)
      l.targets
    rw [booked, booked, hl, List.map_cons]
    exact (hbegun.append_right _).trans List.perm_middle.symm
  · exact (Floor.begun_happen net t.floor e).append_right _

theorem Reaches.events (h : Reaches net t u) : Floor.Events net t.floor u.floor := by
  induction h with
  | refl => exact .refl
  | tail _ hstep ih => exact ih.tail (event_step? hstep)

theorem Reaches.booked (h : Reaches net t u) : u.booked.Perm t.booked := by
  induction h with
  | refl => exact .refl _
  | tail _ hstep ih => exact (booked_step? hstep).trans ih

/-- Running a timetable is taking its steps until there are no more. -/
theorem reaches_run (net : Network σ α) (t : Timetable σ α) :
    Reaches net t (t.run net) ∧ (t.run net).step? net = none := by
  fun_induction run net t with
  | case1 t hnone => exact ⟨.refl, hnone⟩
  | case2 t u hsome ih => exact ⟨ih.1.head hsome, ih.2⟩

/-- Nothing is left to do when no step is left. -/
theorem over_of_step?_eq_none (h : t.step? net = none) : t.launches = [] ∧ t.floor.gathers = [] := by
  unfold step? at h
  split at h
  · rename_i hl he
    exact ⟨hl, Floor.gathers_of_next?_eq_none he⟩
  · cases h
  · cases h
  · split at h <;> cases h

theorem insert_perm (l : Launch σ) (ls : List (Launch σ)) : (insert l ls).Perm (l :: ls) := by
  induction ls with
  | nil => exact .refl _
  | cons m rest ih =>
      unfold insert
      split
      · exact .refl _
      · exact (ih.cons m).trans (.swap l m rest)

theorem booked_ofLaunches (limits : List Nat) (launches : List (Launch σ)) :
    (ofLaunches limits launches : Timetable σ α).booked.Perm (launches.map Launch.gather) := by
  have hsorted : ∀ ls : List (Launch σ),
      (launches.foldl (fun ls l => insert l ls) ls).Perm (launches ++ ls) := by
    induction launches with
    | nil => exact fun ls => .refl _
    | cons l rest ih =>
        intro ls
        exact (ih (insert l ls)).trans
          (((insert_perm l ls).append_left rest).trans List.perm_middle)
  simpa [booked, ofLaunches, Floor.ofLimits, Floor.begun, Floor.underWay] using
    (hsorted []).map Launch.gather

end Timetable

/-! ## Permits are kept -/

/-- Permits are handed out within their limits to requests that run, and no request keeps one. -/
structure KeepsPermits (net : Network σ α) (limits : List Nat) : Prop where
  /-- At every moment, the permits in use at a backend with a limit are those of its requests, they are no
  more than the limit, and a request waits only while they are as many. -/
  bounded : ∀ f, Floor.Turns net (.ofLimits limits) f →
    ∀ b limit : Nat, limits[b]? = some limit → 0 < limit →
      ∃ n, f.inFlight[b]? = some n ∧ n ≤ limit ∧
        n = (f.errands.countP fun e => e.backend = b && f.holds e) ∧
        ∀ e ∈ f.errands, e.backend = b → f.holds e = false → n = limit
  /-- Whatever has made a request leave, it holds and awaits no permit at any later moment. -/
  left : ∀ f, Floor.Turns net (.ofLimits limits) f → ∀ e ∈ f.errands,
    ∀ g, Floor.Turns net (f.dismiss fun d => d.ticket = e.ticket) g → g.Released e.ticket
  /-- What happens is made of turns. -/
  moments : ∀ f, Floor.Events net (.ofLimits limits) f → Floor.Turns net (.ofLimits limits) f
  /-- Between events, the requests that hold a permit are those that have been sent. -/
  running : ∀ f, Floor.Events net (.ofLimits limits) f →
    ∀ e ∈ f.errands, e.transit.isSome = f.holds e
  /-- A request that has come back, whether it has succeeded, failed or panicked, holds and awaits no permit
  at any later moment. -/
  back : ∀ f, Floor.Events net (.ofLimits limits) f → ∀ e ∈ f.errands, ∀ now o,
    ∀ g, Floor.Turns net (f.arrive net now e o) g → g.Released e.ticket
  /-- A request that is given up with its gathering, whether it was running or waiting for its permit, holds
  and awaits no permit at any later moment. -/
  abandoned : ∀ f, Floor.Events net (.ofLimits limits) f → ∀ e ∈ f.errands,
    ∀ g, Floor.Events net f g → e.gather ∉ g.underWay →
      ∀ k, Floor.Turns net g k → k.Released e.ticket
  /-- Once every gathering has ended, no permit is in use. -/
  returned : ∀ f, Floor.Events net (.ofLimits limits) f → f.underWay = [] → ∀ n ∈ f.inFlight, n = 0
  /-- Timetables let such events happen. -/
  timetable : ∀ launches t, Timetable.Reaches net (.ofLaunches limits launches) t →
    Floor.Events net (.ofLimits limits) t.floor
  /-- In the end every gathering that was to be launched has ended, and no permit is in use. -/
  ends : ∀ launches : List (Launch σ), let t := (Timetable.ofLaunches limits launches).run net
    Timetable.Reaches net (.ofLaunches limits launches) t ∧
      (t.floor.finished.map Finished.gather).Perm (launches.map Launch.gather) ∧
      t.floor.underWay = [] ∧ ∀ n ∈ t.floor.inFlight, n = 0

theorem permits_never_leak (net : Network σ α) (limits : List Nat) : KeepsPermits net limits := by
  have hstart : (Floor.ofLimits limits : Floor σ α).Tended limits := Floor.tended_ofLimits limits
  have hreturned : ∀ f : Floor σ α, f.Tended limits → f.underWay = [] → ∀ n ∈ f.inFlight, n = 0 :=
    fun f hf hnone =>
      hf.inFlight_eq_zero (hf.attended.errands_eq_nil (List.map_eq_nil_iff.1 hnone))
  constructor
  case bounded =>
    intro f hf b limit hb hlimit
    exact (hstart.toTicketed.turns hf).inFlight_eq hb hlimit
  case left =>
    intro f hf e he g hg
    exact (hstart.toTicketed.turns hf).released_of_leave he hg
  case moments =>
    intro f hf
    exact hf.turns hstart
  case running =>
    intro f hf e he
    have htended := hf.tended hstart
    exact Bool.eq_iff_iff.2 ⟨htended.sent e he, htended.running e he⟩
  case back =>
    intro f hf e he now o g hg
    exact (hf.tended hstart).toTicketed.released_of_back he hg
  case abandoned =>
    intro f hf e he g hg hended k hk
    exact (hf.tended hstart).released_of_ended he hg hended hk
  case returned =>
    intro f hf hnone
    exact hreturned f (hf.tended hstart) hnone
  case timetable =>
    intro launches t ht
    exact ht.events
  case ends =>
    intro launches
    obtain ⟨hreaches, hover⟩ := Timetable.reaches_run net (.ofLaunches limits launches)
    obtain ⟨hlaunches, hgathers⟩ := Timetable.over_of_step?_eq_none hover
    have hnone : ((Timetable.ofLaunches limits launches).run net).floor.underWay = [] := by
      rw [Floor.underWay, hgathers]
      rfl
    have hbooked := hreaches.booked.trans (Timetable.booked_ofLaunches limits launches)
    rw [Timetable.booked, Floor.begun, hnone, hlaunches, List.map_nil, List.append_nil,
      List.nil_append] at hbooked
    exact ⟨hreaches, hbooked, hnone, hreturned _ (hreaches.events.tended hstart) hnone⟩

/-- A request waits in line for the only permit until the gathering of another one is given up. -/
theorem permits_never_leak_given_up :
    let net : Network Unit Unit := ⟨fun _ => ⟨none, none⟩, fun _ _ => false⟩
    let ask : Target Unit := ⟨0, "a", ()⟩
    let f := ((Floor.ofLimits [1]).begin net 0 1 5 10 [ask]).begin net 1 2 5 20 [ask]
    let g := f.settle net 10
    let k := g.settle net 20
    f.errands.map f.holds = [true, false] ∧ f.inFlight = [1] ∧
      g.Released 0 ∧ g.errands.map g.holds = [true] ∧ g.inFlight = [1] ∧
      k.Released 1 ∧ ∀ n ∈ k.inFlight, n = 0 := by
  intro net ask f g k
  have hf : Floor.Events net (.ofLimits [1]) f :=
    .tail (.single (.begin _ 0 1 5 10 [ask])) (.begin _ 1 2 5 20 [ask])
  have hg : Floor.Events net f g := .single (.timer f 10)
  have hk : Floor.Events net g k := .single (.timer g 20)
  have hshared : (f.errands.map f.holds = [true, false] ∧ f.inFlight = [1]) ∧
      g.errands.map g.holds = [true] ∧ g.inFlight = [1] := by decide +zetaReduce
  have herrands : f.errands = [⟨0, 1, 0, 0, (), some ⟨none, none⟩⟩, ⟨1, 2, 0, 0, (), none⟩] := rfl
  have hsecond : g.underWay = [2] := rfl
  have hnone : k.underWay = [] := rfl
  have h := permits_never_leak net [1]
  obtain ⟨⟨hline, hfirst⟩, hserved, hnext⟩ := hshared
  refine ⟨hline, hfirst, ?_, hserved, hnext, ?_, ?_⟩
  · refine h.abandoned f hf ⟨0, 1, 0, 0, (), some ⟨none, none⟩⟩ ?_ g hg ?_ g .refl
    · rw [herrands]
      exact List.mem_cons_self
    · rw [hsecond]
      decide
  · refine h.abandoned f hf ⟨1, 2, 0, 0, (), none⟩ ?_ k (hg.trans hk) ?_ k .refl
    · rw [herrands]
      exact List.mem_cons_of_mem _ List.mem_cons_self
    · rw [hnone]
      exact List.not_mem_nil
  · exact h.returned k (hf.trans (hg.trans hk)) hnone

end MetricFanout
