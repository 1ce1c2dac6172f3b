import Mathlib.Logic.Relation
import MetricFanout.Proofs.Gather.Floor
/-!
# One thing at a time

What happens on a floor is made of turns: a request asks for a permit, a request leaves, requests that hold
a permit are sent, and gatherings are recorded as they go on. In whatever order turns are taken, the tickets
at the permits of a backend are those of the requests on the floor.

## Implementation notes

A turn is taken for any request at any time, so turns allow more than what gatherings do: every
interleaving of their requests, and every moment within an event, is among the floors that turns lead to.
-/

namespace MetricFanout

variable {σ α : Type}

namespace Floor

/-- One thing happens on a floor. -/
inductive Turn (net : Network σ α) : Floor σ α → Floor σ α → Prop where
  /-- A request asks for a permit. -/
  | ask (f : Floor σ α) (gather position : Nat) (t : Target σ) : Turn net f (f.add gather position t)
  /-- A request leaves, because it has ended or because it is given up. -/
  | leave {f : Floor σ α} {e : Errand σ α} (he : e ∈ f.errands) :
      Turn net f (f.dismiss fun d => d.ticket = e.ticket)
  /-- Requests that hold a permit are sent. -/
  | send (f : Floor σ α) (now : Nat) : Turn net f (f.send net now)
  /-- Gatherings begin, hear of their requests, or end. -/
  | record (f : Floor σ α) (gathers : List (Nat × Gather α)) (finished : List (Finished α)) :
      Turn net f { f with gathers := gathers, finished := finished }

/-- Turns are taken one after the other. -/
abbrev Turns (net : Network σ α) : Floor σ α → Floor σ α → Prop := Relation.ReflTransGen (Turn net)

/-! ## Tickets and requests -/

/-- The tickets at the permits of each backend are those of the requests to it, no more permits are held than
there are, nobody waits beside a free permit, and what has been sent holds a permit. -/
structure Ticketed (limits : List Nat) (f : Floor σ α) : Prop where
  limits : f.permits.map Permits.limit = limits
  tickets : (f.errands.map Errand.ticket).Nodup
  ticket_lt : ∀ e ∈ f.errands, e.ticket < f.nextTicket
  within : ∀ p ∈ f.permits, p.Within
  busy : ∀ p ∈ f.permits, p.Busy
  permits : ∀ (b : Nat) (p : Permits), f.permits[b]? = some p →
    p.tickets.Perm ((f.errands.filter fun e => e.backend = b).map Errand.ticket)
  sent : ∀ e ∈ f.errands, e.transit.isSome = true → f.holds e = true

theorem holds_giveUp {f : Floor σ α} {d e : Errand σ α} (h : f.holds d = true)
    (hne : d.ticket ≠ e.ticket) (errands : List (Errand σ α)) :
    { f with permits := giveUp f.permits e, errands := errands }.holds d = true := by
  simp only [holds, giveUp] at h ⊢
  rw [List.getElem?_modify]
  cases hp : f.permits[d.backend]? with
  | none => simp [hp] at h
  | some p =>
      simp only [hp] at h
      by_cases hb : e.backend = d.backend
      · simpa [hb] using Permits.holds_drop h hne
      · simpa [hb] using h

/-- One request leaves and gives up its ticket. -/
theorem dismiss_ticket {f : Floor σ α} (h : (f.errands.map Errand.ticket).Nodup) {e : Errand σ α}
    (he : e ∈ f.errands) : (f.dismiss fun d => d.ticket = e.ticket) =
      { f with permits := giveUp f.permits e
               errands := f.errands.filter fun d => !decide (d.ticket = e.ticket) } := by
  have hone : f.errands.filter (fun d => decide (d.ticket = e.ticket)) = [e] := by
    have hperm := (perm_cons_filter h he).filter fun d => decide (d.ticket = e.ticket)
    rw [List.filter_cons_of_pos (by simp), List.filter_filter] at hperm
    simpa using hperm
  simp only [dismiss, hone, List.foldl_cons, List.foldl_nil]

namespace Ticketed

variable {limits : List Nat} {f : Floor σ α}

theorem ofLimits (limits : List Nat) : (Floor.ofLimits limits : Floor σ α).Ticketed limits where
  limits := by simp [Floor.ofLimits, Function.comp_def]
  tickets := List.nodup_nil
  ticket_lt _ he := absurd he List.not_mem_nil
  within p hp := by
    obtain ⟨l, _, rfl⟩ := List.mem_map.1 hp
    exact fun _ => Nat.zero_le _
  busy p hp := by
    obtain ⟨l, _, rfl⟩ := List.mem_map.1 hp
    exact fun hline => absurd rfl hline
  permits b p hp := by
    obtain ⟨l, _, rfl⟩ := List.mem_map.1 (List.mem_of_getElem? hp)
    exact .refl _
  sent _ he := absurd he List.not_mem_nil

/-- The tickets of a backend are distinct. -/
theorem nodup_tickets (h : f.Ticketed limits) {b : Nat} {p : Permits} (hp : f.permits[b]? = some p) :
    p.tickets.Nodup :=
  (h.permits b p hp).nodup_iff.2 (h.tickets.sublist (List.filter_sublist.map _))

theorem ask (h : f.Ticketed limits) (gather position : Nat) (t : Target σ) :
    (f.add gather position t).Ticketed limits := by
  constructor
  case limits => rw [← h.limits, add, Permits.map_limit_modify fun p => p.acquire_limit _]
  case tickets =>
    simp only [add, List.map_append, List.map_cons, List.map_nil]
    refine List.nodup_append.2 ⟨h.tickets, List.pairwise_singleton _ _, ?_⟩
    intro a ha b hb hab
    obtain ⟨e, he, rfl⟩ := List.mem_map.1 ha
    exact absurd (h.ticket_lt e he) (by rw [hab, List.mem_singleton.1 hb]; exact Nat.lt_irrefl _)
  case ticket_lt =>
    intro e he
    rcases List.mem_append.1 he with he | he
    · exact Nat.lt_succ_of_lt (h.ticket_lt e he)
    · rw [List.mem_singleton.1 he]
      exact Nat.lt_succ_self _
  case within => exact Permits.forall_modify h.within _ fun p hp => hp.acquire _
  case busy => exact Permits.forall_modify h.busy _ fun p _ => Permits.busy_serve _
  case permits =>
    intro b p hp
    simp only [add, List.getElem?_modify, Option.map_eq_map, Option.map_eq_some_iff] at hp
    obtain ⟨q, hq, rfl⟩ := hp
    have hperm := h.permits b q hq
    simp only [add, List.filter_append]
    by_cases hb : t.backend = b
    · rw [if_pos hb, Permits.acquire_tickets, List.filter_cons_of_pos (by simp [hb])]
      simpa using hperm.append_right [f.nextTicket]
    · rw [if_neg hb, List.filter_cons_of_neg (by simp [hb])]
      simpa using hperm
  case sent =>
    intro e he ht
    rcases List.mem_append.1 he with he | he
    · exact holds_add (h.sent e he ht) gather position t
    · rw [List.mem_singleton.1 he] at ht
      cases ht

theorem leave (h : f.Ticketed limits) {e : Errand σ α} (he : e ∈ f.errands) :
    (f.dismiss fun d => d.ticket = e.ticket).Ticketed limits := by
  have hleft := perm_cons_filter h.tickets he
  rw [dismiss_ticket h.tickets he]
  constructor
  case limits => rw [← h.limits, giveUp, Permits.map_limit_modify fun p => p.drop_limit _]
  case tickets => exact h.tickets.sublist (List.filter_sublist.map _)
  case ticket_lt => exact fun d hd => h.ticket_lt d (List.mem_filter.1 hd).1
  case within => exact Permits.forall_modify h.within _ fun p hp => hp.drop _
  case busy => exact Permits.forall_modify h.busy _ fun p _ => Permits.busy_serve _
  case permits =>
    intro b p hp
    simp only [giveUp, List.getElem?_modify, Option.map_eq_map, Option.map_eq_some_iff] at hp
    obtain ⟨q, hq, rfl⟩ := hp
    have hperm := (h.permits b q hq).trans ((hleft.filter fun d => d.backend = b).map Errand.ticket)
    by_cases hb : e.backend = b
    · rw [List.filter_cons_of_pos (by simp [hb]), List.map_cons] at hperm
      rw [if_pos hb, Permits.drop_tickets (h.nodup_tickets hq)]
      simpa using hperm.erase e.ticket
    · rw [List.filter_cons_of_neg (by simp [hb])] at hperm
      rwa [if_neg hb]
  case sent =>
    intro d hd ht
    obtain ⟨hd, hne⟩ := List.mem_filter.1 hd
    exact holds_giveUp (h.sent d hd ht) (by simpa using hne) _

theorem send (h : f.Ticketed limits) (net : Network σ α) (now : Nat) :
    (f.send net now).Ticketed limits := by
  have hsame : ∀ b : Nat, ((f.send net now).errands.filter fun e => e.backend = b).map Errand.ticket =
      (f.errands.filter fun e => e.backend = b).map Errand.ticket := by
    intro b
    have hkey : ∀ e : Errand σ α, (if f.isReady e then e.send net now else e).backend = e.backend ∧
        (if f.isReady e then e.send net now else e).ticket = e.ticket := by
      intro e
      split <;> exact ⟨rfl, rfl⟩
    simp only [Floor.send, List.filter_map, List.map_map, Function.comp_def, hkey]
  constructor
  case limits => exact h.limits
  case tickets =>
    rw [map_send Errand.ticket net now f fun _ => rfl]
    exact h.tickets
  case ticket_lt =>
    intro e he
    obtain ⟨d, hd, rfl | rfl⟩ := mem_send_errands he
    · exact h.ticket_lt e hd
    · exact h.ticket_lt d hd
  case within => exact h.within
  case busy => exact h.busy
  case permits =>
    intro b p hp
    rw [hsame]
    exact h.permits b p hp
  case sent =>
    intro e he ht
    obtain ⟨d, hd, rfl⟩ := List.mem_map.1 he
    split at ht
    · rename_i hready
      rw [if_pos hready]
      exact (Bool.and_eq_true_iff.1 hready).2
    · rename_i hready
      rw [if_neg hready]
      exact h.sent d hd ht

theorem turn (h : f.Ticketed limits) {net : Network σ α} {g : Floor σ α} (ht : Turn net f g) :
    g.Ticketed limits := by
  cases ht with
  | ask gather position t => exact h.ask gather position t
  | leave he => exact h.leave he
  | send now => exact h.send net now
  | record gathers finished =>
      exact ⟨h.limits, h.tickets, h.ticket_lt, h.within, h.busy, h.permits, h.sent⟩

/-- Whatever turns are taken, the tickets are those of the requests. -/
theorem turns (h : f.Ticketed limits) {net : Network σ α} {g : Floor σ α} (ht : Turns net f g) :
    g.Ticketed limits := by
  induction ht with
  | refl => exact h
  | tail _ hturn ih => exact ih.turn hturn

/-- As many permits of a backend are held as requests hold one. -/
theorem length_held (h : f.Ticketed limits) {b : Nat} {p : Permits} (hp : f.permits[b]? = some p) :
    p.held.length = f.errands.countP fun e => e.backend = b && f.holds e := by
  have hholds : ∀ e : Errand σ α, e.backend = b → (f.holds e = true ↔ e.ticket ∈ p.held) := by
    intro e he
    rw [holds, he, hp]
    exact List.contains_iff_mem
  have hperm : p.held.Perm
      ((f.errands.filter fun e => e.backend = b && f.holds e).map Errand.ticket) := by
    have hheld : p.held.Nodup := (List.nodup_append.1 (h.nodup_tickets hp)).1
    refine (List.perm_ext_iff_of_nodup hheld (h.tickets.sublist (List.filter_sublist.map _))).2
      fun ticket => ?_
    simp only [List.mem_map, List.mem_filter, Bool.and_eq_true, decide_eq_true_eq]
    constructor
    · intro hticket
      obtain ⟨e, he, rfl⟩ :=
        List.mem_map.1 ((h.permits b p hp).mem_iff.1 (List.mem_append_left _ hticket))
      obtain ⟨he, hb⟩ := List.mem_filter.1 he
      have hb : e.backend = b := by simpa using hb
      exact ⟨e, ⟨he, hb, (hholds e hb).2 hticket⟩, rfl⟩
    · rintro ⟨e, ⟨_, hb, hheld⟩, rfl⟩
      exact (hholds e hb).1 hheld
  rw [hperm.length_eq, List.length_map, List.countP_eq_length_filter]

/-- A request that holds no permit stands in line. -/
theorem mem_line (h : f.Ticketed limits) {p : Permits} {e : Errand σ α} (he : e ∈ f.errands)
    (hp : f.permits[e.backend]? = some p) (hwaits : f.holds e = false) : e.ticket ∈ p.line := by
  have hticket : e.ticket ∈ p.tickets :=
    (h.permits e.backend p hp).mem_iff.2
      (List.mem_map_of_mem (List.mem_filter.2 ⟨he, decide_eq_true rfl⟩))
  refine (List.mem_append.1 hticket).resolve_left fun hheld => ?_
  have hholds : f.holds e = true := by
    rw [holds, hp]
    exact List.contains_iff_mem.2 hheld
  rw [hholds] at hwaits
  cases hwaits

/-- A ticket at any permits is that of a request on the floor. -/
theorem exists_errand (h : f.Ticketed limits) {p : Permits} (hp : p ∈ f.permits) {ticket : Nat}
    (ht : ticket ∈ p.tickets) : ∃ e ∈ f.errands, e.ticket = ticket := by
  obtain ⟨b, hb⟩ := List.mem_iff_getElem?.1 hp
  obtain ⟨e, he, rfl⟩ := List.mem_map.1 ((h.permits b p hb).mem_iff.1 ht)
  exact ⟨e, (List.mem_filter.1 he).1, rfl⟩

end Ticketed

/-! ## Tickets are given once -/

/-- Tickets of the first floor belong to the same requests on the second one, if to any. -/
structure Older (f g : Floor σ α) : Prop where
  next : f.nextTicket ≤ g.nextTicket
  known : ∀ d ∈ g.errands, d.ticket < f.nextTicket →
    ∃ e ∈ f.errands, e.ticket = d.ticket ∧ e.gather = d.gather

namespace Older

variable {f g h : Floor σ α}

theorem refl (f : Floor σ α) : f.Older f := ⟨Nat.le_refl _, fun d hd _ => ⟨d, hd, rfl, rfl⟩⟩

theorem trans (hfg : f.Older g) (hgh : g.Older h) : f.Older h := by
  refine ⟨Nat.le_trans hfg.next hgh.next, fun d hd hlt => ?_⟩
  obtain ⟨e, he, ht, hid⟩ := hgh.known d hd (Nat.lt_of_lt_of_le hlt hfg.next)
  obtain ⟨c, hc, ht', hid'⟩ := hfg.known e he (ht ▸ hlt)
  exact ⟨c, hc, ht'.trans ht, hid'.trans hid⟩

theorem of_turn {net : Network σ α} (h : Turn net f g) : f.Older g := by
  cases h with
  | ask gather position t =>
      refine ⟨Nat.le_succ _, fun d hd hlt => ?_⟩
      rcases List.mem_append.1 hd with hd | hd
      · exact ⟨d, hd, rfl, rfl⟩
      · rw [List.mem_singleton.1 hd] at hlt
        exact absurd hlt (Nat.lt_irrefl _)
  | leave _ => exact ⟨Nat.le_refl _, fun d hd _ => ⟨d, (List.mem_filter.1 hd).1, rfl, rfl⟩⟩
  | send now =>
      refine ⟨Nat.le_refl _, fun d hd _ => ?_⟩
      obtain ⟨e, he, rfl | rfl⟩ := mem_send_errands hd
      · exact ⟨d, he, rfl, rfl⟩
      · exact ⟨e, he, rfl, rfl⟩
  | record gathers finished => exact ⟨Nat.le_refl _, fun d hd _ => ⟨d, hd, rfl, rfl⟩⟩

theorem of_turns {net : Network σ α} (h : Turns net f g) : f.Older g := by
  induction h with
  | refl => exact refl f
  | tail _ hturn ih => exact ih.trans (of_turn hturn)

end Older

/-! ## Events are turns -/

section Events

variable {limits : List Nat} {f : Floor σ α} (net : Network σ α)

/-- Requests that leave together leave one after the other. -/
theorem turns_leave (errands : List (Errand σ α)) {f : Floor σ α}
    (h : (f.errands.map Errand.ticket).Nodup) (hnodup : (errands.map Errand.ticket).Nodup)
    (hsub : ∀ e ∈ errands, e ∈ f.errands) :
    Turns net f { f with
      permits := errands.foldl giveUp f.permits
      errands := f.errands.filter fun d => decide (d.ticket ∉ errands.map Errand.ticket) } := by
  induction errands generalizing f with
  | nil => simpa using Relation.ReflTransGen.refl
  | cons e rest ih =>
      have he := hsub e List.mem_cons_self
      obtain ⟨hfresh, hrest⟩ := List.nodup_cons.1 hnodup
      have hfirst := dismiss_ticket h he
      have hturn : Turn net f _ := Turn.leave he
      rw [hfirst] at hturn
      refine .head hturn ?_
      -- The others are still there: their tickets are not that of the first.
      have hlast := ih (f := { f with
          permits := giveUp f.permits e
          errands := f.errands.filter fun d => !decide (d.ticket = e.ticket) })
        (h.sublist (List.filter_sublist.map _)) hrest fun d hd =>
          List.mem_filter.2 ⟨hsub d (List.mem_cons_of_mem _ hd), by
            have hne : d.ticket ≠ e.ticket := fun heq => hfresh (heq ▸ List.mem_map_of_mem hd)
            simpa using hne⟩
      have hstay : (f.errands.filter fun d => !decide (d.ticket = e.ticket)).filter
          (fun d => decide (d.ticket ∉ rest.map Errand.ticket)) =
          f.errands.filter fun d => decide (d.ticket ∉ (e :: rest).map Errand.ticket) := by
        rw [List.filter_filter]
        apply List.filter_congr
        intro d _
        simp only [List.map_cons, List.mem_cons, not_or, Bool.decide_and, decide_not]
        exact Bool.and_comm _ _
      rw [hstay] at hlast
      exact hlast

theorem turns_dismiss (h : (f.errands.map Errand.ticket).Nodup) (leaves : Errand σ α → Bool) :
    Turns net f (f.dismiss leaves) := by
  have hleave := turns_leave net (f.errands.filter leaves) h
    (h.sublist (List.filter_sublist.map _)) fun e he => (List.mem_filter.1 he).1
  have hstay : (f.errands.filter fun d =>
      decide (d.ticket ∉ (f.errands.filter leaves).map Errand.ticket)) =
      f.errands.filter fun d => !leaves d := by
    apply List.filter_congr
    intro d hd
    rw [Bool.eq_iff_iff, decide_eq_true_eq, Bool.not_eq_true', ← Bool.not_eq_true, not_iff_not,
      List.mem_map]
    constructor
    · rintro ⟨e, he, heq⟩
      obtain ⟨he, hleaves⟩ := List.mem_filter.1 he
      rwa [← List.inj_on_of_nodup_map h he hd heq]
    · exact fun hleaves => ⟨d, List.mem_filter.2 ⟨hd, hleaves⟩, rfl⟩
  rw [hstay] at hleave
  exact hleave

theorem turns_settle (h : f.Ticketed limits) (now : Nat) : Turns net f (f.settle net now) := by
  let ended : Floor σ α := { f with
    gathers := f.gathers.filter fun g => (g.2.result? now).isNone
    finished := f.finished ++ f.ended now }
  have hrecord : Turn net f ended := .record f _ _
  have hleave : Turns net ended _ := turns_dismiss net (f := ended) h.tickets (f.isOver now)
  exact .head hrecord (hleave.tail (.send _ now))

theorem turns_addAll (gather position : Nat) (f : Floor σ α) (ts : List (Target σ)) :
    Turns net f (addAll gather position f ts) := by
  induction ts generalizing position f with
  | nil => exact .refl
  | cons t rest ih => exact .head (.ask f gather position t) (ih (position + 1) _)

theorem turns_begin (h : f.Ticketed limits) (now gather after deadline : Nat) (ts : List (Target σ)) :
    Turns net f (f.begin net now gather after deadline ts) := by
  have hasked : Turns net f (addAll gather 0 { f with gathers := f.gathers ++
      [(gather, Gather.begin (ts.map Target.name) now after deadline)] } ts) :=
    .head (.record f _ f.finished) (turns_addAll net gather 0 _ ts)
  exact hasked.trans (turns_settle net (h.turns hasked) now)

theorem turns_takeIn {e : Errand σ α} (he : e ∈ f.errands) (now : Nat) (o : Option (Outcome α)) :
    Turns net f (f.takeIn now e o) :=
  .head (.record f _ f.finished) (.single (.leave he))

end Events

end Floor

end MetricFanout
