import MetricFanout.Gather.Basic
import MetricFanout.Permits.Basic
/-!
# Gatherings that share backends

Several gatherings may go on at a time. Each of their requests needs a permit of its backend before
it is sent; the permit is held until the request ends or its gathering gives it up.

## Implementation notes

A request that is on the floor is an errand with a ticket at the permits of its backend. Every
change is followed by `settle`: gatherings that have ended leave, their errands give up their
tickets, and only then the errands that hold a permit by now are sent. So a permit that passes
through the hands of an ending gathering sends nothing.
-/

namespace MetricFanout

/-- How a request that is sent comes back: when, if ever, and with what outcome, if any. -/
structure Delivery (α : Type) where
  delay : Option Nat
  outcome : Option (Outcome α)

/-- What lies between gatherings and backends. `before` orders what arrives at the same time. -/
structure Network (σ α : Type) where
  deliver : σ → Delivery α
  before : σ → σ → Bool

/-- A request on its way: when it comes back, and with what. -/
structure Transit (α : Type) where
  due : Option Nat
  outcome : Option (Outcome α)

/-- A request of a gathering. It is in transit once it holds its permit. -/
structure Errand (σ α : Type) where
  ticket : Nat
  gather : Nat
  position : Nat
  /-- The backend, by its number. -/
  backend : Nat
  subject : σ
  transit : Option (Transit α) := none

namespace Errand

variable {σ α : Type}

/-- Send an errand. -/
def send (net : Network σ α) (now : Nat) (e : Errand σ α) : Errand σ α :=
  let d := net.deliver e.subject
  { e with transit := some ⟨d.delay.map (now + ·), d.outcome⟩ }

/-- The time at which an errand comes back, if it is in transit and ever does. -/
def due? (e : Errand σ α) : Option Nat := e.transit.bind Transit.due

/-- Whether the first of two errands comes back before the second. -/
def earlier (net : Network σ α) (a b : Errand σ α) : Bool :=
  match a.due?, b.due? with
  | some s, some t => s < t || (s = t && net.before a.subject b.subject)
  | some _, none => true
  | none, _ => false

end Errand

/-- A target of a gathering: a backend by number and name, and what it is asked. -/
structure Target (σ : Type) where
  backend : Nat
  name : String
  subject : σ

/-- A gathering that has ended. -/
structure Finished (α : Type) where
  gather : Nat
  time : Nat
  replies : List (Reply α)

/-- The permits of all backends, the errands, and the gatherings under their numbers. -/
structure Floor (σ α : Type) where
  permits : List Permits
  errands : List (Errand σ α) := []
  gathers : List (Nat × Gather α) := []
  /-- Gatherings that have ended and whose results have not been taken yet. -/
  finished : List (Finished α) := []
  /-- What has been sent. -/
  sent : List σ := []
  nextTicket : Nat := 0

/-- The next thing that happens: a timer runs out, or an errand comes back. -/
inductive FloorEvent (σ α : Type) where
  | timer (time : Nat)
  | back (time : Nat) (errand : Errand σ α) (outcome : Option (Outcome α))

/-- The time of an event. -/
def FloorEvent.time {σ α : Type} : FloorEvent σ α → Nat
  | .timer t => t
  | .back t _ _ => t

namespace Floor

variable {σ α : Type}

/-- A floor for backends with the given limits. -/
def ofLimits (limits : List Nat) : Floor σ α := { permits := limits.map fun l => { limit := l } }

/-- Whether an errand holds a permit. -/
def holds (f : Floor σ α) (e : Errand σ α) : Bool :=
  match f.permits[e.backend]? with
  | some p => p.holds e.ticket
  | none => false

/-- The permits in use, backend by backend. -/
def inFlight (f : Floor σ α) : List Nat := f.permits.map Permits.inFlight

/-! ## Errands -/

/-- An errand gives up its ticket. -/
def giveUp (permits : List Permits) (e : Errand σ α) : List Permits :=
  permits.modify e.backend fun p => p.drop e.ticket

/-- The errands under a condition leave. -/
def dismiss (f : Floor σ α) (leaves : Errand σ α → Bool) : Floor σ α :=
  { f with
    permits := (f.errands.filter leaves).foldl giveUp f.permits
    errands := f.errands.filter fun e => !leaves e }

/-- Whether an errand is to be sent: it holds a permit and is not in transit yet. -/
def isReady (f : Floor σ α) (e : Errand σ α) : Bool := e.transit.isNone && f.holds e

/-- Send the errands that are ready. -/
def send (net : Network σ α) (now : Nat) (f : Floor σ α) : Floor σ α :=
  { f with
    errands := f.errands.map fun e => if f.isReady e then e.send net now else e
    sent := f.sent ++ (f.errands.filter f.isReady).map Errand.subject }

/-! ## Gatherings -/

/-- The gatherings that have ended by a time. -/
def ended (f : Floor σ α) (now : Nat) : List (Finished α) :=
  f.gathers.filterMap fun g => (g.2.result? now).map fun replies => ⟨g.1, now, replies⟩

/-- Gatherings that have ended leave with their errands; then ready errands are sent. -/
def settle (net : Network σ α) (now : Nat) (f : Floor σ α) : Floor σ α :=
  let ended := f.ended now
  send net now <|
    dismiss { f with
      gathers := f.gathers.filter fun g => (g.2.result? now).isNone
      finished := f.finished ++ ended } fun e => ended.any fun d => d.gather = e.gather

/-- Put an errand on the floor: it asks for a permit. -/
def add (gather position : Nat) (f : Floor σ α) (t : Target σ) : Floor σ α :=
  { f with
    permits := f.permits.modify t.backend fun p => p.acquire f.nextTicket
    errands := f.errands ++ [⟨f.nextTicket, gather, position, t.backend, t.subject, none⟩]
    nextTicket := f.nextTicket + 1 }

/-- Put errands on the floor, target by target from a position on. -/
def addAll (gather : Nat) : (position : Nat) → Floor σ α → List (Target σ) → Floor σ α
  | _, f, [] => f
  | position, f, t :: rest => addAll gather (position + 1) (f.add gather position t) rest

/-- Begin a gathering. -/
def begin (net : Network σ α) (now gather after deadline : Nat) (targets : List (Target σ))
    (f : Floor σ α) : Floor σ α :=
  let g : Gather α := Gather.begin (targets.map Target.name) now after deadline
  settle net now (addAll gather 0 { f with gathers := f.gathers ++ [(gather, g)] } targets)

/-- An errand comes back to its gathering. -/
def arrive (net : Network σ α) (now : Nat) (e : Errand σ α) (outcome : Option (Outcome α))
    (f : Floor σ α) : Floor σ α :=
  settle net now <|
    dismiss { f with
      gathers := f.gathers.map fun g =>
        (g.1, if g.1 = e.gather then g.2.arrive now e.position outcome else g.2) }
      fun d => d.ticket = e.ticket

/-! ## Time -/

/-- The errand that comes back first. -/
def firstBack? (net : Network σ α) (f : Floor σ α) : Option (Errand σ α) :=
  f.errands.foldl (fun best e =>
    match best with
    | none => if e.due?.isSome then some e else none
    | some b => if e.earlier net b then some e else some b) none

/-- The first timer that runs out. -/
def firstTimer? (f : Floor σ α) : Option Nat := (f.gathers.map fun g => g.2.timer).min?

/-- The return of the errand that comes back first. -/
def nextBack? (net : Network σ α) (f : Floor σ α) : Option (FloorEvent σ α) := do
  let e ← f.firstBack? net
  let transit ← e.transit
  return .back (← transit.due) e transit.outcome

/-- The next event. At one time timers come before errands. -/
def next? (net : Network σ α) (f : Floor σ α) : Option (FloorEvent σ α) :=
  match f.firstTimer?, f.nextBack? net with
  | none, b => b
  | some t, none => some (.timer t)
  | some t, some b => if t ≤ b.time then some (.timer t) else some b

/-- Let an event happen. -/
def happen (net : Network σ α) (f : Floor σ α) : FloorEvent σ α → Floor σ α
  | .timer t => settle net t f
  | .back t e outcome => f.arrive net t e outcome

/-! ## Progress

Every event leaves less to do: a gathering that ends becomes a result to be taken, and an errand
that comes back leaves the floor. -/

/-- What is still to be done on the floor: gatherings are to be ended and their results taken, and
errands are to come back. -/
def work (f : Floor σ α) : Nat := 2 * f.gathers.length + f.errands.length + f.finished.length

theorem work_send (net : Network σ α) (now : Nat) (f : Floor σ α) :
    (send net now f).work = f.work := by
  simp [send, work]

theorem work_dismiss_le (f : Floor σ α) (leaves : Errand σ α → Bool) :
    (f.dismiss leaves).work ≤ f.work := by
  have := List.length_filter_le (fun e => !leaves e) f.errands
  simp only [dismiss, work]
  omega

theorem work_dismiss_lt (f : Floor σ α) (leaves : Errand σ α → Bool) {e : Errand σ α}
    (he : e ∈ f.errands) (hl : leaves e = true) : (f.dismiss leaves).work < f.work := by
  have : (f.errands.filter fun e => !leaves e).length < f.errands.length :=
    List.length_filter_lt_length_iff_exists.2 ⟨e, he, by simp [hl]⟩
  simp only [dismiss, work]
  omega

theorem length_ended (f : Floor σ α) (now : Nat) :
    (f.ended now).length +
      (f.gathers.filter fun g => (g.2.result? now).isNone).length = f.gathers.length := by
  unfold ended
  induction f.gathers with
  | nil => rfl
  | cons g rest ih =>
      cases h : g.2.result? now <;> simp [h] at ih ⊢ <;> omega

theorem work_settle (net : Network σ α) (now : Nat) (f : Floor σ α) :
    (settle net now f).work + (f.ended now).length ≤ f.work := by
  have h := f.length_ended now
  unfold settle
  rw [work_send]
  refine Nat.le_trans (Nat.add_le_add_right (work_dismiss_le _ _) _) ?_
  simp only [work, List.length_append]
  omega

theorem work_settle_le (net : Network σ α) (now : Nat) (f : Floor σ α) :
    (settle net now f).work ≤ f.work := by
  have := work_settle net now f
  omega

theorem ended_length_pos {f : Floor σ α} {now : Nat} (h : f.firstTimer? = some now) :
    0 < (f.ended now).length := by
  obtain ⟨g, hg, ht⟩ := List.mem_map.1 (List.min?_mem h)
  have hr : (g.2.result? now).isSome := by
    unfold Gather.result?
    split
    · rfl
    · simp [ht]
  obtain ⟨replies, hr⟩ := Option.isSome_iff_exists.1 hr
  exact List.length_pos_of_mem
    (List.mem_filterMap.2 ⟨g, hg, (congrArg (Option.map _) hr).trans rfl⟩)

theorem firstBack?_mem {net : Network σ α} {f : Floor σ α} {e : Errand σ α}
    (h : f.firstBack? net = some e) : e ∈ f.errands := by
  unfold firstBack? at h
  suffices ∀ (es : List (Errand σ α)) (best : Option (Errand σ α)),
      es.foldl (fun best e =>
        match best with
        | none => if e.due?.isSome then some e else none
        | some b => if e.earlier net b then some e else some b) best = some e →
      e ∈ es ∨ best = some e by
    rcases this _ _ h with h | h
    · exact h
    · exact absurd h (by simp)
  intro es
  induction es with
  | nil => intro best h; exact .inr h
  | cons d rest ih =>
      intro best h
      rcases ih _ h with h | h
      · exact .inl (List.mem_cons_of_mem _ h)
      · cases best with
        | none =>
            simp only at h
            split at h
            · simp_all
            · simp at h
        | some b =>
            simp only at h
            split at h <;> simp_all

theorem work_arrive_lt (net : Network σ α) (now : Nat) {e : Errand σ α}
    (outcome : Option (Outcome α)) {f : Floor σ α} (he : e ∈ f.errands) :
    (f.arrive net now e outcome).work < f.work := by
  unfold arrive
  refine Nat.lt_of_le_of_lt (work_settle_le _ _ _) ?_
  refine Nat.lt_of_lt_of_le (work_dismiss_lt _ _ (e := e) he (by simp)) ?_
  simp [work]

theorem work_nextBack_lt {net : Network σ α} {f : Floor σ α} {e : FloorEvent σ α}
    (h : f.nextBack? net = some e) : (f.happen net e).work < f.work := by
  simp only [nextBack?, Option.bind_eq_bind, Option.bind_eq_some_iff, Option.pure_def,
    Option.some.injEq] at h
  obtain ⟨d, hd, transit, _, due, _, rfl⟩ := h
  exact work_arrive_lt net due transit.outcome (firstBack?_mem hd)

theorem work_timer_lt (net : Network σ α) {f : Floor σ α} {t : Nat} (h : f.firstTimer? = some t) :
    (f.happen net (.timer t)).work < f.work := by
  have := work_settle net t f
  have := ended_length_pos h
  simp only [happen]
  omega

theorem work_happen_lt {net : Network σ α} {f : Floor σ α} {e : FloorEvent σ α}
    (h : f.next? net = some e) : (f.happen net e).work < f.work := by
  unfold next? at h
  split at h
  · exact work_nextBack_lt h
  · obtain rfl := Option.some.inj h
    exact work_timer_lt net ‹_›
  · split at h
    · obtain rfl := Option.some.inj h
      exact work_timer_lt net ‹_›
    · rename_i hb _
      exact work_nextBack_lt (hb.trans h)

end Floor

end MetricFanout
