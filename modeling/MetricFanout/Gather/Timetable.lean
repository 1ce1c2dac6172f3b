import MetricFanout.Gather.Floor
/-!
# Gatherings by timetable

Gatherings are launched at given times and run until nothing happens any more.

A launch comes before everything else that happens at its time. The run ends because every launch
leaves fewer launches, and every other event leaves less work on the floor.
-/

namespace MetricFanout

/-- A gathering to be launched; the deadline counts from its start. -/
structure Launch (σ : Type) where
  gather : Nat
  start : Nat
  after : Nat
  deadline : Nat
  targets : List (Target σ)

/-- A floor with the launches that are still to come, in order of time, and the permits that were in
use after each event, the latest first. -/
structure Timetable (σ α : Type) where
  floor : Floor σ α
  launches : List (Launch σ)
  history : List (Nat × List Nat) := []

namespace Timetable

variable {σ α : Type}

/-- Put a launch behind those that do not start later. -/
def insert (l : Launch σ) : List (Launch σ) → List (Launch σ)
  | [] => [l]
  | m :: rest => if l.start < m.start then l :: m :: rest else m :: insert l rest

/-- A timetable of launches in any order; launches at one time keep their order. -/
def ofLaunches (limits : List Nat) (launches : List (Launch σ)) : Timetable σ α :=
  ⟨Floor.ofLimits limits, launches.foldl (fun ls l => insert l ls) [], []⟩

/-- The timetable after something happened on the floor. -/
def note (t : Timetable σ α) (now : Nat) (f : Floor σ α) (launches : List (Launch σ)) :
    Timetable σ α :=
  ⟨f, launches, (now, f.inFlight) :: t.history⟩

/-- Launch a gathering. -/
def launch (net : Network σ α) (t : Timetable σ α) (l : Launch σ) (rest : List (Launch σ)) :
    Timetable σ α :=
  t.note l.start
    (t.floor.begin net l.start l.gather l.after (l.start + l.deadline) l.targets) rest

/-- Let the next event happen, if there is one. -/
def step? (net : Network σ α) (t : Timetable σ α) : Option (Timetable σ α) :=
  match t.launches, t.floor.next? net with
  | [], none => none
  | l :: rest, none => some (t.launch net l rest)
  | [], some e => some (t.note e.time (t.floor.happen net e) [])
  | l :: rest, some e =>
      if l.start ≤ e.time then some (t.launch net l rest)
      else some (t.note e.time (t.floor.happen net e) (l :: rest))

theorem step?_progress {net : Network σ α} {t u : Timetable σ α} (h : t.step? net = some u) :
    u.launches.length < t.launches.length ∨
      (u.launches.length = t.launches.length ∧ u.floor.work < t.floor.work) := by
  unfold step? at h
  split at h
  · simp at h
  · rename_i hl _
    obtain rfl := Option.some.inj h
    simp [launch, note, hl]
  · rename_i hl he
    obtain rfl := Option.some.inj h
    exact .inr ⟨by simp [note, hl], Floor.work_happen_lt he⟩
  · rename_i hl he
    split at h
    · obtain rfl := Option.some.inj h
      simp [launch, note, hl]
    · obtain rfl := Option.some.inj h
      exact .inr ⟨by simp [note, hl], Floor.work_happen_lt he⟩

/-- Run to the end. -/
def run (net : Network σ α) (t : Timetable σ α) : Timetable σ α :=
  match _h : t.step? net with
  | none => t
  | some u => run net u
termination_by (t.launches.length, t.floor.work)
decreasing_by
  rcases step?_progress _h with h | ⟨h, h'⟩
  · exact Prod.Lex.left _ _ h
  · rw [← h]; exact Prod.Lex.right _ h'

/-- The permits in use after all events of a time. -/
def inFlightAt (t : Timetable σ α) (time : Nat) : List Nat :=
  match t.history.find? (fun h => h.1 ≤ time) with
  | some h => h.2
  | none => t.floor.permits.map fun _ => 0

end Timetable

end MetricFanout
