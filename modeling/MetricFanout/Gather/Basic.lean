import MetricFanout.Reply.Basic
/-!
# Gathering replies

A request goes to several targets at once, and their replies are gathered as they arrive. The first
success opens a grace window: whoever has not replied when it ends, or when the deadline comes, is
given up. A gathering ends when every request has ended, or when its timer runs out.

A request may end without an outcome. Its target is then silent like one that still works on the
request, and which failure it is given depends on how the whole gathering ends.
-/

namespace MetricFanout

/-- A gathering in progress. Targets are told apart by their positions; times are in milliseconds.
-/
structure Gather (α : Type) where
  targets : List String
  start : Nat
  /-- The length of the grace window. -/
  after : Nat
  deadline : Nat
  /-- When the gathering gives up. -/
  timer : Nat
  /-- Whether there was a success. -/
  succeeded : Bool := false
  /-- The targets whose requests have not ended. -/
  waiting : List Nat
  /-- The targets whose requests have ended without an outcome. -/
  lost : List Nat := []
  /-- The replies in order of arrival. -/
  replies : List (Reply α) := []

namespace Gather

variable {α : Type}

/-- A gathering that starts now. -/
def begin (targets : List String) (now after deadline : Nat) : Gather α where
  targets := targets
  start := now
  after := after
  deadline := deadline
  timer := deadline
  waiting := List.range targets.length

/-- The reply of the target at a position. -/
def replyOf (g : Gather α) (now position : Nat) (outcome : Outcome α) : Reply α :=
  ⟨g.targets[position]?.getD "", outcome, now - g.start⟩

/-- The timer after an outcome: the first success opens the grace window, which only shortens. -/
def timerAfter (g : Gather α) (now : Nat) (outcome : Outcome α) : Nat :=
  if outcome.isOk && !g.succeeded && now + g.after < g.deadline then now + g.after else g.timer

/-- The request to a target ends, with an outcome or without one. -/
def arrive (g : Gather α) (now position : Nat) : Option (Outcome α) → Gather α
  | none => { g with waiting := g.waiting.erase position, lost := g.lost ++ [position] }
  | some outcome =>
      { g with
        waiting := g.waiting.erase position
        succeeded := g.succeeded || outcome.isOk
        timer := g.timerAfter now outcome
        replies := g.replies ++ [g.replyOf now position outcome] }

/-- The targets without a reply, in their order. -/
def silent (g : Gather α) : List Nat :=
  (List.range g.targets.length).filter fun i => g.waiting.contains i || g.lost.contains i

/-- The replies, and behind them one failure for every silent target. -/
def close (g : Gather α) (now : Nat) (why : Failure) : List (Reply α) :=
  g.replies ++ g.silent.map fun i => g.replyOf now i (.error why)

/-- The result, if the gathering has ended: silent targets were aborted if all requests have ended,
and timed out if the timer has run out. -/
def result? (g : Gather α) (now : Nat) : Option (List (Reply α)) :=
  if g.waiting.isEmpty then some (g.close now .aborted)
  else if g.timer ≤ now then some (g.close now .timeout)
  else none

end Gather

end MetricFanout
