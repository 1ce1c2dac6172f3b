/-!
# Permits

A backend serves a limited number of requests at a time. A request holds a permit while it runs;
requests that find no free permit wait in line and are served first come, first served. A limit of
zero means that there is no limit, and then nothing is counted.

Requests are told apart by tickets. To ask for a permit is to join the end of the line and then to
serve the line, and to give up a ticket, held or waiting, is to drop it and then to serve the line;
so no permit stays free beside a waiting ticket.
-/

namespace MetricFanout

/-- The permits of one backend: who holds one and who waits, each in order. -/
structure Permits where
  limit : Nat
  held : List Nat := []
  line : List Nat := []
  deriving DecidableEq, Repr, Inhabited

namespace Permits

/-- Permits that can be handed out now; without a limit there is one for everybody in line. -/
def free (p : Permits) : Nat := if p.limit = 0 then p.line.length else p.limit - p.held.length

/-- Hand out free permits from the head of the line. -/
def serve (p : Permits) : Permits :=
  { p with held := p.held ++ p.line.take p.free, line := p.line.drop p.free }

/-- Ask for a permit. -/
def acquire (p : Permits) (ticket : Nat) : Permits := { p with line := p.line ++ [ticket] }.serve

/-- Give a ticket up, whether it holds a permit or waits for one. -/
def drop (p : Permits) (ticket : Nat) : Permits :=
  { p with held := p.held.erase ticket, line := p.line.erase ticket }.serve

/-- Whether a ticket holds a permit. -/
def holds (p : Permits) (ticket : Nat) : Bool := p.held.contains ticket

/-- The permits in use; zero without a limit. -/
def inFlight (p : Permits) : Nat := if p.limit = 0 then 0 else p.held.length

end Permits

end MetricFanout
