import MetricFanout.Permits.Basic
import MetricFanout.Order.SortedList
/-!
# Permits asked for by name

A desk asks for permits on behalf of numbered clients. A client's request joins the line when it is
first looked at, and its permit is noticed when it is looked at again; all waiting clients are
looked at once, in the order of their numbers, after every step.

A client that is granted a second permit gives the first one back at that moment. The permit may go
to a client with a smaller number that has been looked at already, and that client then notices it
only after the next step.
-/

namespace MetricFanout

/-- A desk: its permits, the clients that wait, with their tickets once they stand in line, and the
clients that hold a permit. -/
structure Desk where
  permits : Permits
  nextTicket : Nat := 0
  waiting : List (Int × Option Nat) := []
  held : List (Int × Nat) := []

namespace Desk

/-- A step at the desk. -/
inductive Step where
  /-- Ask for a permit; a waiting request of the client is replaced. -/
  | acquire (client : Int)
  /-- Give back the permit of a client. -/
  | release (client : Int)
  /-- Give up the waiting request of a client. -/
  | cancel (client : Int)

/-- Give up a waiting request. -/
def dropWaiting (d : Desk) (client : Int) : Desk :=
  let permits :=
    match SortedList.get? client d.waiting with
    | some (some ticket) => d.permits.drop ticket
    | _ => d.permits
  { d with permits := permits, waiting := SortedList.erase client d.waiting }

/-- Give back a permit. -/
def dropHeld (d : Desk) (client : Int) : Desk :=
  let permits :=
    match SortedList.get? client d.held with
    | some ticket => d.permits.drop ticket
    | none => d.permits
  { d with permits := permits, held := SortedList.erase client d.held }

/-- What a step does before the waiting clients are looked at. -/
def apply (d : Desk) : Step → Desk
  | .acquire client =>
      let d := d.dropWaiting client
      { d with waiting := SortedList.insert client none d.waiting }
  | .release client => d.dropHeld client
  | .cancel client => d.dropWaiting client

/-- A client notices that its ticket holds a permit. -/
def grant (d : Desk) (client : Int) (ticket : Nat) : Desk :=
  let d := d.dropHeld client
  { d with waiting := SortedList.erase client d.waiting
           held := SortedList.insert client ticket d.held }

/-- Look at one waiting client; the flag says whether it is granted its permit. -/
def look (d : Desk) (client : Int) (ticket? : Option Nat) : Desk × Bool :=
  let (d, ticket) : Desk × Nat :=
    match ticket? with
    | some t => (d, t)
    | none =>
        let t := d.nextTicket
        ({ d with permits := d.permits.acquire t, nextTicket := t + 1
                  waiting := SortedList.insert client (some t) d.waiting }, t)
  if d.permits.holds ticket then (d.grant client ticket, true) else (d, false)

/-- Look at clients one after the other, and list those that are granted a permit. -/
def lookAll : Desk → List (Int × Option Nat) → Desk × List Int
  | d, [] => (d, [])
  | d, (client, ticket?) :: rest =>
      let (d, granted) := d.look client ticket?
      let (d, more) := d.lookAll rest
      (d, if granted then client :: more else more)

/-- A step, and the clients that are granted a permit in it. -/
def step (d : Desk) (s : Step) : Desk × List Int :=
  let d := d.apply s
  d.lookAll d.waiting

end Desk

end MetricFanout
