import MetricFanout.Order.SortedList
/-!
# A broadcast signal

A signal is sent to all who listen at that moment. Subscribers may read it whenever they like; a
waiter is done as soon as there is anything to read for it.

The channel keeps only its latest message. A listener remembers how many messages had been sent when
it looked last, and one that falls behind by more than the channel keeps learns just that it lagged;
for a waiter that is as good as a message.
-/

namespace MetricFanout

/-- What a listener finds when it looks. -/
inductive Received where
  | nothing
  | lagged
  | message
  deriving DecidableEq, Repr

/-- A broadcast channel, by the number of messages sent on it. -/
structure Channel where
  sent : Nat := 0

/-- A listener, by the number of the message it reads next. -/
structure Listener where
  next : Nat

namespace Channel

/-- The number of messages that are kept. -/
def capacity : Nat := 1

/-- A listener that hears everything from now on. -/
def subscribe (c : Channel) : Listener := ⟨c.sent⟩

/-- Read the next message. A listener that lags goes on with the oldest message kept. -/
def receive (c : Channel) (l : Listener) : Received × Listener :=
  if c.sent ≤ l.next then (.nothing, l)
  else if l.next + capacity < c.sent then (.lagged, ⟨c.sent - capacity⟩)
  else (.message, ⟨l.next + 1⟩)

end Channel

/-- A channel with its subscribers and waiters, each under a number. -/
structure Signal where
  channel : Channel := {}
  subscribers : List (Int × Listener) := []
  waiters : List (Int × Listener) := []

namespace Signal

/-- A step of those who use a signal. -/
inductive Step where
  | subscribe (id : Int)
  | wait (id : Int)
  | drop (id : Int)
  | trigger

/-- The number of listeners. -/
def listeners (s : Signal) : Nat := s.subscribers.length + s.waiters.length

/-- A step, with the number of listeners that a trigger reached. A message that nobody listens to is
not kept. -/
def apply (s : Signal) : Step → Signal × Option Nat
  | .subscribe id =>
      ({ s with subscribers := SortedList.insert id s.channel.subscribe s.subscribers }, none)
  | .wait id => ({ s with waiters := SortedList.insert id s.channel.subscribe s.waiters }, none)
  | .drop id =>
      ({ s with subscribers := SortedList.erase id s.subscribers
                waiters := SortedList.erase id s.waiters }, none)
  | .trigger =>
      if s.listeners = 0 then (s, some 0)
      else ({ s with channel := ⟨s.channel.sent + 1⟩ }, some s.listeners)

/-- Whether a waiter finds something to read. -/
def isDone (s : Signal) (w : Int × Listener) : Bool := (s.channel.receive w.2).1 ≠ .nothing

/-- Look at all waiters; those that are done leave and are listed. -/
def poll (s : Signal) : Signal × List Int :=
  ({ s with waiters := s.waiters.filter fun w => !s.isDone w },
    (s.waiters.filter s.isDone).map Prod.fst)

/-- A step, then a look at all waiters: the listeners reached and the waiters that are done. -/
def step (s : Signal) (t : Step) : Signal × Option Nat × List Int :=
  let (s, reached) := s.apply t
  let (s, done) := s.poll
  (s, reached, done)

end Signal

end MetricFanout
