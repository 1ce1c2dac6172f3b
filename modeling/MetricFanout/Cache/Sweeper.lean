import MetricFanout.Cache.Ttl
/-!
# Sweeping a cache

A sweeper purges a cache at regular times after its start. When the clock has moved over several of
these times at once, the overdue sweeps are made up for at the time that it has reached. A stop
signal ends all sweepers that are running.
-/

namespace MetricFanout

/-- A running sweeper: its interval and the time of its next sweep. -/
structure Sweeper where
  interval : Nat
  due : Nat
  deriving DecidableEq, Repr

namespace Sweeper

/-- A sweeper that starts now. Without an interval there is none. -/
def start? (now interval : Nat) : Option Sweeper :=
  if interval = 0 then none else some ⟨interval, now + interval⟩

/-- The sweeps that are due at a time. -/
def overdue (s : Sweeper) (now : Nat) : Nat :=
  if now < s.due then 0 else (now - s.due) / s.interval + 1

/-- The sweeper behind its due sweeps. -/
def caughtUp (s : Sweeper) (now : Nat) : Sweeper :=
  { s with due := s.due + s.overdue now * s.interval }

/-- Do the due work of a sweeper. Several overdue sweeps happen at one time, so all but the first of
them find nothing. -/
def run {α : Type} (s : Sweeper) (now : Nat) (c : TtlCache α) : TtlCache α × Sweeper :=
  (if s.overdue now = 0 then c else (c.purge now).2, s.caughtUp now)

end Sweeper

/-- A cache with a clock and the sweepers that run on it. `swept` says whether there ever was one.
-/
structure SweptCache (α : Type) where
  cache : TtlCache α
  now : Nat := 0
  sweepers : List Sweeper := []
  swept : Bool := false

namespace SweptCache

variable {α : Type}

/-- A step on a cache. -/
inductive Step (α : Type) where
  | get (key : String)
  | put (key : String) (value : α)
  | purge
  | advance (ms : Nat)
  | sweep (interval : Nat)
  | stop

/-- What a step answers. -/
inductive Result (α : Type) where
  | nothing
  | value (v : α)
  | count (n : Nat)

/-- Let the sweepers do the work that is due, one after the other. -/
def settle (s : SweptCache α) : SweptCache α :=
  s.sweepers.foldl (fun s w => let (c, w) := w.run s.now s.cache
                               { s with cache := c, sweepers := s.sweepers ++ [w] })
    { s with sweepers := [] }

/-- A step, before due work is done. -/
def apply [Weigh α] (s : SweptCache α) : Step α → Result α × SweptCache α
  | .get key =>
      let (v, c) := s.cache.get s.now key
      (match v with | some v => .value v | none => .nothing, { s with cache := c })
  | .put key value => (.nothing, { s with cache := s.cache.put s.now key value })
  | .purge => let (n, c) := s.cache.purge s.now; (.count n, { s with cache := c })
  | .advance ms => (.nothing, { s with now := s.now + ms })
  | .sweep interval =>
      (.nothing, { s with sweepers := s.sweepers ++ (Sweeper.start? s.now interval).toList
                          swept := true })
  | .stop => (.count s.sweepers.length, { s with sweepers := [] })

/-- A step, with the due work of the sweepers behind it. -/
def step [Weigh α] (s : SweptCache α) (t : Step α) : Result α × SweptCache α :=
  let (r, s) := s.apply t
  (r, s.settle)

/-- Whether a sweeper runs, if there ever was one. -/
def sweeping (s : SweptCache α) : Option Bool :=
  if s.swept then some (!s.sweepers.isEmpty) else none

end SweptCache

end MetricFanout
