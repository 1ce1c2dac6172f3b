import MetricFanout.Backend.Address
import MetricFanout.Reply.Basic
/-!
# The pool of backends

The configured backends, in order and without repetitions. Calls go to all of them, or to a
selection by identity.
-/

namespace MetricFanout

/-- A backend: its base URL, its identity, and the number of requests that it serves at a time
(zero: any number). -/
structure Backend where
  base : Url
  identity : String
  limit : Nat
  deriving DecidableEq, Repr

/-- The backend of an address. -/
def Backend.ofAddress [Idna] (address : String) (limit : Nat) : Except CallError Backend :=
  match baseUrl address with
  | .ok base => .ok ⟨base, base.identity, limit⟩
  | .error e => .error (.invalidBackend address e.message)

/-- A pool. -/
structure Pool where
  backends : List Backend
  limit : Nat
  deriving DecidableEq, Repr

namespace Pool

/-- Add a backend unless its identity is there already. -/
def addDistinct (backends : List Backend) (b : Backend) : List Backend :=
  if backends.any (fun c => c.identity == b.identity) then backends else backends ++ [b]

/-- The pool of a list of addresses. The first address that is no backend is the error. -/
def ofAddresses [Idna] (addresses : List String) (limit : Nat) : Except CallError Pool :=
  (addresses.mapM (Backend.ofAddress · limit)).map fun backends =>
    ⟨backends.foldl addDistinct [], limit⟩

/-- A backend beside the pool, with the pool's limit. -/
def detached [Idna] (p : Pool) (address : String) : Except CallError Backend :=
  Backend.ofAddress address p.limit

/-- The number of backends. -/
def size (p : Pool) : Nat := p.backends.length

/-- Whether there is no backend. -/
def isEmpty (p : Pool) : Bool := p.backends.isEmpty

/-- The backends with one of the given identities, in the pool's order; all backends if there is
none. -/
def select (p : Pool) (identities : List String) : List Backend :=
  let chosen := p.backends.filter fun b => identities.contains b.identity
  if chosen.isEmpty then p.backends else chosen

end Pool

end MetricFanout
