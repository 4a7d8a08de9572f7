import PipelinedHttp.Peer

/-!
# The connection registry

Who is connected, what has been counted, and who has been told to stop.  Each connection holds a
guard; dropping the guard takes the connection off the live set.  A shutdown stops every guard and
each that comes later.  Whoever waits for the live set to be empty is woken whenever it has become
so, and looks again.
-/

namespace PipelinedHttp

/-- What has been counted.  A server keeps these numbers and the next id in words of 64 bits.  Here they
have no bound, but none of them outgrows the number of actions, so no word wraps in a run of fewer than
`UInt64.size` of them. -/
structure Stats where
  total : Nat
  current : Nat
  served : Nat
  readErrors : Nat
  respondErrors : Nat
  deriving DecidableEq

def Stats.zero : Stats := ⟨0, 0, 0, 0, 0⟩

inductive Note where
  | served
  | readError
  | respondError
  deriving DecidableEq

def Stats.note (s : Stats) : Note → Stats
  | .served => { s with served := s.served + 1 }
  | .readError => { s with readErrors := s.readErrors + 1 }
  | .respondError => { s with respondErrors := s.respondErrors + 1 }

structure Live where
  id : Nat
  peer : Option Peer
  deriving DecidableEq

structure Guard where
  id : Nat
  stopped : Bool
  dropped : Bool

/-- someone who waits for the live set to be empty -/
structure Waiter where
  woken : Bool
  done : Bool

structure Registry where
  nextId : Nat
  live : List Live
  stats : Stats
  shutdown : Bool
  /-- all guards ever handed out, in order -/
  guards : List Guard
  waiters : List Waiter

namespace Registry

def empty : Registry := ⟨1, [], .zero, false, [], []⟩

def isIdle (r : Registry) : Bool := r.live.isEmpty

def byId (a b : Live) : Bool := a.id ≤ b.id

/-- the live set in the order of the ids -/
def connections (r : Registry) : List Live := r.live.mergeSort byId

/-! ## guards -/

/-- a new connection; its guard is the last one -/
def register (r : Registry) (peer : Option Peer) : Registry :=
  { r with
    nextId := r.nextId + 1
    live := r.live ++ [⟨r.nextId, peer⟩]
    stats := { r.stats with total := r.stats.total + 1, current := r.stats.current + 1 }
    guards := r.guards ++ [⟨r.nextId, r.shutdown, false⟩] }

/-- the guard with the given number, unless it has been dropped -/
def guard? (r : Registry) (index : Nat) : Option Guard :=
  (r.guards[index]?).filter fun g => !g.dropped

/-- those who wait are woken if the live set is empty -/
def wakeIfIdle (r : Registry) : Registry :=
  if r.isIdle then { r with waiters := r.waiters.map fun w => { w with woken := true } } else r

def deregister (r : Registry) (id : Nat) : Registry :=
  let r :=
    if r.live.any (·.id == id) then
      { r with
        live := r.live.filter (·.id != id)
        stats := { r.stats with current := r.stats.current - 1 } }
    else r
  r.wakeIfIdle

def drop (r : Registry) (index : Nat) : Registry :=
  match r.guard? index with
  | none => r
  | some g =>
    { r with guards := r.guards.modify index fun g => { g with dropped := true } }.deregister g.id

/-! ## stopping -/

def stop (r : Registry) (index : Nat) : Registry :=
  match r.guard? index with
  | none => r
  | some _ => { r with guards := r.guards.modify index fun g => { g with stopped := true } }

/-- nothing for a guard that has been dropped -/
def stopped? (r : Registry) (index : Nat) : Option Bool := (r.guard? index).map Guard.stopped

def shutDown (r : Registry) : Registry :=
  { r with shutdown := true, guards := r.guards.map fun g => { g with stopped := true } }

/-! ## counting -/

def note (r : Registry) (n : Note) : Registry := { r with stats := r.stats.note n }

/-! ## waiting -/

/-- a new waiter looks at the live set at once -/
def wait (r : Registry) : Registry := { r with waiters := r.waiters ++ [⟨false, r.isIdle⟩] }

def poll (r : Registry) (index : Nat) : Registry :=
  { r with
    waiters := r.waiters.modify index fun w =>
      if w.woken && !w.done then ⟨false, r.isIdle⟩ else w }

def isDone (r : Registry) (index : Nat) : Bool := (r.waiters[index]?).any Waiter.done

/-! ## histories -/

/-- what can be done with a registry; guards and waiters are given by their numbers -/
inductive Action where
  | register (peer : Option Peer)
  | drop (guard : Nat)
  | stop (guard : Nat)
  | shutDown
  | note (n : Note)
  | wakeIfIdle
  | wait
  | poll (waiter : Nat)

def act (r : Registry) : Action → Registry
  | .register peer => r.register peer
  | .drop guard => r.drop guard
  | .stop guard => r.stop guard
  | .shutDown => r.shutDown
  | .note n => r.note n
  | .wakeIfIdle => r.wakeIfIdle
  | .wait => r.wait
  | .poll waiter => r.poll waiter

def run (r : Registry) (actions : List Action) : Registry := actions.foldl act r

end Registry

end PipelinedHttp
