import PipelinedHttp.Connection

/-!
# Sinks

How the writing end of a transport behaves: how many octets it accepts at a time and in total, what
it does when it has accepted them, and whether flushing and shutting down succeed.
-/

namespace PipelinedHttp

inductive Readiness where
  | ok
  | fail
  /-- nothing happens until the sink is replaced -/
  | stall
  deriving DecidableEq

/-- what a write does when the total is used up -/
inductive Exhausted where
  | fail
  /-- no octet is accepted, which is a failure too -/
  | zero
  | stall
  deriving DecidableEq

structure Sink where
  /-- the most octets of one write -/
  max : Option Nat
  /-- the octets that are still accepted -/
  budget : Option Nat
  exhausted : Exhausted
  flush : Readiness
  shutDown : Readiness

namespace Sink

def unlimited : Sink := ⟨none, none, .fail, .ok, .ok⟩

/-- What a write of that many octets comes to, and the sink after it; nothing if it has to wait.
The total does not matter to a sink that accepts nothing at a time. -/
def write (s : Sink) (length : Nat) : Option (Event × Sink) :=
  let n := min length (s.max.getD length)
  if s.budget = some 0 ∧ n ≠ 0 then
    match s.exhausted with
    | .stall => none
    | _ => some (.refuse, s)
  else
    let n := min n (s.budget.getD length)
    some (.accept n, { s with budget := s.budget.map (· - n) })

/-- the event of a call that can succeed, fail or stall -/
def call : Readiness → (Bool → Event) → Option Event
  | .ok, event => some (event true)
  | .fail, event => some (event false)
  | .stall, _ => none

/-- the next event of a writing loop, and the sink after it -/
def next (s : Sink) : Writer → Option (Event × Sink)
  | .idle => some (.take, s)
  | .sending left => s.write left.length
  | .flushing => (call s.flush .flush).map (·, s)
  | .closing => (call s.shutDown .shutDown).map (·, s)
  | .closed => none

end Sink

end PipelinedHttp
