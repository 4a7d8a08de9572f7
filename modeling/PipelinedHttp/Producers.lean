import PipelinedHttp.ReplyQueue

/-!
# Producers

Those who put entries into a reply queue, numbered in the order in which they begin.  A pushing
producer puts its entry as soon as it has a slot.  A reserving producer keeps its slot until it is
told to fill it or to give it back; told so while it waits, it obeys when the slot comes, and the
last word counts.
-/

namespace PipelinedHttp

/-- what a producer does with its slot -/
inductive Order where
  | fill (s : Slot)
  | giveBack

inductive Progress where
  /-- in line, perhaps with an order already -/
  | waiting (order : Option Order)
  | reserved
  | pushed (s : Slot)
  | dropped
  | refused
  | cancelled

structure Producer where
  reserves : Bool
  progress : Progress

structure Producers where
  queue : ReplyQueue Nat
  members : List Producer
  /-- the sending side still exists -/
  sending : Bool

namespace Producers

def ofCapacity (capacity : Nat) : Producers := ⟨.ofCapacity capacity, [], true⟩

def progress? (p : Producers) (index : Nat) : Option Progress :=
  (p.members[index]?).map Producer.progress

def setProgress (p : Producers) (index : Nat) (progress : Progress) : Producers :=
  { p with members := p.members.modify index fun m => { m with progress } }

/-- The holder of a slot carries out its order, or keeps the slot if it has none.  A slot that is
given back goes to the next in line, who then does the same. -/
def settle : Nat → Producers → Nat → Option Order → Producers
  | _, p, index, some (.fill s) =>
    { p with queue := p.queue.put s }.setProgress index (.pushed s)
  | _, p, index, none => p.setProgress index .reserved
  | fuel, p, index, some .giveBack =>
    let p := p.setProgress index .dropped
    match p.queue.giveBack with
    | (none, queue) => { p with queue }
    | (some ticket, queue) =>
      match fuel, p.progress? ticket with
      | fuel + 1, some (.waiting order) => settle fuel { p with queue } ticket order
      | _, _ => { p with queue }

/-- the producer with the given ticket, if any, has got a slot -/
def grant (p : Producers) : Option Nat → Producers
  | none => p
  | some ticket =>
    match p.progress? ticket with
    | some (.waiting order) => p.settle p.members.length ticket order
    | _ => p

/-! ## the sending side -/

/-- a new producer, with the order it has from the start; none without a sending side -/
def start (p : Producers) (reserves : Bool) (order : Option Order) : Producers :=
  let index := p.members.length
  let begun (progress : Progress) : List Producer := p.members ++ [⟨reserves, progress⟩]
  if !p.sending then p
  else match p.queue.request index with
    | (.closed, _) => { p with members := begun .refused }
    | (.waiting, queue) => { p with queue, members := begun (.waiting order) }
    | (.granted, queue) => { p with queue, members := begun (.waiting order) }.grant (some index)

def push (p : Producers) (s : Slot) : Producers := p.start false (some (.fill s))

def reserve (p : Producers) : Producers := p.start true none

/-- a reserving producer is told what to do with its slot -/
def order (p : Producers) (index : Nat) (o : Order) : Producers :=
  match p.members[index]? with
  | some ⟨true, .waiting _⟩ => p.setProgress index (.waiting (some o))
  | some ⟨true, .reserved⟩ => p.settle p.members.length index (some o)
  | _ => p

/-- a producer ends without having put anything; its slot or its place in line is free -/
def cancel (p : Producers) (index : Nat) : Producers :=
  match p.progress? index with
  | some (.waiting _) => { p with queue := p.queue.withdraw index }.setProgress index .cancelled
  | some .reserved =>
    let (ticket, queue) := p.queue.giveBack
    ({ p with queue }.setProgress index .cancelled).grant ticket
  | _ => p

/-- all producers that have not ended are cancelled, and no further one can begin -/
def closeSender (p : Producers) : Producers :=
  { queue := { p.queue with granted := 0, line := [] }
    members := p.members.map fun m =>
      match m.progress with
      | .waiting _ | .reserved => { m with progress := .cancelled }
      | _ => m
    sending := false }

/-! ## the receiving side -/

inductive Received where
  | entry (s : Slot)
  | empty
  | noReceiver

/-- without a sender an empty queue gives the last mark, again and again -/
def receive (p : Producers) : Received × Producers :=
  if !p.queue.receiving then (.noReceiver, p)
  else match p.queue.take? with
    | some (s, ticket, queue) => (.entry s, { p with queue }.grant ticket)
    | none => (if p.sending then .empty else .entry .last, p)

def closeReceiver (p : Producers) : Producers :=
  { p with
    queue := p.queue.close
    members := p.members.map fun m =>
      match m.progress with
      | .waiting _ => { m with progress := .refused }
      | _ => m }

/-! ## histories -/

/-- what can be done with the two sides of a queue; producers are given by their numbers -/
inductive Action where
  | push (s : Slot)
  | reserve
  | order (index : Nat) (o : Order)
  | cancel (index : Nat)
  | closeSender
  | receive
  | closeReceiver

def act (p : Producers) : Action → Producers
  | .push s => p.push s
  | .reserve => p.reserve
  | .order index o => p.order index o
  | .cancel index => p.cancel index
  | .closeSender => p.closeSender
  | .receive => p.receive.2
  | .closeReceiver => p.closeReceiver

def run (p : Producers) (actions : List Action) : Producers := actions.foldl act p

end Producers

end PipelinedHttp
