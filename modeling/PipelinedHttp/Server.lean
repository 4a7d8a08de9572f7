import PipelinedHttp.Connection.Sink
import PipelinedHttp.Request
import PipelinedHttp.Settings

/-!
# Servers

Many connections with one handler and one registry.  After each command everything runs until
nothing can go on without another one.  The loops of a connection take turns: the one that can go
on runs until it has to wait, the reading loop first.

Handlers may hold their replies back.  Those that do wait in line at a gate; a release lets the
first ones go, and what is released beyond those that wait is kept for later ones.
-/

namespace PipelinedHttp

structure Handling (κ : Type) where
  /-- who it is, for the log; nothing to leave no entry -/
  who : Option κ
  request : Request
  /-- the reply is held back at the gate -/
  waits : Bool
  reply : Reply

abbrev Service (κ : Type) := Bytes → Request → Handling κ

structure Call (κ : Type) where
  who : κ
  path : Bytes
  request : Request

/-- the reply of a connection's handler, while it is at work -/
inductive Work where
  | none
  | held (r : Reply)
  | ready (r : Reply)

structure Link where
  connection : Connection
  sink : Sink
  guard : Nat
  work : Work
  aborted : Bool

/-- nothing more will happen on the connection -/
def Link.over (l : Link) : Bool := l.aborted || l.connection.finished

structure Gate where
  spare : Nat
  /-- connections whose handler waits, in order -/
  line : List Nat

structure Server (κ : Type) where
  settings : Settings
  date : Bytes
  service : Service κ
  registry : Registry
  links : List Link
  gate : Gate
  /-- the log, latest call first -/
  calls : List (Call κ)
  /-- the number of the waiter of the latest stop -/
  stopping : Option Nat

namespace Server
variable {κ : Type}

def ofSettings (settings : Settings) (date : Bytes) (service : Service κ) : Server κ :=
  { settings, date, service
    registry := .empty
    links := []
    gate := ⟨0, []⟩
    calls := []
    stopping := none }

def modifyLink (s : Server κ) (i : Nat) (f : Link → Link) : Server κ :=
  { s with links := s.links.modify i f }

/-! ## single steps -/

/-- what a step has counted goes to the registry; a failed write also stops the guard -/
def record (s : Server κ) (guard : Nat) : Option Note → Server κ
  | none => s
  | some .respondError =>
    { s with registry := (s.registry.note .respondError).stop guard }
  | some n => { s with registry := s.registry.note n }

/-- one event of a connection; nothing if it is not possible -/
def step? (s : Server κ) (i : Nat) (e : Event) : Option (Server κ) :=
  match s.links[i]? with
  | none => none
  | some l =>
    if l.aborted then none
    else match l.connection.step e with
      | none => none
      | some (c, note) =>
        some ((s.modifyLink i fun l => { l with connection := c }).record l.guard note)

/-- an event of a connection, or nothing at all if it is not possible -/
def step (s : Server κ) (i : Nat) (e : Event) : Server κ := (s.step? i e).getD s

/-- the handler of a connection begins; without a spare release a reply that waits is held back -/
def call (s : Server κ) (i : Nat) (request : Request) : Server κ :=
  let h := s.service request.path request
  let s :=
    match h.who with
    | none => s
    | some who => { s with calls := ⟨who, request.path, h.request⟩ :: s.calls }
  if !h.waits then s.modifyLink i fun l => { l with work := .ready h.reply }
  else match s.gate.spare with
    | 0 =>
      { s with gate := { s.gate with line := s.gate.line ++ [i] } }.modifyLink i fun l =>
        { l with work := .held h.reply }
    | spare + 1 =>
      { s with gate := { s.gate with spare } }.modifyLink i fun l =>
        { l with work := .ready h.reply }

/-- the reading loop goes on, or its handler does; nothing if both have to wait -/
def readTurn (s : Server κ) (i : Nat) : Option (Server κ) :=
  match s.links[i]? with
  | none => none
  | some l =>
    match l.connection.reader, l.work with
    | .handling _, .ready r =>
      (s.modifyLink i fun l => { l with work := .none }).step? i (.reply r)
    | .handling _, _ => none
    | .granted (.request request), _ =>
      (s.step? i .read).map fun s => if l.connection.queue.receiving then s.call i request else s
    | _, _ => s.step? i .read

/-- the writing loop goes on; nothing if it has to wait -/
def writeTurn (s : Server κ) (i : Nat) : Option (Server κ) :=
  match s.links[i]? with
  | none => none
  | some l =>
    match l.sink.next l.connection.writer with
    | none => none
    | some (e, sink) => (s.modifyLink i fun l => { l with sink }).step? i e

/-! ## running until nothing goes on -/

/-- the same turn again and again, at most the given number of times -/
def repeatTurn (turn : Server κ → Option (Server κ)) : Nat → Server κ → Server κ
  | 0, s => s
  | n + 1, s =>
    match turn s with
    | none => s
    | some s => repeatTurn turn n s

/-- A bound on the turns of a reading loop: each request takes at least one octet and four turns,
each piece two. -/
def readBound (l : Link) : Nat :=
  let coming := l.connection.inbox.foldr (fun s n => s.length + 1 + n) 0
  4 * (l.connection.buffer.length + coming) + 8

/-- A bound on the turns of a writing loop: an octet, a flush and a take for each octet of a queued
reply. -/
def writeBound (l : Link) : Nat :=
  let left := match l.connection.writer with
    | .sending left => left.length
    | _ => 0
  let queued := l.connection.queue.slots.foldr (fun
    | .reply r, n => (r.stamp l.connection.serverName l.connection.date).encode.length + 2 + n
    | .last, n => 2 + n) 0
  left + queued + 4

def bound (s : Server κ) (i : Nat) (f : Link → Nat) : Nat := ((s.links[i]?).map f).getD 0

/-- the two loops of a connection take turns, at most the given number of times each -/
def alternate (i : Nat) : Nat → Server κ → Server κ
  | 0, s => s
  | n + 1, s =>
    let s := repeatTurn (·.readTurn i) (s.bound i readBound) s
    let s := repeatTurn (·.writeTurn i) (s.bound i writeBound) s
    if (s.readTurn i).isNone && (s.writeTurn i).isNone then s else alternate i n s

/-- a connection of which both loops have ended is taken off the registry -/
def retire (s : Server κ) (i : Nat) : Server κ :=
  match s.links[i]? with
  | none => s
  | some l => if l.over then { s with registry := s.registry.drop l.guard } else s

/-- whoever waits for the registry looks again -/
def wake (s : Server κ) : Server κ :=
  match s.stopping with
  | none => s
  | some w => { s with registry := s.registry.poll w }

/-- a connection runs until it has to wait -/
def settle (s : Server κ) (i : Nat) : Server κ :=
  ((alternate i (s.bound i fun l => readBound l + l.connection.queue.slots.length + 4) s).retire
    i).wake

/-- every connection in turn, in the order in which they were opened -/
def settleAll (s : Server κ) : Server κ := (List.range s.links.length).foldl settle s

/-! ## commands -/

def connect (s : Server κ) (peer : Option Peer) (sink : Sink) : Server κ :=
  let guard := s.registry.guards.length
  let registry := s.registry.register peer
  let connection := Connection.ofSettings s.settings.serverName s.date s.settings.queueCapacity
    s.settings.maxBody registry.shutdown
  let link : Link := ⟨connection, sink, guard, .none, false⟩
  { s with registry, links := s.links ++ [link] }.settle s.links.length

/-- the client sends octets, in pieces, or ends, or fails -/
def arrive (s : Server κ) (i : Nat) (arrivals : List Arrival) : Server κ :=
  (arrivals.foldl (fun s a => s.step i (.arrive a)) s).settle i

def setSink (s : Server κ) (i : Nat) (sink : Sink) : Server κ :=
  (s.modifyLink i fun l => { l with sink }).settle i

/-- a number of replies that are held back go, the first ones first -/
def release (s : Server κ) (n : Nat) : Server κ :=
  let go := s.gate.line.take n
  let s := { s with gate := ⟨s.gate.spare + (n - go.length), s.gate.line.drop n⟩ }
  let s := go.foldl (fun s i => s.modifyLink i fun l =>
    match l.work with
    | .held r => { l with work := .ready r }
    | _ => l) s
  s.settleAll

/-- a connection ends at once: nothing more is read, written or shut down -/
def abort (s : Server κ) (i : Nat) : Server κ :=
  { s with gate := { s.gate with line := s.gate.line.filter (· != i) } }.modifyLink i
    (fun l => { l with aborted := true }) |>.settle i

/-- no connection reads another request, and someone waits for the last one to go -/
def stop (s : Server κ) : Server κ :=
  let registry := s.registry.shutDown.wait
  let s := { s with registry, stopping := some s.registry.waiters.length }
  let s := (List.range s.links.length).foldl (fun s i => s.step i .stop) s
  s.settleAll

/-- whether the latest stop has ended; nothing before the first one -/
def stopped? (s : Server κ) : Option Bool := s.stopping.map s.registry.isDone

end Server

end PipelinedHttp
