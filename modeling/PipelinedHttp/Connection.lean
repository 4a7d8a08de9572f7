import PipelinedHttp.Registry
import PipelinedHttp.Reply.Outgoing
import PipelinedHttp.ReplyQueue
import PipelinedHttp.Wire.Decoder

/-!
# Connections

A connection has two loops that share nothing but a reply queue and a stop flag.

* The reading loop takes a request off the stream, counts it, waits for a slot of the queue, hands
  the request to the handler, and puts the reply into the slot.  It ends at the end of the stream,
  at a fault, at a request that closes the connection, when the connection is stopped, or when the
  queue is closed; then it puts the last mark.
* The writing loop takes replies off the queue, adds the mandatory headers, and writes each as a
  whole and flushes it before it takes the next.  It ends at the last mark, or at a write that
  fails: then it stops the connection.  In both cases it closes the queue and shuts the stream down.

`Connection.step` is one step of either loop or of the world around them.  A step that is not
possible has no result.  Runs take steps in any order, so what holds of all runs holds however the
two loops, the client, the handler and the transport are scheduled.

A step is atomic, as one poll of a loop is: when the reading loop looks at the stop flag, turns its
decoder and counts what comes of that, no stop falls between.  Where a stop can come from another
thread in the middle of a poll, it may fall behind the look and before the count, and the request is
counted all the same; in a run such a stop comes behind the step.
-/

namespace PipelinedHttp

inductive Arrival where
  | octets (s : Bytes)
  /-- the client sends no more -/
  | ended
  /-- the transport cannot be read any more -/
  | failed

/-- how the stream of the client ends -/
inductive Ending where
  | clean
  | broken

/-- what the reading loop needs a slot for -/
inductive Need where
  | request (r : Request)
  | last

inductive Reader where
  | idle
  | decoding
  | awaiting
  | waiting (n : Need)
  /-- a slot has been granted; it is lost if the queue is closed before the loop goes on -/
  | granted (n : Need)
  /-- the handler is at work, and there is a slot for its reply -/
  | handling (r : Request)
  | closed

inductive Writer where
  | idle
  | sending (left : Bytes)
  | flushing
  | closing
  | closed

structure Connection where
  serverName : Bytes
  date : Bytes
  /-- what has arrived and has not been read, in pieces -/
  inbox : List Bytes
  /-- how the stream ends behind the inbox, as soon as that is known -/
  ending : Option Ending
  buffer : Bytes
  decoder : Wire.Decoder
  reader : Reader
  writer : Writer
  queue : ReplyQueue Unit
  stopped : Bool
  /-- all octets that the transport has accepted -/
  output : Bytes
  served : Nat
  /-- requests that have been handed to the handler -/
  called : Nat
  writes : Nat
  flushes : Nat
  shutdowns : Nat

inductive Event where
  | arrive (a : Arrival)
  | stop
  | read
  | reply (r : Reply)
  | take
  /-- the transport accepts some octets; to accept none is to fail -/
  | accept (n : Nat)
  | refuse
  | flush (ok : Bool)
  | shutDown (ok : Bool)

namespace Connection

def ofSettings (serverName date : Bytes) (queueCapacity maxBody : Nat) (stopped : Bool) :
    Connection :=
  { serverName, date, stopped
    inbox := []
    ending := none
    buffer := []
    decoder := .ofMaxBody maxBody
    reader := .idle
    writer := .idle
    queue := .ofCapacity queueCapacity
    output := []
    served := 0
    called := 0
    writes := 0
    flushes := 0
    shutdowns := 0 }

def finished (c : Connection) : Bool :=
  match c.reader, c.writer with
  | .closed, .closed => true
  | _, _ => false

/-! ## the client -/

/-- Octets are read before the end, whenever they arrive, and a failure counts for more than an
end. -/
def arrive (c : Connection) : Arrival → Connection
  | .octets s => { c with inbox := c.inbox ++ [s] }
  | .ended => { c with ending := some (c.ending.getD .clean) }
  | .failed => { c with ending := some .broken }

/-! ## the reading loop -/

/-- the reading loop asks for a slot; at a closed queue it ends -/
def want (c : Connection) (n : Need) : Connection :=
  match c.queue.request () with
  | (.closed, queue) => { c with queue, reader := .closed }
  | (.granted, queue) => { c with queue, reader := .granted n }
  | (.waiting, queue) => { c with queue, reader := .waiting n }

/-- what follows from a turn of the decoder; if it wants more octets, `more` goes on -/
def decoded (c : Connection) (t : Wire.Turn) (more : Connection → Connection) :
    Connection × Option Note :=
  let c := { c with decoder := t.decoder, buffer := t.rest }
  match t.outcome with
  | .more => (more c, none)
  | .request r => ({ c with served := c.served + 1 }.want (.request r), some .served)
  | .failed _ => (c.want .last, some .readError)

/-- one step of the reading loop: the look at the stop flag, the turn of the decoder and the count
are one, and no stop comes between them -/
def read (c : Connection) : Option (Connection × Option Note) :=
  match c.reader with
  | .idle =>
    let c := { c with decoder := c.decoder.reset }
    if c.stopped then some (c.want .last, none) else some ({ c with reader := .decoding }, none)
  | .decoding =>
    if c.stopped then some (c.want .last, none)
    else some (c.decoded (c.decoder.decode c.buffer) fun c => { c with reader := .awaiting })
  | .awaiting =>
    if c.stopped then some (c.want .last, none)
    else match c.inbox, c.ending with
      | s :: inbox, _ =>
        some ({ c with inbox, buffer := c.buffer ++ s, reader := .decoding }, none)
      | [], none => none
      | [], some .clean =>
        some (c.decoded (c.decoder.finish c.buffer) fun c => c.want .last)
      | [], some .broken => some (c.want .last, some .readError)
  | .waiting _ => if c.queue.receiving then none else some ({ c with reader := .closed }, none)
  | .granted n =>
    if !c.queue.receiving then some ({ c with reader := .closed }, none)
    else match n with
      | .request r => some ({ c with reader := .handling r, called := c.called + 1 }, none)
      | .last => some ({ c with queue := c.queue.put .last, reader := .closed }, none)
  | .handling _ => none
  | .closed => none

/-- the handler returns: its reply is queued, and the next request is read unless this was the
last one -/
def reply (c : Connection) (r : Reply) : Option (Connection × Option Note) :=
  match c.reader with
  | .handling request =>
    let c := { c with queue := c.queue.put (.reply (r.finish request)) }
    if (KeepAlive.evaluate request.version request.headers).close then some (c.want .last, none)
    else some ({ c with reader := .idle }, none)
  | _ => none

/-! ## the writing loop -/

/-- the slot that an entry has left goes to the reading loop if it waits for one -/
def handOver (c : Connection) : Option Unit → Connection
  | none => c
  | some _ =>
    match c.reader with
    | .waiting n => { c with reader := .granted n }
    | _ => c

def take (c : Connection) : Option (Connection × Option Note) :=
  match c.writer, c.queue.take? with
  | .idle, some (.reply r, ticket, queue) =>
    let left := (r.stamp c.serverName c.date).encode
    some ({ c with queue, writer := .sending left }.handOver ticket, none)
  | .idle, some (.last, _, queue) =>
    some ({ c with queue := queue.close, writer := .closing }, none)
  | _, _ => none

/-- a write has failed: the connection is stopped and the queue is closed -/
def fail (c : Connection) : Connection × Option Note :=
  ({ c with stopped := true, queue := c.queue.close, writer := .closing }, some .respondError)

/-- a write is counted whatever it accepts, and one that accepts nothing has failed -/
def accept (c : Connection) (n : Nat) : Option (Connection × Option Note) :=
  match c.writer with
  | .sending left =>
    if n ≤ left.length then
      let c := { c with output := c.output ++ left.take n, writes := c.writes + 1 }
      match left.drop n with
      | [] => some ({ c with writer := .flushing }, none)
      | b :: left =>
        if n = 0 then some c.fail else some ({ c with writer := .sending (b :: left) }, none)
    else none
  | _ => none

def refuse (c : Connection) : Option (Connection × Option Note) :=
  match c.writer with
  | .sending _ => some c.fail
  | _ => none

def flush (c : Connection) (ok : Bool) : Option (Connection × Option Note) :=
  match c.writer with
  | .flushing =>
    let c := { c with flushes := c.flushes + 1 }
    if ok then some ({ c with writer := .idle }, none) else some c.fail
  | _ => none

def shutDown (c : Connection) : Option (Connection × Option Note) :=
  match c.writer with
  | .closing => some ({ c with writer := .closed, shutdowns := c.shutdowns + 1 }, none)
  | _ => none

/-! ## steps and runs -/

/-- one step, and what it counts -/
def step (c : Connection) : Event → Option (Connection × Option Note)
  | .arrive a => some (c.arrive a, none)
  | .stop => some ({ c with stopped := true }, none)
  | .read => c.read
  | .reply r => c.reply r
  | .take => c.take
  | .accept n => c.accept n
  | .refuse => c.refuse
  | .flush ok => c.flush ok
  | .shutDown _ => c.shutDown

/-- the steps of a run one after the other, and all that they count -/
def run (c : Connection) : List Event → Option (Connection × List Note)
  | [] => some (c, [])
  | e :: es =>
    match c.step e with
    | none => none
    | some (c, note) =>
      match c.run es with
      | none => none
      | some (c, notes) => some (c, note.toList ++ notes)

end Connection

end PipelinedHttp
