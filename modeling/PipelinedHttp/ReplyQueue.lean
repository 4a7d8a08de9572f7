import PipelinedHttp.Reply

/-!
# The reply queue

A bounded first-in first-out queue between those who produce replies and the one who writes them.
Nothing is put into the queue without a slot that was granted before.  A slot is used while it is
granted or filled; there are never more of them than the capacity.  Who finds no free slot waits in
line under a ticket, and a slot that becomes free goes to the first in line at once.

* `request`     asks for a slot;
* `put`         fills a granted slot;
* `giveBack`    returns a granted slot unfilled;
* `withdraw`    leaves the line;
* `take?`       removes the oldest entry;
* `close`       the receiver goes away: entries and line are dropped, granted slots stay usable,
  and what is put into them then stays.
-/

namespace PipelinedHttp

/-- an entry of the queue: a reply, or the mark that none will follow -/
inductive Slot where
  | reply (r : Reply)
  | last
  deriving DecidableEq

structure ReplyQueue (τ : Type) where
  capacity : Nat
  slots : List Slot
  /-- slots that are granted and not filled yet -/
  granted : Nat
  /-- the line, first come first -/
  line : List τ
  receiving : Bool

inductive Answer where
  | granted
  | waiting
  | closed
  deriving DecidableEq

namespace ReplyQueue
variable {τ : Type}

def ofCapacity (capacity : Nat) : ReplyQueue τ := ⟨capacity, [], 0, [], true⟩

def used (q : ReplyQueue τ) : Nat := q.slots.length + q.granted

def hasFree (q : ReplyQueue τ) : Bool := q.used < q.capacity

def request (q : ReplyQueue τ) (ticket : τ) : Answer × ReplyQueue τ :=
  if !q.receiving then (.closed, q)
  else if q.hasFree then (.granted, { q with granted := q.granted + 1 })
  else (.waiting, { q with line := q.line ++ [ticket] })

def put (q : ReplyQueue τ) (s : Slot) : ReplyQueue τ :=
  { q with slots := q.slots ++ [s], granted := q.granted - 1 }

/-- a free slot goes to the first in line -/
def handOver (q : ReplyQueue τ) : Option τ × ReplyQueue τ :=
  match q.line with
  | [] => (none, q)
  | ticket :: line =>
    if q.hasFree then (some ticket, { q with granted := q.granted + 1, line }) else (none, q)

def giveBack (q : ReplyQueue τ) : Option τ × ReplyQueue τ :=
  { q with granted := q.granted - 1 }.handOver

def withdraw [BEq τ] (q : ReplyQueue τ) (ticket : τ) : ReplyQueue τ :=
  { q with line := q.line.erase ticket }

/-- the oldest entry, who gets the slot that it leaves, and the queue after it -/
def take? (q : ReplyQueue τ) : Option (Slot × Option τ × ReplyQueue τ) :=
  match q.slots with
  | [] => none
  | s :: slots => some (s, { q with slots }.handOver)

/-- nothing happens to a queue that is closed already -/
def close (q : ReplyQueue τ) : ReplyQueue τ :=
  if q.receiving then { q with slots := [], line := [], receiving := false } else q

end ReplyQueue

end PipelinedHttp
