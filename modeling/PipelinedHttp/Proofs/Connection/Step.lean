import PipelinedHttp.Connection
import PipelinedHttp.Proofs.ReplyQueue

/-!
# The steps of a connection, one by one

`Reading` has a constructor for everything that a step of the reading loop can do, `Writing` one for
everything that a step of the writing loop can do, each with what it needs; with the two steps from
outside they make up `Step`.  `Connection.step` does nothing else (`step_cases`), so what is to hold
of all steps is proved by cases on these.

The reading loop asks for slots in several places; `want_cases` says once what comes of it, and
`handOver_spec` what the writing loop does to a reading loop that waits.  Runs are taken apart by
`run_cons` and `run_append`; what each step keeps, they keep (`run_invariant`).
-/

namespace PipelinedHttp

namespace Connection

/-- the reading loop has a slot, or waits for one -/
def Reader.Asks (reader : Reader) (n : Need) : Prop := reader = .granted n ∨ reader = .waiting n

/-- what comes of asking for a slot: the end at a closed queue, a slot if one is free, and a place
in line if there is none -/
theorem want_cases (c : Connection) (n : Need) :
    c.queue.receiving = false ∧ c.want n = { c with reader := .closed }
      ∨ (c.queue.receiving = true ∧ c.queue.used < c.queue.capacity ∧ c.want n = { c with
          queue := { c.queue with granted := c.queue.granted + 1 }
          reader := .granted n })
      ∨ c.queue.receiving = true ∧ c.queue.capacity ≤ c.queue.used ∧ c.want n = { c with
          queue := { c.queue with line := c.queue.line ++ [()] }
          reader := .waiting n } := by
  unfold want
  cases h : c.queue.receiving with
  | false =>
    rw [ReplyQueue.request_of_closed h]
    exact .inl ⟨rfl, rfl⟩
  | true =>
    rcases ReplyQueue.request_of_open h () with ⟨free, e⟩ | ⟨full, e⟩
    · rw [e]
      exact .inr (.inl ⟨rfl, free, rfl⟩)
    · rw [e]
      exact .inr (.inr ⟨rfl, full, rfl⟩)

/-- asking for a slot touches nothing but the reading loop and the counts of the queue; at a closed
queue the loop ends, and at an open one it has the slot or waits for it -/
theorem want_spec (c : Connection) (n : Need) :
    ∃ reader queue, c.want n = { c with reader, queue } ∧ queue.slots = c.queue.slots ∧
      queue.receiving = c.queue.receiving ∧
      (c.queue.receiving = false → reader = .closed ∧ queue = c.queue) ∧
      (c.queue.receiving = true → Reader.Asks reader n) := by
  rcases want_cases c n with ⟨h, e⟩ | ⟨h, -, e⟩ | ⟨h, -, e⟩
  · exact ⟨.closed, c.queue, e, rfl, rfl, fun _ => ⟨rfl, rfl⟩, by rw [h]; exact nofun⟩
  · exact ⟨.granted n, _, e, rfl, rfl, by rw [h]; exact nofun, fun _ => .inl rfl⟩
  · exact ⟨.waiting n, _, e, rfl, rfl, by rw [h]; exact nofun, fun _ => .inr rfl⟩

theorem handOver_spec (c : Connection) (ticket : Option Unit) :
    c.handOver ticket = c
      ∨ ∃ n, c.reader = .waiting n ∧ c.handOver ticket = { c with reader := .granted n } := by
  unfold handOver
  cases ticket with
  | none => exact .inl rfl
  | some t =>
    cases h : c.reader with
    | waiting n => exact .inr ⟨n, rfl, rfl⟩
    | idle => exact .inl rfl
    | decoding => exact .inl rfl
    | awaiting => exact .inl rfl
    | granted n => exact .inl rfl
    | handling r => exact .inl rfl
    | closed => exact .inl rfl

/-- the connection with what a turn of its decoder has left -/
def after (c : Connection) (t : Wire.Turn) : Connection :=
  { c with decoder := t.decoder, buffer := t.rest }

/-- the request closes the connection behind its reply -/
def closes (r : Request) : Bool := (KeepAlive.evaluate r.version r.headers).close

/-- what a step of the reading loop can do -/
inductive Reading (c : Connection) : Event → Connection → Option Note → Prop
  /-- a new request is begun -/
  | begin (reader : c.reader = .idle) (go : c.stopped = false) :
      Reading c .read { c with decoder := c.decoder.reset, reader := .decoding } none
  | haltIdle (reader : c.reader = .idle) (halt : c.stopped = true) :
      Reading c .read (want { c with decoder := c.decoder.reset } .last) none
  | halt (reader : c.reader = .decoding ∨ c.reader = .awaiting) (halt : c.stopped = true) :
      Reading c .read (c.want .last) none
  | more (reader : c.reader = .decoding) (go : c.stopped = false)
      (turn : (c.decoder.decode c.buffer).outcome = .more) :
      Reading c .read { c.after (c.decoder.decode c.buffer) with reader := .awaiting } none
  | request {r : Request} (reader : c.reader = .decoding) (go : c.stopped = false)
      (turn : (c.decoder.decode c.buffer).outcome = .request r) :
      Reading c .read (want { c.after (c.decoder.decode c.buffer) with served := c.served + 1 }
        (.request r)) (some .served)
  | failed {e : ReadError} (reader : c.reader = .decoding) (go : c.stopped = false)
      (turn : (c.decoder.decode c.buffer).outcome = .failed e) :
      Reading c .read ((c.after (c.decoder.decode c.buffer)).want .last) (some .readError)
  | piece {s : Bytes} {inbox : List Bytes} (reader : c.reader = .awaiting) (go : c.stopped = false)
      (next : c.inbox = s :: inbox) :
      Reading c .read { c with inbox, buffer := c.buffer ++ s, reader := .decoding } none
  /-- the end of the stream -/
  | ended (reader : c.reader = .awaiting) (go : c.stopped = false) (empty : c.inbox = [])
      (ending : c.ending = some .clean) (turn : (c.decoder.finish c.buffer).outcome = .more) :
      Reading c .read ((c.after (c.decoder.finish c.buffer)).want .last) none
  /-- the end of the stream within a request -/
  | cut {e : ReadError} (reader : c.reader = .awaiting) (go : c.stopped = false)
      (empty : c.inbox = []) (ending : c.ending = some .clean)
      (turn : (c.decoder.finish c.buffer).outcome = .failed e) :
      Reading c .read ((c.after (c.decoder.finish c.buffer)).want .last) (some .readError)
  /-- a request at the end of the stream -/
  | late {r : Request} (reader : c.reader = .awaiting) (go : c.stopped = false)
      (empty : c.inbox = []) (ending : c.ending = some .clean)
      (turn : (c.decoder.finish c.buffer).outcome = .request r) :
      Reading c .read (want { c.after (c.decoder.finish c.buffer) with served := c.served + 1 }
        (.request r)) (some .served)
  | broken (reader : c.reader = .awaiting) (go : c.stopped = false) (empty : c.inbox = [])
      (ending : c.ending = some .broken) : Reading c .read (c.want .last) (some .readError)
  /-- the queue has been closed under a loop that waits for a slot or has just been granted one -/
  | refused {n : Need} (reader : Reader.Asks c.reader n) (shut : c.queue.receiving = false) :
      Reading c .read { c with reader := .closed } none
  | call {r : Request} (reader : c.reader = .granted (.request r))
      (isOpen : c.queue.receiving = true) :
      Reading c .read { c with reader := .handling r, called := c.called + 1 } none
  | mark (reader : c.reader = .granted .last) (isOpen : c.queue.receiving = true) :
      Reading c .read { c with queue := c.queue.put .last, reader := .closed } none
  | replyLast {request : Request} (r : Reply) (reader : c.reader = .handling request)
      (close : closes request = true) :
      Reading c (.reply r) (want { c with queue := c.queue.put (.reply (r.finish request)) } .last)
        none
  | reply {request : Request} (r : Reply) (reader : c.reader = .handling request)
      (stay : closes request = false) :
      Reading c (.reply r)
        { c with queue := c.queue.put (.reply (r.finish request)), reader := .idle } none

/-- what a step of the writing loop can do -/
inductive Writing (c : Connection) : Event → Connection → Option Note → Prop
  | take {r : Reply} {ticket : Option Unit} {queue : ReplyQueue Unit} (writer : c.writer = .idle)
      (taken : c.queue.take? = some (.reply r, ticket, queue)) :
      Writing c .take (handOver { c with
        queue
        writer := .sending (r.stamp c.serverName c.date).encode } ticket) none
  | takeLast {ticket : Option Unit} {queue : ReplyQueue Unit} (writer : c.writer = .idle)
      (taken : c.queue.take? = some (.last, ticket, queue)) :
      Writing c .take { c with queue := queue.close, writer := .closing } none
  | accept {left : Bytes} {n : Nat} (writer : c.writer = .sending left) (pos : n ≠ 0)
      (lt : n < left.length) :
      Writing c (.accept n) { c with
        output := c.output ++ left.take n
        writes := c.writes + 1
        writer := .sending (left.drop n) } none
  | acceptAll {left : Bytes} (writer : c.writer = .sending left) :
      Writing c (.accept left.length) { c with
        output := c.output ++ left
        writes := c.writes + 1
        writer := .flushing } none
  /-- a write that accepts nothing -/
  | stuck {left : Bytes} (writer : c.writer = .sending left) (ne : left ≠ []) :
      Writing c (.accept 0) (fail { c with writes := c.writes + 1 }).1 (some .respondError)
  | refuse {left : Bytes} (writer : c.writer = .sending left) :
      Writing c .refuse c.fail.1 (some .respondError)
  | flush (writer : c.writer = .flushing) :
      Writing c (.flush true) { c with flushes := c.flushes + 1, writer := .idle } none
  | flushFailed (writer : c.writer = .flushing) :
      Writing c (.flush false) (fail { c with flushes := c.flushes + 1 }).1 (some .respondError)
  | shutDown (ok : Bool) (writer : c.writer = .closing) :
      Writing c (.shutDown ok) { c with writer := .closed, shutdowns := c.shutdowns + 1 } none

/-- what a step can do -/
inductive Step (c : Connection) : Event → Connection → Option Note → Prop
  | arrive (a : Arrival) : Step c (.arrive a) (c.arrive a) none
  | stop : Step c .stop { c with stopped := true } none
  | reading {e : Event} {c' : Connection} {note : Option Note} (h : Reading c e c' note) :
      Step c e c' note
  | writing {e : Event} {c' : Connection} {note : Option Note} (h : Writing c e c' note) :
      Step c e c' note

/-! ## every step is one of these -/

theorem read_cases {c c' : Connection} {note : Option Note} (h : c.read = some (c', note)) :
    Reading c .read c' note := by
  unfold read at h
  split at h
  · rename_i reader
    dsimp only at h
    split at h
    · rename_i halt
      cases h
      exact .haltIdle reader halt
    · rename_i go
      cases h
      exact .begin reader (Bool.eq_false_iff.mpr go)
  · rename_i reader
    split at h
    · rename_i halt
      cases h
      exact .halt (.inl reader) halt
    · rename_i go
      have go := Bool.eq_false_iff.mpr go
      unfold decoded at h
      dsimp only at h
      split at h
      · rename_i turn
        cases h
        exact .more reader go turn
      · rename_i r turn
        cases h
        exact .request reader go turn
      · rename_i e turn
        cases h
        exact .failed reader go turn
  · rename_i reader
    split at h
    · rename_i halt
      cases h
      exact .halt (.inr reader) halt
    · rename_i go
      have go := Bool.eq_false_iff.mpr go
      split at h
      · rename_i s inbox _ next
        cases h
        exact .piece reader go next
      · cases h
      · rename_i empty ending
        unfold decoded at h
        dsimp only at h
        split at h
        · rename_i turn
          cases h
          exact .ended reader go empty ending turn
        · rename_i r turn
          cases h
          exact .late reader go empty ending turn
        · rename_i e turn
          cases h
          exact .cut reader go empty ending turn
      · rename_i empty ending
        cases h
        exact .broken reader go empty ending
  · rename_i n reader
    split at h
    · cases h
    · rename_i shut
      cases h
      exact .refused (.inr reader) (Bool.eq_false_iff.mpr shut)
  · rename_i n reader
    split at h
    · rename_i shut
      cases h
      exact .refused (.inl reader) (Bool.not_eq_true' _ ▸ shut)
    · rename_i isOpen
      have isOpen : c.queue.receiving = true := by simpa using isOpen
      split at h
      · cases h
        exact .call reader isOpen
      · cases h
        exact .mark reader isOpen
  · cases h
  · cases h

theorem reply_cases {c c' : Connection} {r : Reply} {note : Option Note}
    (h : c.reply r = some (c', note)) : Reading c (.reply r) c' note := by
  unfold reply at h
  split at h
  · rename_i request reader
    dsimp only at h
    split at h
    · rename_i close
      cases h
      exact .replyLast r reader close
    · rename_i stay
      cases h
      exact .reply r reader (Bool.eq_false_iff.mpr stay)
  · cases h

theorem take_cases {c c' : Connection} {note : Option Note} (h : c.take = some (c', note)) :
    Writing c .take c' note := by
  unfold take at h
  split at h
  · rename_i writer taken
    cases h
    exact .take writer taken
  · rename_i writer taken
    cases h
    exact .takeLast writer taken
  · cases h

theorem accept_cases {c c' : Connection} {n : Nat} {note : Option Note}
    (h : c.accept n = some (c', note)) : Writing c (.accept n) c' note := by
  unfold accept at h
  split at h
  · rename_i left writer
    split at h
    · rename_i le
      dsimp only at h
      split at h
      · -- nothing is left: all octets have been accepted
        rename_i all
        have n_eq : n = left.length := Nat.le_antisymm le (List.drop_eq_nil_iff.mp all)
        subst n_eq
        cases h
        rw [List.take_length]
        exact .acceptAll writer
      · rename_i b rest some_left
        have lt : n < left.length := by
          have := congrArg List.length some_left
          rw [List.length_drop, List.length_cons] at this
          omega
        split at h
        · rename_i zero
          subst zero
          cases h
          rw [List.take_zero, List.append_nil]
          exact .stuck writer (List.ne_nil_of_length_pos lt)
        · rename_i pos
          cases h
          rw [← some_left]
          exact .accept writer pos lt
    · cases h
  · cases h

theorem refuse_cases {c c' : Connection} {note : Option Note} (h : c.refuse = some (c', note)) :
    Writing c .refuse c' note := by
  unfold refuse at h
  split at h
  · rename_i left writer
    cases h
    exact .refuse writer
  · cases h

theorem flush_cases {c c' : Connection} {ok : Bool} {note : Option Note}
    (h : c.flush ok = some (c', note)) : Writing c (.flush ok) c' note := by
  unfold flush at h
  split at h
  · rename_i writer
    cases ok with
    | true => cases h; exact .flush writer
    | false => cases h; exact .flushFailed writer
  · cases h

theorem shutDown_cases {c c' : Connection} {ok : Bool} {note : Option Note}
    (h : c.shutDown = some (c', note)) : Writing c (.shutDown ok) c' note := by
  unfold shutDown at h
  split at h
  · rename_i writer
    cases h
    exact .shutDown ok writer
  · cases h

theorem step_cases {c c' : Connection} {e : Event} {note : Option Note}
    (h : c.step e = some (c', note)) : Step c e c' note := by
  cases e with
  | arrive a => cases h; exact .arrive a
  | stop => cases h; exact .stop
  | read => exact .reading (read_cases h)
  | reply r => exact .reading (reply_cases h)
  | take => exact .writing (take_cases h)
  | accept n => exact .writing (accept_cases h)
  | refuse => exact .writing (refuse_cases h)
  | flush ok => exact .writing (flush_cases h)
  | shutDown ok => exact .writing (shutDown_cases h)

/-! ## runs -/

theorem run_cons {c c' : Connection} {e : Event} {es : List Event} {notes : List Note}
    (h : c.run (e :: es) = some (c', notes)) :
    ∃ m note rest, c.step e = some (m, note) ∧ m.run es = some (c', rest) ∧
      notes = note.toList ++ rest := by
  unfold run at h
  split at h
  · cases h
  · rename_i m note hm
    split at h
    · cases h
    · rename_i c'' rest hr
      cases h
      exact ⟨m, note, rest, hm, hr, rfl⟩

/-- what each step keeps, a run keeps -/
theorem run_invariant {P : Connection → Prop} {c c' : Connection} {es : List Event}
    {notes : List Note} (kept : ∀ {c e c' note}, Step c e c' note → P c → P c') (start : P c)
    (h : c.run es = some (c', notes)) : P c' := by
  induction es generalizing c notes with
  | nil =>
    cases h
    exact start
  | cons e es ih =>
    obtain ⟨m, note, rest, hs, hr, rfl⟩ := run_cons h
    exact ih (kept (step_cases hs) start) hr

theorem run_append {c m c' : Connection} {es fs : List Event} {notes rest : List Note}
    (h : c.run es = some (m, notes)) (h' : m.run fs = some (c', rest)) :
    c.run (es ++ fs) = some (c', notes ++ rest) := by
  induction es generalizing c notes with
  | nil =>
    cases h
    exact h'
  | cons e es ih =>
    obtain ⟨m₀, note, more, hs, hr, rfl⟩ := run_cons h
    rw [List.cons_append, run, hs]
    dsimp only
    rw [ih hr, List.append_assoc]

end Connection

end PipelinedHttp
