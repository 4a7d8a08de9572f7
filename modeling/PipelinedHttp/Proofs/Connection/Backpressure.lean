import PipelinedHttp.Proofs.Connection.Failure
import PipelinedHttp.Proofs.Connection.Progress

/-!
# How far the handler can get ahead of the client

A request is counted before it has a slot, and handed to the handler when it has one; its reply fills
the slot until the writing loop takes it.  So what has been counted and not yet flushed is one
request without a slot, the slots of the queue, and the reply that is being written.

* `Reading.counts`, `Writing.counts`   what a step adds to the counts, and to the stages between them;
* `Paced`, `paced_run`   the counts are never further apart than the stages between them allow;
* `backpressure_of_run`  so the queue bounds how far the handler gets ahead of what is flushed.
-/

namespace PipelinedHttp

/-- a request has been counted and not been handed to the handler -/
def Reader.asked : Reader → Nat
  | .waiting (.request _) | .granted (.request _) => 1
  | _ => 0

/-- a request is with the handler -/
def Reader.called : Reader → Nat
  | .handling _ => 1
  | _ => 0

/-- a reply is being written -/
def Writer.busy : Writer → Nat
  | .sending _ | .flushing => 1
  | _ => 0

def Need.asked : Need → Nat
  | .request _ => 1
  | .last => 0

theorem Reader.asked_le (reader : Reader) : reader.asked ≤ 1 := by
  unfold asked
  split <;> simp

theorem Reader.called_le_held (reader : Reader) : reader.called ≤ reader.held := by
  cases reader <;> simp [called, held]

theorem Writer.busy_le (writer : Writer) : writer.busy ≤ 1 := by
  cases writer <;> simp [busy]

namespace Connection
variable {c c' : Connection} {e : Event} {note : Option Note} {capacity : Nat}

def isFlush : Event → Bool
  | .flush true => true
  | _ => false

/-- the replies that have been written and flushed -/
def flushed (es : List Event) : Nat := es.countP isFlush

theorem flushed_cons (e : Event) (es : List Event) : flushed (e :: es) = flushed [e] + flushed es := by
  rw [← List.singleton_append, flushed, List.countP_append]
  rfl

theorem Reader.Asks.stages {reader : Reader} {n : Need} (h : Reader.Asks reader n) :
    reader.asked = n.asked ∧ reader.called = 0 := by
  rcases h with rfl | rfl <;> cases n <;> exact ⟨rfl, rfl⟩

/-- asking for a slot begins a stage for a request, as long as the queue is open -/
theorem want_stages (c : Connection) (n : Need) :
    (c.want n).served = c.served ∧ (c.want n).called = c.called
      ∧ (c.want n).queue.slots = c.queue.slots ∧ (c.want n).reader.called = 0
      ∧ (c.want n).reader.asked ≤ n.asked
      ∧ (c.queue.receiving = true → (c.want n).reader.asked = n.asked) := by
  obtain ⟨reader, queue, e, slots, -, closed, asks⟩ := want_spec c n
  rw [e]
  cases receiving : c.queue.receiving with
  | false =>
    rw [(closed receiving).1]
    exact ⟨rfl, rfl, slots, rfl, Nat.zero_le _, nofun⟩
  | true =>
    obtain ⟨asked, called⟩ := (asks receiving).stages
    exact ⟨rfl, rfl, slots, called, Nat.le_of_eq asked, fun _ => asked⟩

/-! ## what a step adds -/

/-- how a step of the reading loop moves a request from one stage to the next -/
structure Advances (c c' : Connection) : Prop where
  /-- what is counted asks for a slot, and what is handed to the handler does so no more -/
  counted : c'.served + c.called + c.reader.asked = c.served + c'.called + c'.reader.asked
  /-- what leaves the handler is queued -/
  queued : c.queue.slots.length + c.reader.called + c'.called
    ≤ c'.queue.slots.length + c'.reader.called + c.called

theorem Reading.counts (isOpen : c.queue.receiving = true) (h : Reading c e c' note) :
    Advances c c' := by
  -- a loop that holds nothing, or whose reply has just been queued, asks for a slot
  have asks {m : Connection} {n : Need} (receiving : m.queue.receiving = true)
      (called : m.called = c.called) (served : m.served = c.served + n.asked)
      (asked : c.reader.asked = 0)
      (room : c.queue.slots.length + c.reader.called ≤ m.queue.slots.length) :
      Advances c (m.want n) := by
    obtain ⟨served', called', slots', stage, -, asked'⟩ := want_stages m n
    have asked' := asked' receiving
    have slots := congrArg List.length slots'
    constructor <;> omega
  have rests {m : Connection} {n : Need} (queue : m.queue = c.queue) (called : m.called = c.called)
      (served : m.served = c.served + n.asked) (rest : c.reader.AtRest) : Advances c (m.want n) := by
    have none : c.reader.asked = 0 ∧ c.reader.called = 0 := by
      revert rest
      cases c.reader <;> first | exact fun _ => ⟨rfl, rfl⟩ | exact False.elim
    refine asks (by rw [queue]; exact isOpen) called served none.1 ?_
    rw [queue, none.2]
    exact Nat.le_refl _
  have put (s : Slot) : c.queue.slots.length + 1 = (c.queue.slots ++ [s]).length := by
    rw [List.length_append, List.length_singleton]
  cases h with
  | begin reader | more reader | piece reader =>
    exact ⟨by rw [reader]; rfl, by rw [reader]; exact Nat.le_refl _⟩
  | haltIdle reader | failed reader | ended reader | cut reader | broken reader =>
    exact rests rfl rfl rfl (by rw [reader]; trivial)
  | halt reader =>
    exact rests rfl rfl rfl (by rcases reader with reader | reader <;> rw [reader] <;> trivial)
  | request reader | late reader => exact rests rfl rfl rfl (by rw [reader]; trivial)
  | refused reader shut =>
    rw [isOpen] at shut
    cases shut
  | call reader =>
    constructor <;> rw [reader]
    · show c.served + c.called + 1 = c.served + (c.called + 1) + 0
      omega
    · show c.queue.slots.length + 0 + (c.called + 1) ≤ c.queue.slots.length + 1 + c.called
      omega
  | mark reader =>
    refine ⟨by rw [reader]; rfl, ?_⟩
    rw [reader]
    show c.queue.slots.length + 0 + c.called ≤ (c.queue.slots ++ [Slot.last]).length + 0 + c.called
    rw [List.length_append]
    omega
  | replyLast r reader =>
    refine asks isOpen rfl rfl (by rw [reader]; rfl) ?_
    rw [reader]
    exact Nat.le_of_eq (put _)
  | reply r reader =>
    refine ⟨by rw [reader]; rfl, ?_⟩
    rw [reader]
    exact Nat.le_of_eq (congrArg (· + c.called) (put _))

theorem Step.counts_of_shut (s : c.Sane) (shut : c.queue.receiving = false)
    (halted : c.stopped = true ∨ c.reader = .closed) (h : Step c e c' note) :
    c'.served = c.served ∧ c'.called = c.called := by
  rcases halted with stopped | closed
  · have quiet := (h.winding ⟨s, shut, stopped⟩).1.quiet
    exact ⟨quiet.served, quiet.called⟩
  · cases h with
    | arrive a => cases a <;> exact ⟨rfl, rfl⟩
    | stop => exact ⟨rfl, rfl⟩
    | reading h => exact absurd closed h.reader_ne_closed
    | writing h => exact ⟨h.reading_kept.served, h.reading_kept.called⟩

/-- a slot that is handed over moves no request to another stage -/
theorem Writing.stages (h : Writing c e c' note) :
    c'.reader.asked = c.reader.asked ∧ c'.reader.called = c.reader.called := by
  rcases h.reading_kept.reader with same | ⟨n, waiting, granted⟩
  · rw [same]
    exact ⟨rfl, rfl⟩
  · rw [waiting, granted]
    cases n <;> exact ⟨rfl, rfl⟩

/-- how a step of the writing loop moves a reply on, or gives up -/
structure Passes (c c' : Connection) (e : Event) : Prop where
  /-- what leaves the queue is written, and what has been written is flushed -/
  written : c'.queue.receiving = true → c.queue.slots.length + c.writer.busy
    ≤ c'.queue.slots.length + c'.writer.busy + flushed [e]
  /-- it gives up when a write fails, or when there is nothing more to write -/
  gives_up : c'.queue.receiving = false → c'.stopped = true ∨ c'.reader = .closed

theorem handOver_writer (c : Connection) (ticket : Option Unit) :
    (c.handOver ticket).writer = c.writer := by
  rcases handOver_spec c ticket with e | ⟨n, -, e⟩ <;> rw [e]

theorem Writing.counts (s : c.Sane) (isOpen : c.queue.receiving = true) (h : Writing c e c' note) :
    Passes c c' e := by
  have opened {p : Prop} {q : ReplyQueue Unit} (receiving : q.receiving = true)
      (shut : q.receiving = false) : p := by
    rw [receiving] at shut
    cases shut
  have closed {p : Prop} {q : ReplyQueue Unit} (receiving : q.close.receiving = true) : p := by
    rw [ReplyQueue.close_receiving] at receiving
    cases receiving
  cases h with
  | @take r ticket queue writer taken =>
    obtain ⟨slots, receiving⟩ := ReplyQueue.take?_eq_some taken
    refine ⟨fun _ => ?_, ?_⟩
    · rw [handOver_queue, handOver_writer, writer, slots, List.length_cons]
      exact Nat.le_refl _
    · rw [handOver_queue]
      exact opened (receiving.trans isOpen)
  | @takeLast ticket queue writer taken =>
    obtain ⟨slots, -⟩ := ReplyQueue.take?_eq_some taken
    exact ⟨closed, fun _ => .inr (s.last_is_last [] queue.slots slots).2⟩
  | accept writer | acceptAll writer | flush writer =>
    refine ⟨fun _ => ?_, opened isOpen⟩
    rw [writer]
    exact Nat.le_refl _
  | stuck | refuse | flushFailed => exact ⟨closed, fun _ => .inl rfl⟩
  | shutDown ok writer =>
    have shut := s.closed_iff.mpr (.inl writer)
    exact opened isOpen shut

/-! ## the counts of a run -/

/-- the counts of a connection with a queue of the given capacity, if that many replies have been
flushed -/
structure Paced (capacity flushed : Nat) (c : Connection) : Prop where
  le_served : c.called ≤ c.served
  served_le : c.served ≤ c.called + 1
  served_eq : c.queue.receiving = true → c.served = c.called + c.reader.asked
  called_le : c.called ≤ flushed + capacity + 1
  called_le_stages : c.queue.receiving = true →
    c.called ≤ flushed + c.writer.busy + c.queue.slots.length + c.reader.called
  halted : c.queue.receiving = false → c.stopped = true ∨ c.reader = .closed

theorem Paced.of_open {count : Nat} (isOpen : c.queue.receiving = true)
    (b : Balanced capacity c.reader c.queue) (served : c.served = c.called + c.reader.asked)
    (stages : c.called ≤ count + c.writer.busy + c.queue.slots.length + c.reader.called) :
    Paced capacity count c := by
  have asked := c.reader.asked_le
  have busy := c.writer.busy_le
  have held := c.reader.called_le_held
  have slots := b.slots_add_held_le
  refine ⟨by omega, by omega, fun _ => served, by omega, fun _ => stages, fun shut => ?_⟩
  rw [isOpen] at shut
  cases shut

theorem Paced.of_shut {count more : Nat} (p : Paced capacity count c)
    (served : c'.served = c.served) (called : c'.called = c.called)
    (shut : c'.queue.receiving = false) (halted : c'.stopped = true ∨ c'.reader = .closed) :
    Paced capacity (count + more) c' := by
  have no {P : Prop} (isOpen : c'.queue.receiving = true) : P := by
    rw [shut] at isOpen
    cases isOpen
  have le := p.le_served
  have served_le := p.served_le
  have called_le := p.called_le
  exact ⟨by omega, by omega, no, by omega, no, fun _ => halted⟩

theorem Step.paced {count : Nat} (p : Paced capacity count c) (s : c.Sane)
    (b : Balanced capacity c.reader c.queue) (h : Step c e c' note) :
    Paced capacity (count + flushed [e]) c' := by
  have b' := h.balanced b s
  cases isOpen : c.queue.receiving with
  | false =>
    obtain ⟨served, called⟩ := h.counts_of_shut s isOpen (p.halted isOpen)
    refine p.of_shut served called (h.shut s isOpen) ?_
    exact (p.halted isOpen).imp h.stopped_mono h.reader_closed
  | true =>
    have served := p.served_eq isOpen
    have stages := p.called_le_stages isOpen
    cases h with
    | arrive a => cases a <;> exact .of_open isOpen b served stages
    | stop => exact .of_open isOpen b served stages
    | reading h =>
      have advances := h.counts isOpen
      have counted := advances.counted
      have queued := advances.queued
      have kept := h.writing_kept
      refine .of_open (kept.receiving.trans isOpen) b' (by omega) ?_
      rw [kept.writer]
      omega
    | writing h =>
      have passes := h.counts s isOpen
      obtain ⟨asked, stage⟩ := h.stages
      have kept := h.reading_kept
      have same := kept.served
      have same' := kept.called
      cases isOpen' : c'.queue.receiving with
      | true =>
        have written := passes.written isOpen'
        exact .of_open isOpen' b' (by omega) (by omega)
      | false => exact p.of_shut kept.served kept.called isOpen' (passes.gives_up isOpen')

theorem paced_ofSettings (serverName date : Bytes) (queueCapacity maxBody : Nat) (stopped : Bool) :
    Paced queueCapacity 0 (ofSettings serverName date queueCapacity maxBody stopped) where
  le_served := Nat.le_refl _
  served_le := Nat.zero_le _
  served_eq _ := rfl
  called_le := Nat.zero_le _
  called_le_stages _ := Nat.zero_le _
  halted shut := nomatch shut

theorem paced_run {es : List Event} {notes : List Note} {count : Nat} (p : Paced capacity count c)
    (s : c.Sane) (b : Balanced capacity c.reader c.queue) (h : c.run es = some (c', notes)) :
    Paced capacity (count + flushed es) c' := by
  induction es generalizing c notes count with
  | nil =>
    cases h
    exact p
  | cons e es ih =>
    obtain ⟨m, note, rest, hs, hr, rfl⟩ := run_cons h
    have step := step_cases hs
    rw [flushed_cons, ← Nat.add_assoc]
    exact ih (step.paced p s b) (s.step step) (step.balanced b s) hr

theorem invariants_of_run (serverName date : Bytes) (queueCapacity maxBody : Nat) (stopped : Bool)
    {es : List Event} {notes : List Note}
    (run : (ofSettings serverName date queueCapacity maxBody stopped).run es = some (c, notes)) :
    c.Sane ∧ Balanced queueCapacity c.reader c.queue ∧ Paced queueCapacity (flushed es) c := by
  have start := sane_ofSettings serverName date queueCapacity maxBody stopped
  have b := Balanced.ofCapacity queueCapacity
  have p := paced_run (paced_ofSettings serverName date queueCapacity maxBody stopped) start b run
  rw [Nat.zero_add] at p
  exact ⟨sane_run start run, balanced_run b start run, p⟩

/-- **The queue bounds how far the handler gets ahead.**  Whatever the client, the handler and the
transport do: the entries of the queue and the slot that the reading loop holds are within the
capacity; what has been handed to the handler is at most one more than the capacity beyond the
replies that have been written and flushed; and at most one request has been counted that has not
been handed to the handler.  So from the moment at which the client takes no more replies, the
handler is called for at most one request more than the capacity, and at most two more are counted,
beyond the replies that the client has. -/
theorem backpressure_of_run (serverName date : Bytes) (queueCapacity maxBody : Nat) (stopped : Bool)
    {es : List Event} {c : Connection} {notes : List Note}
    (run : (ofSettings serverName date queueCapacity maxBody stopped).run es = some (c, notes)) :
    c.queue.slots.length + c.reader.held ≤ queueCapacity
      ∧ c.called ≤ flushed es + (queueCapacity + 1)
      ∧ c.called ≤ c.served ∧ c.served ≤ c.called + 1
      ∧ ∀ before after, es = before ++ after → (∀ e ∈ after, e ≠ .flush true) →
          c.called ≤ flushed before + (queueCapacity + 1)
            ∧ c.served ≤ flushed before + (queueCapacity + 2) := by
  obtain ⟨-, b, p⟩ := invariants_of_run serverName date queueCapacity maxBody stopped run
  have called := p.called_le
  have served := p.served_le
  refine ⟨b.slots_add_held_le, by omega, p.le_served, served, ?_⟩
  rintro before after rfl stalled
  have none : flushed after = 0 := by
    refine List.countP_eq_zero.mpr fun e he flush => stalled e he ?_
    unfold isFlush at flush
    split at flush
    · rfl
    · cases flush
  have split : flushed (before ++ after) = flushed before + flushed after := List.countP_append
  omega

/-- a client that takes nothing reaches both bounds: with a queue of one slot the handler is called
twice, and three requests are counted -/
theorem backpressure_of_run_stalled :
    let start := ofSettings (Bytes.ofAscii "s") (Bytes.ofAscii "d") 1 0 false
    let get := Bytes.ofAscii "GET / HTTP/1.1\r\n\r\n"
    let es : List Event := [.arrive (.octets (get ++ get ++ get ++ get)), .read, .read, .read,
      .read, .read, .reply .ok, .take, .read, .read, .read, .reply .ok, .read, .read]
    ∃ c notes, start.run es = some (c, notes) ∧ c.called = 2 ∧ c.served = 3
      ∧ c.queue.slots.length + c.reader.held ≤ 1
      ∧ c.called ≤ flushed [] + (1 + 1) ∧ c.served ≤ flushed [] + (1 + 2) := by
  intro start get es
  have counts : (start.run es).any fun m => m.1.called = 2 ∧ m.1.served = 3 := by decide +kernel
  obtain ⟨⟨c, notes⟩, run, counts⟩ := (Option.any_eq_true _ _).mp counts
  obtain ⟨called, served⟩ := of_decide_eq_true counts
  obtain ⟨slots, -, -, -, stalled⟩ := backpressure_of_run _ _ 1 0 false run
  have unflushed : ∀ e ∈ es, e ≠ .flush true := by simp [es]
  exact ⟨c, notes, run, called, served, slots, stalled [] es rfl unflushed⟩

end Connection

end PipelinedHttp
