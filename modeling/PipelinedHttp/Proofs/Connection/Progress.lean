import PipelinedHttp.Proofs.Connection.Slots

/-!
# The loops of a connection never block each other

A loop waits when its next step is not possible.  The reading loop can wait for the client, for the
handler and for a slot, the writing loop for an entry and for the transport.  Client, handler and
transport are outside of the connection; a slot and an entry are what one loop has from the other.

* `waitsForClient_iff`, `waits_of_read_eq_none`, `take_isSome`   what it takes for a loop to wait;
* `stopped_of_run`     a stop is never taken back, and a failed write is one;
* `never_deadlocked`   no loop waits for the other in vain: as long as they have not ended, some step
                       is possible or something from outside is missing.
-/

namespace PipelinedHttp.Connection
variable {c c' : Connection} {e : Event} {note : Option Note}

/-! ## waiting -/

/-- the reading loop waits for a slot -/
def WaitsForSlot (c : Connection) : Prop := (∃ n, c.reader = .waiting n) ∧ c.step .read = none

/-- the reading loop waits for more from the client -/
def WaitsForClient (c : Connection) : Prop := c.reader = .awaiting ∧ c.step .read = none

/-- the reading loop waits for the handler -/
def WaitsForHandler (c : Connection) : Prop := ∃ r, c.reader = .handling r

/-- the writing loop waits at an empty queue -/
def WaitsForEntry (c : Connection) : Prop := c.writer = .idle ∧ c.queue.slots = []

/-- the writing loop waits until the transport has written, flushed or shut down -/
def WaitsForTransport (c : Connection) : Prop :=
  (∃ left, c.writer = .sending left) ∨ c.writer = .flushing ∨ c.writer = .closing

/-- the writing loop has let the queue go -/
def WriterGone (c : Connection) : Prop := c.writer = .closing ∨ c.writer = .closed

theorem waitsForClient_iff : c.WaitsForClient
    ↔ c.reader = .awaiting ∧ c.stopped = false ∧ c.inbox = [] ∧ c.ending = none := by
  refine and_congr_right fun awaiting => ?_
  show c.read = none ↔ _
  unfold read
  rw [awaiting]
  cases c.stopped with
  | true => simp
  | false =>
    cases c.inbox with
    | cons s inbox => simp
    | nil =>
      cases c.ending with
      | none => simp
      | some ending => cases ending <;> simp

theorem waits_of_read_eq_none (h : c.step .read = none) :
    c.WaitsForClient ∨ ((∃ n, c.reader = .waiting n) ∧ c.queue.receiving = true)
      ∨ c.WaitsForHandler ∨ c.reader = .closed := by
  have stuck : c.read = none := h
  unfold read at stuck
  split at stuck
  · dsimp only at stuck
    split at stuck <;> cases stuck
  · split at stuck <;> cases stuck
  · rename_i awaiting
    exact .inl ⟨awaiting, h⟩
  · rename_i n waiting
    split at stuck
    · rename_i isOpen
      exact .inr (.inl ⟨⟨n, waiting⟩, isOpen⟩)
    · cases stuck
  · split at stuck
    · cases stuck
    · split at stuck <;> cases stuck
  · rename_i request handling
    exact .inr (.inr (.inl ⟨request, handling⟩))
  · rename_i closed
    exact .inr (.inr (.inr closed))

theorem take_isSome (idle : c.writer = .idle) (some : c.queue.slots ≠ []) :
    (c.step .take).isSome := by
  obtain ⟨x, slots, cons⟩ := List.exists_cons_of_ne_nil some
  show c.take.isSome
  unfold take ReplyQueue.take?
  rw [idle, cons]
  cases x <;> rfl

/-! ## what the loops have from each other -/

section
variable {capacity : Nat}

theorem slots_of_waiting {n : Need} (b : Balanced capacity c.reader c.queue) (pos : 1 ≤ capacity)
    (waiting : c.reader = .waiting n) (isOpen : c.queue.receiving = true) : c.queue.slots ≠ [] := by
  rw [waiting] at b
  refine List.ne_nil_of_length_pos ?_
  rw [b.length_of_waiting isOpen]
  exact pos

theorem slots_of_closed (b : Balanced capacity c.reader c.queue) (closed : c.reader = .closed)
    (isOpen : c.queue.receiving = true) : c.queue.slots ≠ [] := by
  obtain ⟨front, marked⟩ := b.marked isOpen closed
  rw [marked]
  exact List.append_ne_nil_of_right_ne_nil _ (List.cons_ne_nil _ _)

theorem WaitsForSlot.receiving (h : c.WaitsForSlot) : c.queue.receiving = true := by
  obtain ⟨⟨n, waiting⟩, stuck⟩ := h
  rcases waits_of_read_eq_none stuck with ⟨reader, -⟩ | ⟨-, isOpen⟩ | ⟨r, reader⟩ | reader
  · rw [waiting] at reader
    cases reader
  · exact isOpen
  · rw [waiting] at reader
    cases reader
  · rw [waiting] at reader
    cases reader

end

/-! ## stops -/

theorem Step.stopped_mono (h : Step c e c' note) (stopped : c.stopped = true) :
    c'.stopped = true := by
  cases h with
  | arrive a => cases a <;> exact stopped
  | stop => rfl
  | reading h => exact h.writing_kept.stopped.trans stopped
  | writing h =>
    cases h with
    | @take r ticket queue =>
      rcases handOver_spec { c with
        queue, writer := .sending (r.stamp c.serverName c.date).encode } ticket with e | ⟨n, _, e⟩
        <;> rw [e] <;> exact stopped
    | stuck | refuse | flushFailed => rfl
    | takeLast | accept | acceptAll | flush | shutDown => exact stopped

theorem Step.stopped_of_respondError (h : Step c e c' note)
    (counted : note = some .respondError) : c'.stopped = true := by
  cases h with
  | arrive | stop => cases counted
  | reading h => cases h <;> cases counted
  | writing h =>
    cases h with
    | stuck | refuse | flushFailed => rfl
    | take | takeLast | accept | acceptAll | flush | shutDown => cases counted

theorem stopped_of_run {es : List Event} {notes : List Note} (h : c.run es = some (c', notes))
    (stopped : c.stopped = true ∨ .respondError ∈ notes) : c'.stopped = true := by
  induction es generalizing c notes with
  | nil =>
    cases h
    exact stopped.resolve_right nofun
  | cons e es ih =>
    obtain ⟨m, note, rest, hs, hr, rfl⟩ := run_cons h
    have step := step_cases hs
    refine ih hr ?_
    rcases stopped with stopped | counted
    · exact .inl (step.stopped_mono stopped)
    · rcases List.mem_append.mp counted with first | later
      · exact .inl (step.stopped_of_respondError (Option.mem_toList.mp first))
      · exact .inr later

/-! ## no deadlock -/

/-- when neither loop can go on, both have ended, or something from outside is missing -/
theorem finished_of_stuck {capacity : Nat} (s : c.Sane) (b : Balanced capacity c.reader c.queue)
    (pos : 1 ≤ capacity) (read : c.step .read = none) (take : c.step .take = none) :
    c.finished = true ∨ c.WaitsForClient ∨ c.WaitsForHandler ∨ c.WaitsForTransport := by
  have busy (some : c.queue.receiving = true → c.queue.slots ≠ []) :
      c.WaitsForTransport ∨ c.writer = .closed := by
    cases writer : c.writer with
    | sending left => exact .inl (.inl ⟨left, writer⟩)
    | flushing => exact .inl (.inr (.inl writer))
    | closing => exact .inl (.inr (.inr writer))
    | closed => exact .inr rfl
    | idle =>
      have isOpen : c.queue.receiving = true := s.open_iff.mpr (by rw [writer]; exact ⟨nofun, nofun⟩)
      have possible := take_isSome writer (some isOpen)
      rw [take] at possible
      cases possible
  rcases waits_of_read_eq_none read with client | ⟨⟨n, waiting⟩, isOpen⟩ | handler | closed
  · exact .inr (.inl client)
  · refine .inr (.inr (.inr ?_))
    refine (busy fun _ => slots_of_waiting b pos waiting isOpen).resolve_right ?_
    exact (s.open_iff.mp isOpen).2
  · exact .inr (.inr (.inl handler))
  · rcases busy fun isOpen => slots_of_closed b closed isOpen with transport | gone
    · exact .inr (.inr (.inr transport))
    · exact .inl (finished_iff.mpr ⟨closed, gone⟩)

/-- **The two loops never deadlock.**  Whatever the client, the handler and the transport do: the
reading loop does not wait for a slot while the writing loop waits at an empty queue or is gone; the
writing loop does not wait at an empty queue when the reading loop has ended; and the reading loop
does not wait for the client when the connection is stopped or a write has failed.  So when no step
of either loop is possible and nothing from outside is missing, both have ended. -/
theorem never_deadlocked (serverName date : Bytes) {queueCapacity : Nat} (maxBody : Nat)
    (stopped : Bool) (pos : 1 ≤ queueCapacity) {es : List Event} {c : Connection}
    {notes : List Note}
    (run : (ofSettings serverName date queueCapacity maxBody stopped).run es = some (c, notes)) :
    (c.WaitsForSlot → ¬ c.WaitsForEntry ∧ ¬ c.WriterGone)
      ∧ (c.reader = .closed → ¬ c.WaitsForEntry)
      ∧ (c.stopped = true ∨ .respondError ∈ notes → ¬ c.WaitsForClient)
      ∧ (c.step .read = none → c.step .take = none →
          c.finished = true ∨ c.WaitsForClient ∨ c.WaitsForHandler ∨ c.WaitsForTransport) := by
  have start := sane_ofSettings serverName date queueCapacity maxBody stopped
  have s := sane_run start run
  have b := balanced_run (.ofCapacity queueCapacity) start run
  refine ⟨fun slot => ⟨?_, ?_⟩, ?_, ?_, finished_of_stuck s b pos⟩
  · rintro ⟨-, empty⟩
    have isOpen := slot.receiving
    obtain ⟨⟨n, waiting⟩, -⟩ := slot
    exact slots_of_waiting b pos waiting isOpen empty
  · intro gone
    have shut := s.closed_iff.mpr gone
    rw [slot.receiving] at shut
    cases shut
  · rintro closed ⟨idle, empty⟩
    have isOpen : c.queue.receiving = true := s.open_iff.mpr (by rw [idle]; exact ⟨nofun, nofun⟩)
    exact slots_of_closed b closed isOpen empty
  · intro halt client
    have halt : c.stopped = true := halt.elim id fun counted => stopped_of_run run (.inr counted)
    rw [(waitsForClient_iff.mp client).2.1] at halt
    cases halt

/-- with a queue of one slot the reading loop waits at its second request for the reply to the first
one to be taken -/
theorem never_deadlocked_full_queue :
    let start := ofSettings (Bytes.ofAscii "s") (Bytes.ofAscii "d") 1 0 false
    let es : List Event := [.arrive (.octets (Bytes.ofAscii
      "GET / HTTP/1.1\r\n\r\nGET / HTTP/1.1\r\n\r\n")), .read, .read, .read, .read, .read,
      .reply .ok, .read, .read]
    ∃ c notes, start.run es = some (c, notes) ∧ c.WaitsForSlot ∧ ¬ c.WaitsForEntry
      ∧ ¬ c.WriterGone := by
  intro start es
  have waits : (start.run es).any fun m => m.1.reader.line = [()] ∧ (m.1.step .read).isNone := by
    decide +kernel
  obtain ⟨⟨c, notes⟩, run, waits⟩ := (Option.any_eq_true _ _).mp waits
  obtain ⟨line, stuck⟩ := of_decide_eq_true waits
  have slot : c.WaitsForSlot := by
    refine ⟨?_, Option.isNone_iff_eq_none.mp stuck⟩
    cases reader : c.reader with
    | waiting n => exact ⟨n, rfl⟩
    | idle | decoding | awaiting | granted | handling | closed =>
      rw [show c.reader.line = [] by rw [reader]; rfl] at line
      cases line
  exact ⟨c, notes, run, slot, (never_deadlocked _ _ 0 false (Nat.le_refl 1) run).1 slot⟩

end PipelinedHttp.Connection
