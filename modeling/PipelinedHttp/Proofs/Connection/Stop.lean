import PipelinedHttp.Proofs.Connection.Backpressure

/-!
# A connection that is stopped

A stop does not take anything away that has been counted.  From then on no request is counted, and a
request that has been counted and not been handed to the handler is the only one that still can be;
what is queued is written, and then the connection ends.

* `effort`             how many steps the two loops have left at most, but for writes;
* `Step.effort_le`     each of their steps takes some of it, or writes octets;
* `goes_on_of_stopped` as long as they have not ended, one of them can go on without the client;
* `drains_of_run`      what all of this makes of a run.
-/

namespace PipelinedHttp

/-! ## the effort that is left

An entry of the queue counts three: to be taken, written and flushed. -/

def Need.effort : Need → Nat
  | .last => 4
  | .request _ => 10

def Reader.effort : Reader → Nat
  | .idle | .decoding | .awaiting => 5
  | .waiting n | .granted n => n.effort
  | .handling _ => 9
  | .closed => 0

def Writer.effort : Writer → Nat
  | .idle => 2
  | .sending _ => 4
  | .flushing => 3
  | .closing => 1
  | .closed => 0

theorem Need.effort_ge (n : Need) : 4 ≤ n.effort := by
  cases n <;> simp [effort]

namespace Connection
variable {c c' : Connection} {e : Event} {note : Option Note} {capacity : Nat}

def effort (c : Connection) : Nat := c.reader.effort + c.writer.effort + 3 * c.queue.slots.length

theorem want_effort (c : Connection) (n : Need) :
    (c.want n).effort ≤ n.effort + c.writer.effort + 3 * c.queue.slots.length := by
  have reader (reader : Reader) (le : reader.effort ≤ n.effort) :
      reader.effort + c.writer.effort + 3 * c.queue.slots.length
        ≤ n.effort + c.writer.effort + 3 * c.queue.slots.length := by omega
  rcases c.want_cases n with ⟨-, e⟩ | ⟨-, -, e⟩ | ⟨-, -, e⟩
  · rw [e]
    exact reader .closed (Nat.zero_le _)
  · rw [e]
    exact reader (.granted n) (Nat.le_refl _)
  · rw [e]
    exact reader (.waiting n) (Nat.le_refl _)

theorem Reading.effort_lt (stopped : c.stopped = true) (h : Reading c e c' note) :
    c'.effort < c.effort := by
  have go {P : Prop} (running : c.stopped = false) : P := by
    rw [stopped] at running
    cases running
  have length (s : Slot) : (c.queue.put s).slots.length = c.queue.slots.length + 1 := by
    simp [ReplyQueue.put]
  cases h with
  | begin _ running | more _ running | request _ running | failed _ running | piece _ running
  | ended _ running | cut _ running | late _ running | broken _ running => exact go running
  | haltIdle reader =>
    refine Nat.lt_of_le_of_lt (want_effort _ _) ?_
    show 4 + c.writer.effort + 3 * c.queue.slots.length < c.effort
    unfold effort
    rw [reader]
    show _ < 5 + _ + _
    omega
  | halt reader =>
    refine Nat.lt_of_le_of_lt (want_effort _ _) ?_
    have five : c.reader.effort = 5 := by rcases reader with e | e <;> rw [e] <;> rfl
    show 4 + c.writer.effort + 3 * c.queue.slots.length < c.effort
    unfold effort
    omega
  | @refused n reader =>
    have effort : c.reader.effort = n.effort := by rcases reader with e | e <;> rw [e] <;> rfl
    have ge := n.effort_ge
    show 0 + c.writer.effort + 3 * c.queue.slots.length < _ + _ + _
    omega
  | call reader =>
    unfold effort
    rw [reader]
    show 9 + c.writer.effort + 3 * c.queue.slots.length < 10 + _ + _
    omega
  | mark reader =>
    unfold effort
    rw [reader, length]
    show 0 + c.writer.effort + _ < 4 + c.writer.effort + _
    omega
  | replyLast r reader =>
    refine Nat.lt_of_le_of_lt (want_effort _ _) ?_
    unfold effort
    rw [reader, length]
    show 4 + c.writer.effort + _ < 9 + c.writer.effort + _
    omega
  | reply r reader =>
    unfold effort
    rw [reader, length]
    show 5 + c.writer.effort + _ < 9 + c.writer.effort + _
    omega

theorem Writing.effort_lt (h : Writing c e c' note) :
    c'.effort + c.output.length < c.effort + c'.output.length := by
  have moves (writer : Writer) {slots : Nat} {output : Bytes}
      (less : writer.effort + 3 * slots + c.output.length
        < c.writer.effort + 3 * c.queue.slots.length + output.length) :
      c.reader.effort + writer.effort + 3 * slots + c.output.length
        < c.effort + output.length := by
    unfold effort
    omega
  have closes := c.queue.length_close_le
  cases h with
  | @take r ticket queue writer taken =>
    obtain ⟨slots, -⟩ := ReplyQueue.take?_eq_some taken
    have same : (handOver { c with
        queue, writer := .sending (r.stamp c.serverName c.date).encode } ticket).effort
        = c.reader.effort + 4 + 3 * queue.slots.length := by
      rcases handOver_spec { c with
        queue, writer := .sending (r.stamp c.serverName c.date).encode } ticket with
        e | ⟨n, waiting, e⟩
      · rw [e]
        rfl
      · have waiting : c.reader = .waiting n := waiting
        rw [e, waiting]
        rfl
    rw [same, handOver_output]
    refine moves (.sending []) ?_
    simp only [writer, slots, Writer.effort, List.length_cons]
    omega
  | @takeLast ticket queue writer taken =>
    obtain ⟨slots, -⟩ := ReplyQueue.take?_eq_some taken
    have le := queue.length_close_le
    refine moves _ ?_
    simp only [writer, slots, Writer.effort, List.length_cons]
    omega
  | @accept left n writer pos lt =>
    refine moves _ ?_
    simp only [writer, Writer.effort, List.length_append, List.length_take]
    omega
  | acceptAll writer =>
    refine moves _ ?_
    simp only [writer, Writer.effort, List.length_append]
    omega
  | stuck writer | refuse writer | flush writer | flushFailed writer | shutDown ok writer =>
    refine moves _ ?_
    simp only [writer, Writer.effort, fail]
    omega

/-- a step of a stopped connection takes some of the effort, or writes octets -/
theorem Step.effort_le (stopped : c.stopped = true) (h : Step c e c' note) :
    c'.effort + [e].countP isOwn + c.output.length ≤ c.effort + c'.output.length := by
  have one : [e].countP isOwn ≤ 1 := List.countP_le_length
  cases h with
  | arrive a => cases a <;> exact Nat.le_refl _
  | stop => exact Nat.le_refl _
  | reading h =>
    have lt := h.effort_lt stopped
    rw [h.writing_kept.output]
    omega
  | writing h =>
    have lt := h.effort_lt
    omega

/-! ## what a stopped connection does -/

theorem Reading.counters (h : Reading c e c' note) :
    (c'.served = c.served ∨ c.stopped = false) ∧ c.called ≤ c'.called := by
  have want (m : Connection) (n : Need) (called : m.called = c.called) :
      (m.want n).served = m.served ∧ c.called ≤ (m.want n).called := by
    obtain ⟨served, same, -⟩ := want_stages m n
    exact ⟨served, Nat.le_of_eq (same.trans called).symm⟩
  cases h with
  | request _ running | late _ running => exact ⟨.inr running, (want _ _ (by rfl)).2⟩
  | haltIdle | halt | failed | ended | cut | broken | replyLast =>
    exact ⟨.inl (want _ _ (by rfl)).1, (want _ _ (by rfl)).2⟩
  | call => exact ⟨.inl rfl, Nat.le_succ _⟩
  | begin | more | piece | refused | mark | reply => exact ⟨.inl rfl, Nat.le_refl _⟩

theorem Step.counters (h : Step c e c' note) :
    (c'.served = c.served ∨ c.stopped = false) ∧ c.called ≤ c'.called := by
  cases h with
  | arrive a => cases a <;> exact ⟨.inl rfl, Nat.le_refl _⟩
  | stop => exact ⟨.inl rfl, Nat.le_refl _⟩
  | reading h => exact h.counters
  | writing h =>
    have kept := h.reading_kept
    exact ⟨.inl kept.served, Nat.le_of_eq kept.called.symm⟩

/-- as long as it has not ended, one of the loops can go on as soon as the handler and the transport
let it, and without more from the client -/
theorem goes_on_of_stopped (s : c.Sane) (b : Balanced capacity c.reader c.queue)
    (pos : 1 ≤ capacity) (stopped : c.stopped = true) :
    c.finished = true ∨ ∃ e, isOwn e = true ∧ ¬ Fails e ∧ (c.step e).isSome = true := by
  cases read : c.step .read with
  | some r => exact .inr ⟨.read, rfl, id, by rw [read]; rfl⟩
  | none =>
    cases take : c.step .take with
    | some r => exact .inr ⟨.take, rfl, id, by rw [take]; rfl⟩
    | none =>
      rcases finished_of_stuck s b pos read take with finished | client | ⟨request, handling⟩ |
        ⟨left, sending⟩ | flushing | closing
      · exact .inl finished
      · have running := (waitsForClient_iff.mp client).2.1
        rw [stopped] at running
        cases running
      · refine .inr ⟨.reply .ok, rfl, id, ?_⟩
        simp only [Connection.step, Connection.reply, handling]
        split <;> rfl
      · refine .inr ⟨.accept left.length, rfl, fun none => ?_, ?_⟩
        · exact s.sending left sending (List.length_eq_zero_iff.mp none)
        · simp [Connection.step, accept, sending]
      · refine .inr ⟨.flush true, rfl, fun fails => Bool.noConfusion fails, ?_⟩
        simp [Connection.step, flush, flushing]
      · refine .inr ⟨.shutDown true, rfl, id, ?_⟩
        simp [Connection.step, shutDown, closing]

/-! ## runs -/

/-- what the steps `es` make of a stopped connection -/
structure Drains (c c' : Connection) (es : List Event) : Prop where
  served : c'.served = c.served
  called_ge : c.called ≤ c'.called
  called_le : c'.called ≤ c.served
  /-- at most one request is in hand -/
  in_hand : c.served ≤ c.called + 1
  /-- the loops take only so many steps beside those that write octets -/
  steps : es.countP isOwn + c.output.length ≤ c.effort + c'.output.length

theorem stopped_steps {es : List Event} {notes : List Note} (stopped : c.stopped = true)
    (h : c.run es = some (c', notes)) :
    c'.served = c.served ∧ c.called ≤ c'.called
      ∧ c'.effort + es.countP isOwn + c.output.length ≤ c.effort + c'.output.length := by
  induction es generalizing c notes with
  | nil =>
    cases h
    exact ⟨rfl, Nat.le_refl _, Nat.le_refl _⟩
  | cons e es ih =>
    obtain ⟨m, note, rest, hs, hr, rfl⟩ := run_cons h
    have step := step_cases hs
    obtain ⟨served, called, effort⟩ := ih (step.stopped_mono stopped) hr
    have first := step.effort_le stopped
    have same : m.served = c.served := step.counters.1.resolve_right (by rw [stopped]; exact nofun)
    refine ⟨served.trans same, Nat.le_trans step.counters.2 called, ?_⟩
    rw [← List.singleton_append, List.countP_append]
    omega

theorem drains_of_run {flushed : Nat} {es : List Event} {notes : List Note} (s : c.Sane)
    (b : Balanced capacity c.reader c.queue) (p : Paced capacity flushed c)
    (stopped : c.stopped = true) (run : c.run es = some (c', notes)) : Drains c c' es := by
  obtain ⟨served, called, effort⟩ := stopped_steps stopped run
  have later := (paced_run p s b run).le_served
  exact ⟨served, called, by omega, p.served_le, by omega⟩

end Connection

end PipelinedHttp
