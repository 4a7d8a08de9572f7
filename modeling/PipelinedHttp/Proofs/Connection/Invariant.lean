import PipelinedHttp.Proofs.Connection.Step
import PipelinedHttp.Proofs.Wire.Stream

/-!
# What holds of a connection at all times

The two loops touch different halves of a connection: a step of the reading loop leaves what the
writing loop works on (`Reading.writing_kept`), and the other way round (`Writing.reading_kept`).
They meet in the queue only.  `Sane` collects what holds of every connection that a run from a fresh
one can reach (`sane_run`), whatever the handler, the client and the transport do:

* the queue is open as long as the writing loop takes replies;
* the last mark is the last entry, and the reading loop has ended when it is there;
* a reading loop that awaits octets has decoded all that can be decoded;
* a reply that is being sent is not done yet;
* the stream is shut down once, by the writing loop as it ends.
-/

namespace PipelinedHttp

theorem Reply.encode_ne_nil (r : Reply) : r.encode ≠ [] := by
  intro h
  have length := congrArg List.length h
  unfold encode Bytes.crlf at length
  simp only [List.length_append, List.length_cons, List.length_nil] at length
  omega

namespace Connection

/-! ## the two halves -/

/-- the half of the writing loop is the same, and so is the end of the stream -/
structure WritingKept (c c' : Connection) : Prop where
  ending : c'.ending = c.ending
  serverName : c'.serverName = c.serverName
  date : c'.date = c.date
  writer : c'.writer = c.writer
  receiving : c'.queue.receiving = c.queue.receiving
  stopped : c'.stopped = c.stopped
  output : c'.output = c.output
  writes : c'.writes = c.writes
  flushes : c'.flushes = c.flushes
  shutdowns : c'.shutdowns = c.shutdowns

/-- the half of the reading loop is the same, but for the slot that it may have been granted -/
structure ReadingKept (c c' : Connection) : Prop where
  inbox : c'.inbox = c.inbox
  ending : c'.ending = c.ending
  buffer : c'.buffer = c.buffer
  decoder : c'.decoder = c.decoder
  served : c'.served = c.served
  called : c'.called = c.called
  reader : c'.reader = c.reader ∨ ∃ n, c.reader = .waiting n ∧ c'.reader = .granted n

theorem WritingKept.want {c m : Connection} (h : WritingKept c m) (n : Need) :
    WritingKept c (m.want n) := by
  obtain ⟨reader, queue, e, _, receiving, _⟩ := want_spec m n
  rw [e]
  exact ⟨h.ending, h.serverName, h.date, h.writer, receiving.trans h.receiving, h.stopped, h.output,
    h.writes, h.flushes, h.shutdowns⟩

theorem Reading.writing_kept {c c' : Connection} {e : Event} {note : Option Note}
    (h : Reading c e c' note) : WritingKept c c' := by
  cases h with
  | begin | more | piece | refused | call | mark | reply =>
    exact ⟨rfl, rfl, rfl, rfl, rfl, rfl, rfl, rfl, rfl, rfl⟩
  | haltIdle | halt | request | failed | ended | cut | late | broken | replyLast =>
    refine .want ?_ _
    exact ⟨rfl, rfl, rfl, rfl, rfl, rfl, rfl, rfl, rfl, rfl⟩

theorem ReadingKept.handOver {c m : Connection} (h : ReadingKept c m) (same : m.reader = c.reader)
    (ticket : Option Unit) : ReadingKept c (m.handOver ticket) := by
  rcases handOver_spec m ticket with e | ⟨n, waiting, e⟩
  · rw [e]
    exact h
  · rw [e]
    exact ⟨h.inbox, h.ending, h.buffer, h.decoder, h.served, h.called,
      .inr ⟨n, same ▸ waiting, rfl⟩⟩

theorem Writing.reading_kept {c c' : Connection} {e : Event} {note : Option Note}
    (h : Writing c e c' note) : ReadingKept c c' := by
  cases h with
  | take =>
    refine .handOver ?_ ?_ _
    · exact ⟨rfl, rfl, rfl, rfl, rfl, rfl, .inl rfl⟩
    · rfl
  | takeLast | accept | acceptAll | stuck | refuse | flush | flushFailed | shutDown =>
    exact ⟨rfl, rfl, rfl, rfl, rfl, rfl, .inl rfl⟩

/-! ## the queue between them -/

theorem want_slots (c : Connection) (n : Need) : (c.want n).queue.slots = c.queue.slots := by
  obtain ⟨reader, queue, e, slots, _⟩ := want_spec c n
  rw [e]
  exact slots

theorem Reading.reader_ne_closed {c c' : Connection} {e : Event} {note : Option Note}
    (h : Reading c e c' note) : c.reader ≠ .closed := by
  intro closed
  cases h with
  | halt reader | refused reader =>
    rcases reader with reader | reader <;> rw [closed] at reader <;> cases reader
  | begin reader | haltIdle reader | more reader | request reader | failed reader | piece reader
  | ended reader | cut reader | late reader | broken reader | call reader | mark reader
  | replyLast r reader | reply r reader =>
    rw [closed] at reader
    cases reader

theorem Step.reader_closed {c c' : Connection} {e : Event} {note : Option Note}
    (h : Step c e c' note) (closed : c.reader = .closed) : c'.reader = .closed := by
  cases h with
  | arrive a => cases a <;> exact closed
  | stop => exact closed
  | reading h => exact absurd closed h.reader_ne_closed
  | writing h =>
    rcases h.reading_kept.reader with same | ⟨n, waiting, -⟩
    · exact same.trans closed
    · rw [closed] at waiting
      cases waiting

theorem Writing.writer_ne_closed {c c' : Connection} {e : Event} {note : Option Note}
    (h : Writing c e c' note) : c.writer ≠ .closed := by
  intro closed
  cases h with
  | take writer | takeLast writer | accept writer | acceptAll writer | stuck writer
  | refuse writer | flush writer | flushFailed writer | shutDown ok writer =>
    rw [closed] at writer
    cases writer

theorem Step.writer_closed {c c' : Connection} {e : Event} {note : Option Note}
    (h : Step c e c' note) (closed : c.writer = .closed) : c'.writer = .closed := by
  cases h with
  | arrive a => cases a <;> exact closed
  | stop => exact closed
  | reading h => exact h.writing_kept.writer.trans closed
  | writing h => exact absurd closed h.writer_ne_closed

/-- the reading loop adds at most one entry, and with the last mark it ends -/
theorem Reading.slots {c c' : Connection} {e : Event} {note : Option Note}
    (h : Reading c e c' note) :
    c'.queue.slots = c.queue.slots ∨ (∃ r, c'.queue.slots = c.queue.slots ++ [.reply r])
      ∨ c'.queue.slots = c.queue.slots ++ [.last] ∧ c'.reader = .closed := by
  cases h with
  | mark => exact .inr (.inr ⟨rfl, rfl⟩)
  | reply r => exact .inr (.inl ⟨_, rfl⟩)
  | replyLast r => exact .inr (.inl ⟨_, want_slots _ _⟩)
  | begin | more | piece | refused | call => exact .inl rfl
  | haltIdle | halt | request | failed | ended | cut | late | broken =>
    exact .inl (want_slots _ _)

theorem want_reader_ne_awaiting (c : Connection) (n : Need) : (c.want n).reader ≠ .awaiting := by
  obtain ⟨reader, queue, e, _, _, closed, open_⟩ := want_spec c n
  rw [e]
  intro awaiting
  have awaiting : reader = .awaiting := awaiting
  cases h : c.queue.receiving with
  | false =>
    rw [(closed h).1] at awaiting
    cases awaiting
  | true => rcases open_ h with e | e <;> rw [e] at awaiting <;> cases awaiting

/-- the reading loop awaits octets after a turn that has asked for them -/
theorem Reading.awaiting {c c' : Connection} {e : Event} {note : Option Note}
    (h : Reading c e c' note) (awaiting : c'.reader = .awaiting) :
    c'.decoder.decode c'.buffer = ⟨.more, c'.decoder, c'.buffer⟩ := by
  cases h with
  | more _ _ turn => exact Wire.Decoder.decode_again turn
  | haltIdle | halt | request | failed | ended | cut | late | broken | replyLast =>
    exact absurd awaiting (want_reader_ne_awaiting _ _)
  | begin | piece | refused | call | mark | reply => cases awaiting

theorem finished_iff {c : Connection} :
    c.finished = true ↔ c.reader = .closed ∧ c.writer = .closed := by
  unfold finished
  cases c.reader <;> cases c.writer <;> simp

/-- a connection that has ended does not go on -/
theorem finished_run {c c' : Connection} {es : List Event} {notes : List Note}
    (finished : c.finished = true) (h : c.run es = some (c', notes)) : c'.finished = true := by
  refine run_invariant (P := fun c => c.finished = true) (fun step finished => ?_) finished h
  obtain ⟨reader, writer⟩ := finished_iff.mp finished
  exact finished_iff.mpr ⟨step.reader_closed reader, step.writer_closed writer⟩

/-! ## the invariant -/

/-- what holds at all times -/
structure Sane (c : Connection) : Prop where
  open_iff : c.queue.receiving = true ↔ c.writer ≠ .closing ∧ c.writer ≠ .closed
  last_is_last : ∀ front rest, c.queue.slots = front ++ .last :: rest →
    rest = [] ∧ c.reader = .closed
  awaiting : c.reader = .awaiting → c.decoder.decode c.buffer = ⟨.more, c.decoder, c.buffer⟩
  sending : ∀ left, c.writer = .sending left → left ≠ []
  shut : c.writer = .closed → c.shutdowns = 1
  not_shut : c.writer ≠ .closed → c.shutdowns = 0

/-- there is no last mark while the reading loop goes on -/
theorem Sane.no_last {c : Connection} (h : c.Sane) (reading : c.reader ≠ .closed)
    (front rest : List Slot) : c.queue.slots ≠ front ++ .last :: rest :=
  fun e => reading (h.last_is_last front rest e).2

theorem Sane.closed_iff {c : Connection} (h : c.Sane) :
    c.queue.receiving = false ↔ c.writer = .closing ∨ c.writer = .closed := by
  rw [← Bool.not_eq_true, h.open_iff]
  cases c.writer <;> simp

theorem last_of_concat {slots front rest : List Slot} {x : Slot}
    (noLast : ∀ front rest, slots ≠ front ++ .last :: rest)
    (e : slots ++ [x] = front ++ .last :: rest) : rest = [] ∧ x = .last := by
  rcases List.eq_nil_or_concat rest with rfl | ⟨rest', y, rfl⟩
  · exact ⟨rfl, List.head_eq_of_cons_eq (List.append_inj' e rfl).2⟩
  · rw [List.concat_eq_append, ← List.cons_append, ← List.append_assoc] at e
    exact absurd (List.append_inj' e rfl).1 (noLast front rest')

theorem Sane.reading {c c' : Connection} {e : Event} {note : Option Note} (s : c.Sane)
    (h : Reading c e c' note) : c'.Sane := by
  have kept := h.writing_kept
  have noLast := s.no_last h.reader_ne_closed
  refine ⟨?_, ?_, h.awaiting, ?_, ?_, ?_⟩
  · rw [kept.receiving, kept.writer]
    exact s.open_iff
  · intro front rest e'
    rcases h.slots with same | ⟨r, added⟩ | ⟨added, closed⟩
    · rw [same] at e'
      exact absurd e' (noLast front rest)
    · rw [added] at e'
      have mark := (last_of_concat noLast e').2
      cases mark
    · rw [added] at e'
      exact ⟨(last_of_concat noLast e').1, closed⟩
  · rw [kept.writer]
    exact s.sending
  · rw [kept.writer, kept.shutdowns]
    exact s.shut
  · rw [kept.writer, kept.shutdowns]
    exact s.not_shut

theorem Sane.last_of_take {c : Connection} {x : Slot} {slots : List Slot} (s : c.Sane)
    (h : c.queue.slots = x :: slots) (front rest : List Slot) (e : slots = front ++ .last :: rest) :
    rest = [] ∧ c.reader = .closed :=
  s.last_is_last (x :: front) rest (by rw [h, e]; rfl)

theorem Writing.isOpen {c c' : Connection} {e : Event} {note : Option Note} (s : c.Sane)
    (h : Writing c e c' note) (h' : ∀ ok, e ≠ .shutDown ok) : c.queue.receiving = true := by
  refine s.open_iff.mpr ?_
  cases h with
  | shutDown ok => exact absurd rfl (h' ok)
  | take writer | takeLast writer | accept writer | acceptAll writer | stuck writer | refuse writer
  | flush writer | flushFailed writer =>
    rw [writer]
    exact ⟨nofun, nofun⟩

theorem Sane.handOver {c : Connection} (s : c.Sane) (ticket : Option Unit) :
    (c.handOver ticket).Sane := by
  rcases handOver_spec c ticket with e | ⟨n, waiting, e⟩
  · rw [e]
    exact s
  · rw [e]
    refine ⟨s.open_iff, fun front rest e' => ?_, nofun, s.sending, s.shut, s.not_shut⟩
    have closed := (s.last_is_last front rest e').2
    rw [waiting] at closed
    cases closed

theorem Sane.sends {c : Connection} {w : Writer} (s : c.Sane) (isOpen : c.queue.receiving = true)
    (h : w ≠ .closing ∧ w ≠ .closed) (sending : ∀ left, w = .sending left → left ≠ [])
    (output : Bytes) (writes flushes : Nat) :
    Sane { c with writer := w, output, writes, flushes } where
  open_iff := ⟨fun _ => h, fun _ => isOpen⟩
  last_is_last := s.last_is_last
  awaiting := s.awaiting
  sending := sending
  shut e := absurd e h.2
  not_shut _ := s.not_shut (s.open_iff.mp isOpen).2

/-- the writing loop closes the queue, at the last mark or at a failed write -/
theorem Sane.closes {c : Connection} {queue : ReplyQueue Unit} (s : c.Sane)
    (isOpen : c.queue.receiving = true) (receiving : queue.receiving = true) (stopped : Bool)
    (writes flushes : Nat) :
    Sane { c with stopped, queue := queue.close, writer := .closing, writes, flushes } where
  open_iff := by
    show queue.close.receiving = true ↔ _
    rw [ReplyQueue.close_receiving]
    exact ⟨nofun, fun open_ => absurd rfl open_.1⟩
  last_is_last front rest e := by
    have e : queue.close.slots = front ++ .last :: rest := e
    rw [ReplyQueue.close_slots receiving] at e
    exact absurd e.symm (List.append_ne_nil_of_right_ne_nil _ (List.cons_ne_nil _ _))
  awaiting := s.awaiting
  sending := nofun
  shut := nofun
  not_shut _ := s.not_shut (s.open_iff.mp isOpen).2

theorem Sane.writing {c c' : Connection} {e : Event} {note : Option Note} (s : c.Sane)
    (h : Writing c e c' note) : c'.Sane := by
  have isOpen := h.isOpen s
  cases h with
  | @take r ticket queue writer taken =>
    obtain ⟨slots, receiving⟩ := ReplyQueue.take?_eq_some taken
    refine Sane.handOver ?_ ticket
    refine ⟨?_, s.last_of_take slots, s.awaiting, ?_, nofun, ?_⟩
    · exact ⟨fun _ => ⟨nofun, nofun⟩, fun _ => receiving.trans (isOpen nofun)⟩
    · intro left sending
      cases sending
      exact Reply.encode_ne_nil _
    · intro _
      exact s.not_shut (by rw [writer]; exact nofun)
  | takeLast writer taken =>
    have receiving := (ReplyQueue.take?_eq_some taken).2
    exact s.closes (isOpen nofun) (receiving.trans (isOpen nofun)) _ _ _
  | @accept left n writer pos lt =>
    refine s.sends (isOpen nofun) ?_ ?_ _ _ _
    · exact ⟨nofun, nofun⟩
    · intro left' sending
      cases sending
      exact List.ne_nil_of_length_pos (by rw [List.length_drop]; omega)
  | acceptAll writer | flush writer =>
    refine s.sends (isOpen nofun) ?_ ?_ _ _ _
    · exact ⟨nofun, nofun⟩
    · exact nofun
  | stuck writer | refuse writer | flushFailed writer =>
    exact s.closes (isOpen nofun) (isOpen nofun) _ _ _
  | shutDown ok writer =>
    refine ⟨?_, s.last_is_last, s.awaiting, nofun, fun _ => ?_, fun open_ => absurd rfl open_⟩
    · rw [s.open_iff, writer]
      exact ⟨fun open_ => absurd rfl open_.1, fun open_ => absurd rfl open_.2⟩
    · show c.shutdowns + 1 = 1
      rw [s.not_shut (by rw [writer]; exact nofun)]

theorem Sane.step {c c' : Connection} {e : Event} {note : Option Note} (s : c.Sane)
    (h : Step c e c' note) : c'.Sane := by
  cases h with
  | reading h => exact s.reading h
  | writing h => exact s.writing h
  | stop => exact ⟨s.open_iff, s.last_is_last, s.awaiting, s.sending, s.shut, s.not_shut⟩
  | arrive a =>
    cases a <;> exact ⟨s.open_iff, s.last_is_last, s.awaiting, s.sending, s.shut, s.not_shut⟩

theorem sane_ofSettings (serverName date : Bytes) (queueCapacity maxBody : Nat) (stopped : Bool) :
    (ofSettings serverName date queueCapacity maxBody stopped).Sane where
  open_iff := ⟨fun _ => ⟨nofun, nofun⟩, fun _ => rfl⟩
  last_is_last _ _ e :=
    absurd e.symm (List.append_ne_nil_of_right_ne_nil _ (List.cons_ne_nil _ _))
  awaiting := nofun
  sending := nofun
  shut := nofun
  not_shut _ := rfl

theorem sane_run {c c' : Connection} {es : List Event} {notes : List Note} (s : c.Sane)
    (h : c.run es = some (c', notes)) : c'.Sane :=
  run_invariant (fun step s => s.step step) s h

end Connection

end PipelinedHttp
