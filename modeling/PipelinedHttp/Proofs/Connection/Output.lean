import PipelinedHttp.Proofs.Connection.Script

/-!
# The output does not depend on the schedule

What a connection has written and what it still owes make up the same octets before and after each
step (`Step.conserved`).  What it owes is, in this order, the rest of the reply that is being
written, the replies in the queue, and the answers to the requests that are in hand or still in the
stream (`owed`).  A stop and a failed write make it owe less, and nothing makes it owe more.

* `Reading.unanswered_cases`   how a step of the reading loop moves the requests without a reply;
* `Writing.unsent_conserved`   a step of the writing loop moves octets to the output;
* `run_conserved`       what holds for each step holds for runs;
* `output_of_run`       whatever the schedule, the octets written are the answers to the requests
                        of the stream, up to the first that closes the connection: a prefix of them
                        at any time, and all of them in the end.

The buffers of a transport show in nothing but the pieces in which octets arrive and the numbers of
octets that are accepted, so a run has them all.
-/

namespace PipelinedHttp

/-- the front of `before`, and all of it if `p` holds -/
structure KeptIf (p : Prop) (before after : Bytes) : Prop where
  front : after <+: before
  all : p → after = before

namespace KeptIf
variable {p q : Prop} {s t u : Bytes}

theorem of_eq (h : t = s) : KeptIf p s t := ⟨h ▸ List.prefix_refl t, fun _ => h⟩

theorem of_not (h : t <+: s) (no : ¬ p) : KeptIf p s t := ⟨h, fun yes => absurd yes no⟩

theorem mono (h : KeptIf p s t) (imp : q → p) : KeptIf q s t := ⟨h.front, fun hq => h.all (imp hq)⟩

theorem trans (h : KeptIf p s t) (g : KeptIf p t u) : KeptIf p s u :=
  ⟨g.front.trans h.front, fun hp => (g.all hp).trans (h.all hp)⟩

theorem append (u : Bytes) (h : KeptIf p s t) : KeptIf p (u ++ s) (u ++ t) where
  front := (List.prefix_append_right_inj u).mpr h.front
  all hp := by rw [h.all hp]

end KeptIf

/-! ## what is owed -/

/-- the octets of an entry of the queue -/
def Slot.octets (serverName date : Bytes) : Slot → Bytes
  | .reply r => (r.stamp serverName date).encode
  | .last => []

def Writer.left : Writer → Bytes
  | .sending left => left
  | _ => []

def Need.unanswered (d : Wire.Decoder) (s : Bytes) : Need → List Request
  | .request r => upToClose (r :: d.reset.requests s)
  | .last => []

/-- the requests that have no reply yet, if the decoder is to be given `s` -/
def Reader.unanswered (d : Wire.Decoder) (s : Bytes) : Reader → List Request
  | .idle => upToClose (d.reset.requests s)
  | .decoding | .awaiting => upToClose (d.requests s)
  | .waiting n | .granted n => n.unanswered d s
  | .handling r => upToClose (r :: d.reset.requests s)
  | .closed => []

theorem Reader.unanswered_of_asks {reader : Reader} {n : Need} (h : Connection.Reader.Asks reader n)
    (d : Wire.Decoder) (s : Bytes) : reader.unanswered d s = n.unanswered d s := by
  rcases h with rfl | rfl <;> rfl

namespace Connection

/-- the octets that have not been decoded, if `t` is still to come -/
def coming (c : Connection) (t : Bytes) : Bytes := c.buffer ++ (c.inbox.flatten ++ t)

theorem arrive_coming (c : Connection) (a : Arrival) (rest : List Arrival) :
    (c.arrive a).coming (incoming rest) = c.coming (incoming (a :: rest)) := by
  cases a with
  | ended | failed => rfl
  | octets s =>
    show c.buffer ++ ((c.inbox ++ [s]).flatten ++ incoming rest)
      = c.buffer ++ (c.inbox.flatten ++ (s ++ incoming rest))
    rw [List.flatten_append, List.flatten_singleton, List.append_assoc]

theorem coming_of_piece {c : Connection} {p : Bytes} {inbox : List Bytes}
    (next : c.inbox = p :: inbox) (t : Bytes) :
    (c.buffer ++ p) ++ (inbox.flatten ++ t) = c.coming t := by
  rw [coming, next, List.flatten_cons, List.append_assoc, List.append_assoc]

theorem Writing.coming {c c' : Connection} {e : Event} {note : Option Note}
    (h : Writing c e c' note) (t : Bytes) : c'.coming t = c.coming t := by
  unfold Connection.coming
  rw [h.reading_kept.inbox, h.reading_kept.buffer]

def unanswered (c : Connection) (t : Bytes) : List Request :=
  c.reader.unanswered c.decoder (c.coming t)

/-- the replies that no writing has begun of, and the answers to the requests without a reply -/
def backlog (handler : Handler) (c : Connection) (t : Bytes) : Bytes :=
  c.queue.slots.flatMap (Slot.octets c.serverName c.date)
    ++ (c.unanswered t).flatMap (answer c.serverName c.date handler)

/-- what is still to be written, if `t` is still to come -/
def owed (handler : Handler) (c : Connection) (t : Bytes) : Bytes :=
  if c.queue.receiving then c.writer.left ++ c.backlog handler t else []

theorem owed_of_closed {c : Connection} (h : c.queue.receiving = false) (handler : Handler)
    (t : Bytes) : c.owed handler t = [] := by
  rw [owed, h]
  rfl

theorem owed_of_open {c : Connection} (h : c.queue.receiving = true) (handler : Handler)
    (t : Bytes) : c.owed handler t = c.writer.left ++ c.backlog handler t := by
  rw [owed, if_pos h]

/-- the octets of the replies that are being written or wait in the queue -/
def unsent (c : Connection) : Bytes :=
  if c.queue.receiving then
    c.writer.left ++ c.queue.slots.flatMap (Slot.octets c.serverName c.date)
  else []

theorem unsent_of_closed {c : Connection} (h : c.queue.receiving = false) : c.unsent = [] := by
  rw [unsent, h]
  rfl

theorem unsent_of_open {c : Connection} (h : c.queue.receiving = true) : c.unsent
    = c.writer.left ++ c.queue.slots.flatMap (Slot.octets c.serverName c.date) := by
  rw [unsent, if_pos h]

theorem owed_eq_unsent {c : Connection} (h : c.queue.receiving = true) (handler : Handler)
    (t : Bytes) : c.owed handler t
      = c.unsent ++ (c.unanswered t).flatMap (answer c.serverName c.date handler) := by
  rw [owed_of_open h, unsent_of_open h, backlog, List.append_assoc]

theorem backlog_congr {c c' : Connection} {t : Bytes} (handler : Handler)
    (serverName : c'.serverName = c.serverName) (date : c'.date = c.date)
    (slots : c'.queue.slots = c.queue.slots) (unanswered : c'.unanswered t = c.unanswered t) :
    c'.backlog handler t = c.backlog handler t := by
  rw [backlog, backlog, serverName, date, slots, unanswered]

theorem want_unanswered (c : Connection) (n : Need) (t : Bytes) (h : c.queue.receiving = true) :
    (c.want n).unanswered t = n.unanswered c.decoder (c.coming t) := by
  obtain ⟨reader, queue, e, _, _, _, asks⟩ := want_spec c n
  rw [e]
  exact Reader.unanswered_of_asks (asks h) _ _

/-! ## steps of the reading loop -/

theorem Sane.unanswered_of_awaiting {c : Connection} (s : c.Sane) (reader : c.reader = .awaiting)
    (empty : c.inbox = []) : c.unanswered [] = [] := by
  have more : (c.decoder.decode c.buffer).outcome = .more := by rw [s.awaiting reader]
  rw [unanswered, coming, reader, empty, List.flatten_nil, List.append_nil, List.append_nil]
  show upToClose (c.decoder.requests c.buffer) = []
  rw [Wire.Decoder.requests_eq_nil_of_more more]
  rfl

/-- the reading loop takes no more requests off the stream -/
def Quits (c : Connection) : Prop :=
  c.stopped = true ∨ c.reader = .awaiting ∧ c.inbox = [] ∧ c.ending ≠ none

/-- A step of the reading loop keeps the requests without a reply or quits; or it puts the last mark
into the queue; or it puts the reply into the queue that the handler has given to the first of
them. -/
theorem Reading.unanswered_cases {c c' : Connection} {e : Event} {note : Option Note} (s : c.Sane)
    (isOpen : c.queue.receiving = true) (h : Reading c e c' note) (t : Bytes) :
    (e = .read ∧ c'.queue.slots = c.queue.slots
        ∧ (c'.unanswered t = c.unanswered t ∨ c'.unanswered t = [] ∧ c.Quits))
      ∨ (e = .read ∧ c'.queue.slots = c.queue.slots ++ [.last] ∧ c'.unanswered t = c.unanswered t)
      ∨ ∃ request r, e = .reply r ∧ c.reader = .handling request
        ∧ c'.queue.slots = c.queue.slots ++ [.reply (r.finish request)]
        ∧ c.unanswered t = request :: c'.unanswered t := by
  have wanted {m : Connection} {n : Need} {rs : List Request} (receiving : m.queue.receiving = true)
      (same : n.unanswered m.decoder (m.coming t) = rs) : (m.want n).unanswered t = rs :=
    (want_unanswered m n t receiving).trans same
  cases h with
  | begin reader =>
    refine .inl ⟨rfl, rfl, .inl ?_⟩
    rw [unanswered, unanswered, reader]
    rfl
  | haltIdle reader halt =>
    exact .inl ⟨rfl, want_slots _ _, .inr ⟨wanted isOpen rfl, .inl halt⟩⟩
  | halt reader halt => exact .inl ⟨rfl, want_slots _ _, .inr ⟨wanted isOpen rfl, .inl halt⟩⟩
  | more reader go turn =>
    refine .inl ⟨rfl, rfl, .inl ?_⟩
    rw [unanswered, unanswered, reader]
    exact congrArg upToClose (Wire.Decoder.requests_of_more turn _).symm
  | request reader go turn =>
    refine .inl ⟨rfl, want_slots _ _, .inl (wanted isOpen ?_)⟩
    rw [unanswered, reader]
    exact congrArg upToClose (Wire.Decoder.requests_of_request_reset turn _).symm
  | failed reader go turn =>
    refine .inl ⟨rfl, want_slots _ _, .inl (wanted isOpen ?_)⟩
    rw [unanswered, reader]
    exact congrArg upToClose (Wire.Decoder.requests_of_failed turn _).symm
  | @piece p inbox reader go next =>
    refine .inl ⟨rfl, rfl, .inl ?_⟩
    rw [unanswered, unanswered, reader, ← coming_of_piece next t]
    rfl
  | ended reader go empty ending | cut reader go empty ending | broken reader go empty ending =>
    refine .inl ⟨rfl, want_slots _ _, .inr ⟨wanted isOpen rfl, .inr ⟨reader, empty, ?_⟩⟩⟩
    rw [ending]
    exact nofun
  | late reader go empty ending turn =>
    -- the decoder has wanted more octets, so it has no request now
    rcases Wire.Decoder.finish_of_more (s.awaiting reader) with e | e <;> rw [e] at turn <;>
      cases turn
  | refused reader shut =>
    rw [isOpen] at shut
    cases shut
  | call reader =>
    refine .inl ⟨rfl, rfl, .inl ?_⟩
    rw [unanswered, unanswered, reader]
    rfl
  | mark reader =>
    refine .inr (.inl ⟨rfl, rfl, ?_⟩)
    rw [unanswered, unanswered, reader]
    rfl
  | @replyLast request r reader close =>
    refine .inr (.inr ⟨request, r, rfl, reader, want_slots _ _, ?_⟩)
    rw [want_unanswered _ _ _ (by exact isOpen), unanswered, reader]
    exact upToClose_of_closes close _
  | @reply request r reader stay =>
    refine .inr (.inr ⟨request, r, rfl, reader, rfl, ?_⟩)
    rw [unanswered, reader]
    exact upToClose_of_stays stay _

/-- the reading loop leaves the backlog as it is, unless the connection is stopped -/
theorem Reading.conserved {c c' : Connection} {e : Event} {note : Option Note} {t : Bytes}
    {handler : Handler} (s : c.Sane) (isOpen : c.queue.receiving = true)
    (ended : c.ending ≠ none → t = []) (answered : Answered handler c e)
    (h : Reading c e c' note) :
    KeptIf (c.stopped = false) (c.backlog handler t) (c'.backlog handler t) := by
  have kept := h.writing_kept
  rcases h.unanswered_cases s isOpen t with
    ⟨-, slots, same | ⟨none, quits⟩⟩ | ⟨-, slots, same⟩ | ⟨request, r, rfl, reader, slots, first⟩
  · exact .of_eq (backlog_congr handler kept.serverName kept.date slots same)
  · rcases quits with halt | ⟨reader, empty, ending⟩
    · refine .of_not ?_ (by rw [halt]; exact nofun)
      rw [backlog, none, slots, kept.serverName, kept.date, List.flatMap_nil, List.append_nil]
      exact List.prefix_append _ _
    · have same : c'.unanswered t = c.unanswered t := by
        rw [none, ended ending, s.unanswered_of_awaiting reader empty]
      exact .of_eq (backlog_congr handler kept.serverName kept.date slots same)
  · refine .of_eq ?_
    rw [backlog, backlog, kept.serverName, kept.date, slots, same, List.flatMap_append]
    exact congrArg (· ++ _) (List.append_nil _)
  · refine .of_eq ?_
    rw [backlog, backlog, kept.serverName, kept.date, slots, first, answered request reader,
      List.flatMap_append, List.append_assoc, List.flatMap_singleton, List.flatMap_cons]
    rfl

/-! ## steps of the writing loop -/

theorem handOver_output (c : Connection) (ticket : Option Unit) :
    (c.handOver ticket).output = c.output := by
  rcases handOver_spec c ticket with e | ⟨n, _, e⟩ <;> rw [e]

theorem handOver_queue (c : Connection) (ticket : Option Unit) :
    (c.handOver ticket).queue = c.queue := by
  rcases handOver_spec c ticket with e | ⟨n, _, e⟩ <;> rw [e]

theorem handOver_unsent (c : Connection) (ticket : Option Unit) :
    (c.handOver ticket).unsent = c.unsent := by
  rcases handOver_spec c ticket with e | ⟨n, _, e⟩
  · rw [e]
  · rw [e]
    rfl

theorem unsent_of_writer {c : Connection} (h : c.queue.receiving = true) (writer : Writer)
    (output : Bytes) (writes flushes : Nat) :
    unsent { c with writer, output, writes, flushes }
      = writer.left ++ c.queue.slots.flatMap (Slot.octets c.serverName c.date) :=
  unsent_of_open (by exact h)

theorem Writing.unsent_conserved {c c' : Connection} {e : Event} {note : Option Note} (s : c.Sane)
    (h : Writing c e c' note) : KeptIf (¬ Fails e) (c.output ++ c.unsent) (c'.output ++ c'.unsent) := by
  have isOpen := h.isOpen s
  have fails (f : Fails e) (output : c'.output = c.output) (none : c'.unsent = []) :
      KeptIf (¬ Fails e) (c.output ++ c.unsent) (c'.output ++ c'.unsent) := by
    rw [output, none, List.append_nil]
    exact .of_not (List.prefix_append _ _) fun h => h f
  cases h with
  | @take r ticket queue writer taken =>
    obtain ⟨slots, receiving⟩ := ReplyQueue.take?_eq_some taken
    have isOpen := isOpen nofun
    refine .of_eq ?_
    rw [handOver_output, handOver_unsent, unsent_of_open isOpen,
      unsent_of_open (show queue.receiving = true from receiving.trans isOpen), writer, slots]
    rfl
  | @takeLast ticket queue writer taken =>
    obtain ⟨slots, receiving⟩ := ReplyQueue.take?_eq_some taken
    have isOpen := isOpen nofun
    -- nothing is behind the last mark
    have nil := (s.last_is_last [] queue.slots slots).1
    refine .of_eq ?_
    rw [unsent_of_closed queue.close_receiving, unsent_of_open isOpen, writer, slots, nil]
    rfl
  | @accept left n writer pos lt =>
    have isOpen := isOpen nofun
    refine .of_eq ?_
    rw [unsent_of_writer isOpen, unsent_of_open isOpen, writer]
    show c.output ++ left.take n ++ (left.drop n ++ _) = c.output ++ (left ++ _)
    rw [List.append_assoc, ← List.append_assoc (left.take n), List.take_append_drop]
  | @acceptAll left writer =>
    have isOpen := isOpen nofun
    refine .of_eq ?_
    rw [unsent_of_writer isOpen, unsent_of_open isOpen, writer]
    exact List.append_assoc _ _ _
  | stuck writer | flushFailed writer =>
    exact fails rfl rfl (unsent_of_closed (ReplyQueue.close_receiving _))
  | refuse writer => exact fails trivial rfl (unsent_of_closed (ReplyQueue.close_receiving _))
  | flush writer =>
    have isOpen := isOpen nofun
    refine .of_eq ?_
    rw [unsent_of_writer isOpen, unsent_of_open isOpen, writer]
    rfl
  | shutDown ok writer =>
    have shut := s.closed_iff.mpr (.inl writer)
    have after (shutdowns : Nat) : unsent { c with writer := .closed, shutdowns } = [] :=
      unsent_of_closed (by exact shut)
    refine .of_eq ?_
    rw [after, unsent_of_closed shut]

theorem Writing.unanswered {c c' : Connection} {e : Event} {note : Option Note}
    (h : Writing c e c' note) (t : Bytes) : c'.unanswered t = c.unanswered t := by
  have kept := h.reading_kept
  unfold Connection.unanswered
  rw [h.coming, kept.decoder]
  rcases kept.reader with same | ⟨n, waiting, granted⟩
  · rw [same]
  · rw [waiting, granted]
    rfl

theorem Writing.names {c c' : Connection} {e : Event} {note : Option Note}
    (h : Writing c e c' note) : c'.serverName = c.serverName ∧ c'.date = c.date := by
  cases h with
  | @take r ticket queue =>
    rcases handOver_spec { c with
      queue, writer := .sending (r.stamp c.serverName c.date).encode } ticket with e | ⟨n, _, e⟩
      <;> rw [e] <;> exact ⟨rfl, rfl⟩
  | takeLast | accept | acceptAll | stuck | refuse | flush | flushFailed | shutDown =>
    exact ⟨rfl, rfl⟩

/-- the queue stays open, and no write fails; or the queue is closed, and it has been so before, or a
write fails, or the reading loop has ended -/
theorem Writing.receiving_cases {c c' : Connection} {e : Event} {note : Option Note} (s : c.Sane)
    (h : Writing c e c' note) :
    (c'.queue.receiving = true ∧ c.queue.receiving = true ∧ ¬ Fails e)
      ∨ c'.queue.receiving = false
        ∧ (c.queue.receiving = false ∨ Fails e ∨ c.reader = .closed) := by
  have isOpen := h.isOpen s
  cases h with
  | @take r ticket queue writer taken =>
    have isOpen := isOpen nofun
    have receiving := (ReplyQueue.take?_eq_some taken).2
    rw [handOver_queue]
    exact .inl ⟨receiving.trans isOpen, isOpen, id⟩
  | @takeLast ticket queue writer taken =>
    obtain ⟨slots, -⟩ := ReplyQueue.take?_eq_some taken
    exact .inr ⟨queue.close_receiving, .inr (.inr (s.last_is_last [] queue.slots slots).2)⟩
  | accept writer pos => exact .inl ⟨isOpen nofun, isOpen nofun, pos⟩
  | acceptAll writer =>
    have some := s.sending _ writer
    exact .inl ⟨isOpen nofun, isOpen nofun, fun none => some (List.length_eq_zero_iff.mp none)⟩
  | flush => exact .inl ⟨isOpen nofun, isOpen nofun, nofun⟩
  | stuck | flushFailed => exact .inr ⟨ReplyQueue.close_receiving _, .inr (.inl rfl)⟩
  | refuse => exact .inr ⟨ReplyQueue.close_receiving _, .inr (.inl trivial)⟩
  | shutDown ok writer =>
    have shut := s.closed_iff.mpr (.inl writer)
    exact .inr ⟨shut, .inl shut⟩

theorem Step.ended {c c' : Connection} {e : Event} {note : Option Note} (s : c.Sane)
    (ended : c.queue.receiving = false → c.reader = .closed) (smooth : ¬ Fails e)
    (h : Step c e c' note) (shut : c'.queue.receiving = false) : c'.reader = .closed := by
  refine h.reader_closed ?_
  cases h with
  | arrive a => cases a <;> exact ended shut
  | stop => exact ended shut
  | reading h => exact ended (h.writing_kept.receiving.symm.trans shut)
  | writing h =>
    rcases h.receiving_cases s with ⟨isOpen, -⟩ | ⟨-, before | fails | closed⟩
    · rw [isOpen] at shut
      cases shut
    · exact ended before
    · exact absurd fails smooth
    · exact closed

theorem Writing.conserved {c c' : Connection} {e : Event} {note : Option Note} (s : c.Sane)
    (h : Writing c e c' note) (handler : Handler) (t : Bytes) :
    KeptIf (¬ Fails e) (c.output ++ c.owed handler t) (c'.output ++ c'.owed handler t) := by
  have moved := h.unsent_conserved s
  rcases h.receiving_cases s with ⟨isOpen', isOpen, smooth⟩ | ⟨shut', why⟩
  · obtain ⟨serverName, date⟩ := h.names
    refine .of_eq ?_
    rw [owed_eq_unsent isOpen', owed_eq_unsent isOpen, ← List.append_assoc, ← List.append_assoc,
      moved.all smooth, h.unanswered t, serverName, date]
  · rw [owed_of_closed shut']
    rw [unsent_of_closed shut'] at moved
    cases isOpen : c.queue.receiving with
    | false =>
      rw [unsent_of_closed isOpen] at moved
      rw [owed_of_closed isOpen]
      exact moved
    | true =>
      rw [owed_eq_unsent isOpen, ← List.append_assoc]
      refine ⟨moved.front.trans (List.prefix_append _ _), fun smooth => ?_⟩
      rcases why with shut | fails | closed
      · rw [isOpen] at shut
        cases shut
      · exact absurd fails smooth
      · have none : c.unanswered t = [] := by
          rw [Connection.unanswered, closed]
          rfl
        rw [moved.all smooth, none, List.flatMap_nil, List.append_nil]

/-! ## all steps -/

theorem arrive_owed (handler : Handler) (c : Connection) (a : Arrival) (rest : List Arrival) :
    (c.arrive a).owed handler (incoming rest) = c.owed handler (incoming (a :: rest)) := by
  unfold owed backlog unanswered
  rw [arrive_coming]
  cases a <;> rfl

/-- **What is written and what is owed**, together, are what they were before a step, but for what
a stop or a failed write has lost. -/
theorem Step.conserved {c c' : Connection} {e : Event} {note : Option Note} {rest : List Arrival}
    {handler : Handler} (s : c.Sane) (come : c.ToCome (arrivals [e] ++ rest))
    (answered : Answered handler c e) (h : Step c e c' note) :
    KeptIf (c.stopped = false ∧ ¬ Fails e)
      (c.output ++ c.owed handler (incoming (arrivals [e] ++ rest)))
      (c'.output ++ c'.owed handler (incoming rest)) := by
  cases h with
  | arrive a =>
    refine .of_eq ?_
    rw [arrive_owed]
    cases a <;> rfl
  | stop => exact .of_eq rfl
  | reading h =>
    have kept := h.writing_kept
    rw [h.arrivals, List.nil_append] at come ⊢
    rw [kept.output]
    cases shut : c.queue.receiving with
    | false =>
      rw [owed_of_closed shut, owed_of_closed (kept.receiving.trans shut)]
      exact .of_eq rfl
    | true =>
      rw [owed_of_open shut, owed_of_open (kept.receiving.trans shut), kept.writer]
      have backlog := h.conserved s shut come.incoming_eq_nil answered
      exact ((backlog.append _).append _).mono And.left
  | writing h =>
    rw [h.arrivals]
    exact (h.conserved s handler (incoming rest)).mono And.right

/-! ## runs -/

theorem run_conserved {c c' : Connection} {es : List Event} {notes : List Note}
    {rest : List Arrival} {handler : Handler} (s : c.Sane) (come : c.ToCome (arrivals es ++ rest))
    (answered : Along (Answered handler) c es) (h : c.run es = some (c', notes)) :
    KeptIf (c.stopped = false ∧ ∀ e ∈ es, ¬ Fails e ∧ e ≠ .stop)
      (c.output ++ c.owed handler (incoming (arrivals es ++ rest)))
      (c'.output ++ c'.owed handler (incoming rest)) := by
  induction es generalizing c notes with
  | nil =>
    cases h
    exact .of_eq rfl
  | cons e es ih =>
    obtain ⟨m, note, more, hs, hr, rfl⟩ := run_cons h
    have step := step_cases hs
    rw [arrivals_cons, List.append_assoc] at come ⊢
    have first := step.conserved s come answered.1
    have later := ih (s.step step) (come.step step) (answered.2 m note hs) hr
    refine (first.mono ?_).trans (later.mono ?_)
    · rintro ⟨go, smooth⟩
      exact ⟨go, (smooth e List.mem_cons_self).1⟩
    · rintro ⟨go, smooth⟩
      have go := (step.stopped (smooth e List.mem_cons_self)).trans go
      exact ⟨go, fun f hf => smooth f (List.mem_cons_of_mem e hf)⟩

theorem owed_ofSettings (serverName date : Bytes) (queueCapacity maxBody : Nat) (stopped : Bool)
    (handler : Handler) (t : Bytes) :
    (ofSettings serverName date queueCapacity maxBody stopped).owed handler t
      = (upToClose ((Wire.Decoder.ofMaxBody maxBody).requests t)).flatMap
          (answer serverName date handler) := rfl

/-- **The output does not depend on the schedule.**  Let the client send the pieces and then end or
fail, let the handler reply in its own time, and let the transport accept octets as it likes.  As
long as no write fails and no one stops the connection, what has been written is a prefix of the
answers to the requests of the stream, and it is all of them when both loops have ended. -/
theorem output_of_run (serverName date : Bytes) (queueCapacity maxBody : Nat) (handler : Handler)
    (pieces : List Bytes) (ending : Ending) {es : List Event} {c : Connection} {notes : List Note}
    (run : (ofSettings serverName date queueCapacity maxBody false).run es = some (c, notes))
    (script : arrivals es <+: pieces.map .octets ++ [ofEnding ending])
    (answered : Along (Answered handler)
      (ofSettings serverName date queueCapacity maxBody false) es)
    (smooth : ∀ e ∈ es, ¬ Fails e ∧ e ≠ .stop) :
    let requests := upToClose ((Wire.Decoder.ofMaxBody maxBody).requests pieces.flatten)
    let expected := requests.flatMap (answer serverName date handler)
    c.output <+: expected ∧ (c.finished = true → c.output = expected) := by
  intro requests expected
  obtain ⟨rest, script⟩ := script
  have sane := sane_ofSettings serverName date queueCapacity maxBody false
  have come := toCome_ofSettings serverName date queueCapacity maxBody false pieces ending
  rw [← script] at come
  have conserved := (run_conserved sane come answered run).all ⟨rfl, smooth⟩
  rw [script, incoming_pieces, owed_ofSettings] at conserved
  have all : c.output ++ c.owed handler (incoming rest) = expected := conserved
  refine ⟨⟨_, all⟩, fun finished => ?_⟩
  have shut := (sane_run sane run).closed_iff.mpr (.inr (finished_iff.mp finished).2)
  rw [← all, owed_of_closed shut, List.append_nil]

/-- a request in two pieces and its answer in two writes -/
theorem output_of_run_two_pieces :
    let start := ofSettings (Bytes.ofAscii "s") (Bytes.ofAscii "d") 1 0 false
    let es : List Event := [.arrive (.octets (Bytes.ofAscii "GET / HTTP/1.0\r\n")), .read, .read,
      .read, .read, .arrive (.octets Bytes.crlf), .arrive .ended, .read, .read, .read, .reply .ok,
      .take, .accept 5, .read, .accept 53, .flush true, .take, .shutDown true]
    ∃ c notes, start.run es = some (c, notes) ∧ c.output = Bytes.ofAscii
      "HTTP/1.0 200 OK\r\nServer: s\r\nDate: d\r\nContent-Length: 0\r\n\r\n" := by
  intro start es
  have finishes : (start.run es).any (·.1.finished) = true := by decide +kernel
  obtain ⟨⟨c, notes⟩, run, finished⟩ := (Option.any_eq_true _ _).mp finishes
  have answered : ∀ r, Event.reply r ∈ es → r = .ok := by simp [es]
  have smooth : ∀ e ∈ es, ¬ Fails e ∧ e ≠ .stop := by simp [es, Fails]
  have result := (output_of_run _ _ 1 0 (fun _ _ => .ok)
    [Bytes.ofAscii "GET / HTTP/1.0\r\n", Bytes.crlf] .clean run (List.prefix_refl _)
    (answered_constant answered _) smooth).2 finished
  exact ⟨c, notes, run, result.trans (by decide +kernel)⟩

end Connection

end PipelinedHttp
