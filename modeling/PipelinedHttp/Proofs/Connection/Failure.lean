import PipelinedHttp.Proofs.Connection.Output
import PipelinedHttp.Proofs.Lists
import PipelinedHttp.Proofs.Registry.Guards

/-!
# A write that fails

A failed write leaves a connection `Doomed`: it is stopped and its queue is closed.  What a doomed
connection can still do is in `Winding`, and it is not much (`Step.winding`): the reading loop ends
as soon as it goes on, the handler returns if it is at work, and the stream is shut down.

* `Winding.quiet`       nothing is read, counted, handed to the handler or written any more;
* `Winding.toGo_le`     each step of the connection itself brings it closer to its end;
* `Doomed.reading_goes_on`, `.writing_goes_on`   and there is such a step until it has ended;
* `doomed_run`          the same for runs;
* `failure_of_run`      what a failure leaves of a run: the output is some of the answers, and a
                        part of the next.
-/

namespace PipelinedHttp

/-- how many steps a loop has left when the connection can only end -/
def Reader.toGo : Reader → Nat
  | .closed => 0
  | .handling _ => 2
  | _ => 1

def Writer.toGo : Writer → Nat
  | .closed => 0
  | _ => 1

theorem Reader.toGo_le (reader : Reader) : reader.toGo ≤ 2 := by
  cases reader <;> simp [toGo]

theorem Writer.toGo_le (writer : Writer) : writer.toGo ≤ 1 := by
  cases writer <;> simp [toGo]

namespace Connection

def toGo (c : Connection) : Nat := c.reader.toGo + c.writer.toGo

/-- the writing loop calls on the transport, other than to shut the stream down -/
def Writes : Event → Prop
  | .accept _ | .refuse | .flush _ => True
  | _ => False

/-- a step of one of the loops or of the handler -/
def isOwn : Event → Bool
  | .arrive _ | .stop => false
  | _ => true

/-- a connection that can do nothing but end -/
structure Doomed (c : Connection) : Prop where
  sane : c.Sane
  shut : c.queue.receiving = false
  stopped : c.stopped = true

/-- nothing has been read, counted, handed to the handler or written in between -/
structure Quiet (c c' : Connection) : Prop where
  inbox : c.inbox <+: c'.inbox
  buffer : c'.buffer = c.buffer
  served : c'.served = c.served
  called : c'.called = c.called
  output : c'.output = c.output
  writes : c'.writes = c.writes
  flushes : c'.flushes = c.flushes

theorem Quiet.refl (c : Connection) : Quiet c c :=
  ⟨List.prefix_refl _, rfl, rfl, rfl, rfl, rfl, rfl⟩

theorem Quiet.trans {c m c' : Connection} (h : Quiet c m) (g : Quiet m c') : Quiet c c' where
  inbox := h.inbox.trans g.inbox
  buffer := g.buffer.trans h.buffer
  served := g.served.trans h.served
  called := g.called.trans h.called
  output := g.output.trans h.output
  writes := g.writes.trans h.writes
  flushes := g.flushes.trans h.flushes

/-- what a step of a doomed connection can do -/
inductive Winding (c : Connection) : Event → Connection → Prop
  | arrive (a : Arrival) : Winding c (.arrive a) (c.arrive a)
  | stop : Winding c .stop { c with stopped := true }
  | leave {decoder : Wire.Decoder} (reader : c.reader.toGo = 1) :
      Winding c .read { c with decoder, reader := .closed }
  /-- the handler returns, and its reply is lost -/
  | reply {queue : ReplyQueue Unit} {reader : Reader} (r : Reply) (handling : c.reader.toGo = 2)
      (shut : queue.receiving = false) (ends : reader.toGo ≤ 1) :
      Winding c (.reply r) { c with queue, reader }
  | shutDown (ok : Bool) (writer : c.writer = .closing) :
      Winding c (.shutDown ok) { c with writer := .closed, shutdowns := c.shutdowns + 1 }

theorem want_of_shut (c : Connection) (n : Need) (shut : c.queue.receiving = false) :
    c.want n = { c with reader := .closed } := by
  obtain ⟨reader, queue, e, _, _, closed, _⟩ := want_spec c n
  obtain ⟨rfl, rfl⟩ := closed shut
  exact e

theorem Reading.winding {c c' : Connection} {e : Event} {note : Option Note} (d : c.Doomed)
    (h : Reading c e c' note) : Winding c e c' ∧ note = none := by
  have go {P : Prop} (h : c.stopped = false) : P := by
    rw [d.stopped] at h
    cases h
  have isOpen {P : Prop} (h : c.queue.receiving = true) : P := by
    rw [d.shut] at h
    cases h
  cases h with
  | begin _ running | more _ running | request _ running | failed _ running | piece _ running
  | ended _ running | cut _ running | late _ running | broken _ running => exact go running
  | call _ receiving | mark _ receiving => exact isOpen receiving
  | haltIdle reader =>
    rw [want_of_shut _ _ (by exact d.shut)]
    exact ⟨.leave (by rw [reader]; rfl), rfl⟩
  | halt reader =>
    rw [want_of_shut _ _ d.shut]
    exact ⟨.leave (by rcases reader with e | e <;> rw [e] <;> rfl), rfl⟩
  | refused reader => exact ⟨.leave (by rcases reader with e | e <;> rw [e] <;> rfl), rfl⟩
  | replyLast r reader =>
    rw [want_of_shut _ _ (by exact d.shut)]
    exact ⟨.reply r (by rw [reader]; rfl) (by exact d.shut) (Nat.zero_le 1), rfl⟩
  | reply r reader =>
    exact ⟨.reply r (by rw [reader]; rfl) (by exact d.shut) (Nat.le_refl 1), rfl⟩

theorem Writing.winding {c c' : Connection} {e : Event} {note : Option Note} (d : c.Doomed)
    (h : Writing c e c' note) : Winding c e c' ∧ note = none := by
  have isOpen := h.isOpen d.sane
  rw [d.shut] at isOpen
  cases h with
  | shutDown ok writer => exact ⟨.shutDown ok writer, rfl⟩
  | take | takeLast | accept | acceptAll | stuck | refuse | flush | flushFailed =>
    exact absurd (isOpen nofun) nofun

/-- a doomed connection counts nothing, and can do no more than wind up -/
theorem Step.winding {c c' : Connection} {e : Event} {note : Option Note} (d : c.Doomed)
    (h : Step c e c' note) : Winding c e c' ∧ note = none := by
  cases h with
  | arrive a => exact ⟨.arrive a, rfl⟩
  | stop => exact ⟨.stop, rfl⟩
  | reading h => exact h.winding d
  | writing h => exact h.winding d

theorem Doomed.step {c c' : Connection} {e : Event} {note : Option Note} (d : c.Doomed)
    (h : Step c e c' note) : c'.Doomed := by
  have sane := d.sane.step h
  cases (h.winding d).1 with
  | arrive a => cases a <;> exact ⟨sane, d.shut, d.stopped⟩
  | stop => exact ⟨sane, d.shut, rfl⟩
  | leave | shutDown => exact ⟨sane, d.shut, d.stopped⟩
  | reply r handling shut => exact ⟨sane, shut, d.stopped⟩

theorem Winding.quiet {c c' : Connection} {e : Event} (h : Winding c e c') : Quiet c c' := by
  cases h with
  | arrive a =>
    cases a with
    | octets s => exact ⟨List.prefix_append _ _, rfl, rfl, rfl, rfl, rfl, rfl⟩
    | ended | failed => exact ⟨List.prefix_refl _, rfl, rfl, rfl, rfl, rfl, rfl⟩
  | stop | leave | reply | shutDown => exact ⟨List.prefix_refl _, rfl, rfl, rfl, rfl, rfl, rfl⟩

theorem Winding.not_writes {c c' : Connection} {e : Event} (h : Winding c e c') : ¬ Writes e := by
  cases h <;> exact id

theorem Winding.toGo_le {c c' : Connection} {e : Event} (h : Winding c e c') :
    c'.toGo + [e].countP isOwn ≤ c.toGo := by
  unfold toGo
  cases h with
  | arrive a => cases a <;> exact Nat.le_refl _
  | stop => exact Nat.le_refl _
  | leave reader =>
    rw [reader]
    show 0 + c.writer.toGo + 1 ≤ _
    omega
  | @reply queue reader r handling shut ends =>
    rw [handling]
    show reader.toGo + c.writer.toGo + 1 ≤ _
    omega
  | shutDown ok writer =>
    rw [writer]
    exact Nat.le_refl _

/-! ## until the end -/

theorem Doomed.reading_goes_on {c : Connection} (d : c.Doomed) (h : c.reader ≠ .closed) :
    (c.step .read).isSome
      ∨ (∃ request, c.reader = .handling request) ∧ ∀ r, (c.step (.reply r)).isSome := by
  cases reader : c.reader with
  | closed => exact absurd reader h
  | idle | decoding | awaiting =>
    left
    simp only [Connection.step, read, reader, d.stopped, if_true]
    rfl
  | waiting n | granted n =>
    left
    simp only [Connection.step, read, reader, d.shut]
    rfl
  | handling request =>
    refine .inr ⟨⟨request, rfl⟩, fun r => ?_⟩
    simp only [Connection.step, Connection.reply, reader]
    split <;> rfl

theorem Doomed.writing_goes_on {c : Connection} (d : c.Doomed) (h : c.writer ≠ .closed)
    (ok : Bool) : (c.step (.shutDown ok)).isSome := by
  have writer : c.writer = .closing := (d.sane.closed_iff.mp d.shut).resolve_right h
  simp only [Connection.step, shutDown, writer]
  rfl

/-! ## runs -/

theorem doomed_run {c c' : Connection} {es : List Event} {notes : List Note} (d : c.Doomed)
    (h : c.run es = some (c', notes)) :
    c'.Doomed ∧ notes = [] ∧ Quiet c c' ∧ (∀ e ∈ es, ¬ Writes e)
      ∧ c'.toGo + es.countP isOwn ≤ c.toGo := by
  induction es generalizing c notes with
  | nil =>
    cases h
    exact ⟨d, rfl, .refl _, nofun, Nat.le_refl _⟩
  | cons e es ih =>
    obtain ⟨m, note, rest, hs, hr, rfl⟩ := run_cons h
    have step := step_cases hs
    obtain ⟨winding, rfl⟩ := step.winding d
    obtain ⟨d', rfl, quiet, unwritten, toGo⟩ := ih (d.step step) hr
    refine ⟨d', rfl, winding.quiet.trans quiet, ?_, ?_⟩
    · exact List.forall_mem_cons.mpr ⟨winding.not_writes, unwritten⟩
    · have first := winding.toGo_le
      rw [← List.singleton_append, List.countP_append]
      omega

/-- what is left of a connection after a failed write: `failed` is the connection right behind the
failure, and `c` the one that the steps `es` have made of it -/
structure Contained (failed c : Connection) (es : List Event) : Prop where
  quiet : Quiet failed c
  unwritten : ∀ e ∈ es, ¬ Writes e
  /-- the stream is shut down by the last step of the writing loop, and not before -/
  shutdowns : failed.shutdowns = 0
    ∧ (c.writer = .closing ∧ c.shutdowns = 0 ∨ c.writer = .closed ∧ c.shutdowns = 1)
  steps : es.countP isOwn ≤ 3
  /-- the reading loop needs no input to end, and nothing but the reply if the handler is at work -/
  reading : c.reader = .closed ∨ (c.step .read).isSome
    ∨ (∃ request, c.reader = .handling request) ∧ ∀ r, (c.step (.reply r)).isSome
  writing : c.writer = .closed ∨ ∀ ok, (c.step (.shutDown ok)).isSome

theorem contained_run {c c' : Connection} {es : List Event} {notes : List Note} (d : c.Doomed)
    (writer : c.writer = .closing) (h : c.run es = some (c', notes)) :
    notes = [] ∧ Contained c c' es := by
  obtain ⟨d', rfl, quiet, unwritten, toGo⟩ := doomed_run d h
  refine ⟨rfl, quiet, unwritten, ⟨d.sane.not_shut (by rw [writer]; exact nofun), ?_⟩, ?_, ?_, ?_⟩
  · rcases d'.sane.closed_iff.mp d'.shut with closing | closed
    · exact .inl ⟨closing, d'.sane.not_shut (by rw [closing]; exact nofun)⟩
    · exact .inr ⟨closed, d'.sane.shut closed⟩
  · have reader := c.reader.toGo_le
    have writer := c.writer.toGo_le
    unfold Connection.toGo at toGo
    omega
  · exact Classical.or_iff_not_imp_left.mpr d'.reading_goes_on
  · exact Classical.or_iff_not_imp_left.mpr d'.writing_goes_on

theorem Step.doomed {c c' : Connection} {e : Event} {note : Option Note} (s : c.Sane)
    (h : Step c e c' note) (fails : Fails e) :
    c'.Doomed ∧ note = some .respondError ∧ c'.writer = .closing ∧ c.queue.receiving = true := by
  have sane := s.step h
  cases h with
  | arrive | stop => cases fails
  | reading h => cases h <;> cases fails
  | writing h =>
    have isOpen := h.isOpen s
    cases h with
    | take | takeLast | shutDown | flush => cases fails
    | accept writer pos => exact absurd fails pos
    -- what is being sent is not empty, so to accept all of it is not to accept nothing
    | acceptAll writer => exact absurd (List.length_eq_zero_iff.mp fails) (s.sending _ writer)
    | stuck | refuse | flushFailed =>
      exact ⟨⟨sane, ReplyQueue.close_receiving _, rfl⟩, rfl, rfl, isOpen nofun⟩

theorem Step.shut_of_respondError {c c' : Connection} {e : Event} {note : Option Note}
    (h : Step c e c' note) (counted : note = some .respondError) :
    c'.queue.receiving = false := by
  cases h with
  | arrive | stop => cases counted
  | reading h => cases h <;> cases counted
  | writing h =>
    cases h with
    | stuck | refuse | flushFailed => exact ReplyQueue.close_receiving _
    | take | takeLast | accept | acceptAll | flush | shutDown => cases counted

theorem Step.shut {c c' : Connection} {e : Event} {note : Option Note} (s : c.Sane)
    (h : Step c e c' note) (shut : c.queue.receiving = false) : c'.queue.receiving = false := by
  cases h with
  | arrive a => cases a <;> exact shut
  | stop => exact shut
  | reading h => exact h.writing_kept.receiving.trans shut
  | writing h =>
    have isOpen := h.isOpen s
    rw [shut] at isOpen
    cases h with
    | shutDown => exact shut
    | take | takeLast | accept | acceptAll | stuck | refuse | flush | flushFailed =>
      exact absurd (isOpen nofun) nofun

/-- no write has failed as long as the queue is open -/
theorem run_of_open {c c' : Connection} {es : List Event} {notes : List Note} (s : c.Sane)
    (h : c.run es = some (c', notes)) (isOpen : c'.queue.receiving = true) :
    c.queue.receiving = true ∧ .respondError ∉ notes := by
  induction es generalizing c notes with
  | nil =>
    cases h
    exact ⟨isOpen, nofun⟩
  | cons e es ih =>
    obtain ⟨m, note, rest, hs, hr, rfl⟩ := run_cons h
    have step := step_cases hs
    obtain ⟨openAfter, later⟩ := ih (s.step step) hr
    refine ⟨?_, fun counted => ?_⟩
    · rw [← Bool.not_eq_false]
      intro shut
      rw [step.shut s shut] at openAfter
      cases openAfter
    · rcases List.mem_append.mp counted with first | counted
      · rw [step.shut_of_respondError (Option.mem_toList.mp first)] at openAfter
        cases openAfter
      · exact later counted

/-- **A failed write is contained.**  What has been written are some of the answers that would have
been written without the failure, and a part of the next one.  The failure is counted once, and from
then on nothing is counted, read, handed to the handler or written; the connection ends without more
input, and then the server takes it off the registry. -/
theorem failure_of_run (serverName date : Bytes) (queueCapacity maxBody : Nat) (stopped : Bool)
    (handler : Handler) (pieces : List Bytes) (ending : Ending) {es es' : List Event} {e : Event}
    {c failed c' : Connection} {notes notes' : List Note} {note : Option Note}
    (before : (ofSettings serverName date queueCapacity maxBody stopped).run es = some (c, notes))
    (failure : c.step e = some (failed, note)) (fails : Fails e)
    (after : failed.run es' = some (c', notes'))
    (script : arrivals (es ++ e :: es') <+: pieces.map .octets ++ [ofEnding ending])
    (answered : Along (Answered handler)
      (ofSettings serverName date queueCapacity maxBody stopped) (es ++ e :: es')) :
    let requests := upToClose ((Wire.Decoder.ofMaxBody maxBody).requests pieces.flatten)
    let answers := requests.map (answer serverName date handler)
    c'.output <+: answers.flatten
      ∧ (∃ k part, c'.output = (answers.take k).flatten ++ part ∧ part <+: (answers[k]?).getD [])
      ∧ (notes ++ note.toList ++ notes').count .respondError = 1
      ∧ notes' = []
      ∧ Contained failed c' es'
      ∧ ∀ {κ : Type} (s : Server κ) (i : Nat) (l : Link) (g : Guard), s.links[i]? = some l →
          l.connection = c' → c'.finished = true → s.registry.guard? l.guard = some g →
          (s.retire i).registry.guard? l.guard = none
            ∧ (s.retire i).registry.live = s.registry.live.filter (·.id != g.id)
            ∧ ∀ other ≠ l.guard, (s.retire i).registry.guard? other = s.registry.guard? other := by
  intro requests answers
  have sane := sane_ofSettings serverName date queueCapacity maxBody stopped
  have come := toCome_ofSettings serverName date queueCapacity maxBody stopped pieces ending
  have sane₁ := sane_run sane before
  obtain ⟨doomed, rfl, writer, isOpen⟩ := (step_cases failure).doomed sane₁ fails
  obtain ⟨rfl, contained⟩ := contained_run doomed writer after
  have output : c'.output <+: answers.flatten := by
    have later : c.run (e :: es') = some (c', [.respondError]) := by
      rw [run, failure]
      dsimp only
      rw [after]
      rfl
    obtain ⟨rest, script⟩ := script
    rw [← script] at come
    have conserved := (run_conserved sane come answered (run_append before later)).front
    rw [script, incoming_pieces, owed_ofSettings] at conserved
    rw [← List.flatMap_def]
    exact (List.prefix_append _ _).trans conserved
  refine ⟨output, prefix_flatten output, ?_, rfl, contained, ?_⟩
  · have none := (run_of_open sane before isOpen).2
    rw [List.append_nil, List.count_append, List.count_eq_zero.mpr none]
    rfl
  · rintro κ s i l g link rfl finished guard
    refine Server.retire_of_over link ?_ guard
    unfold Link.over
    rw [finished, Bool.or_true]

/-- a write that is refused after five octets -/
theorem failure_of_run_refused :
    let start := ofSettings (Bytes.ofAscii "s") (Bytes.ofAscii "d") 1 0 false
    let es : List Event := [.arrive (.octets (Bytes.ofAscii "GET / HTTP/1.0\r\n\r\n")), .read,
      .read, .read, .read, .read, .reply .ok, .take, .accept 5]
    ∃ c failed c' notes note notes', start.run es = some (c, notes)
      ∧ c.step .refuse = some (failed, note)
      ∧ failed.run [.read, .shutDown true] = some (c', notes')
      ∧ c'.output = Bytes.ofAscii "HTTP/" ∧ c'.finished = true
      ∧ (notes ++ note.toList ++ notes').count .respondError = 1 := by
  intro start es
  have fails : (start.run es).any fun m => (m.1.step .refuse).any fun f =>
      f.1.output = Bytes.ofAscii "HTTP/"
        ∧ (f.1.run [.read, .shutDown true]).any (·.1.finished) := by
    decide +kernel
  obtain ⟨⟨c, notes⟩, before, fails⟩ := (Option.any_eq_true _ _).mp fails
  obtain ⟨⟨failed, note⟩, failure, fails⟩ := (Option.any_eq_true _ _).mp fails
  obtain ⟨output, fails⟩ := of_decide_eq_true fails
  obtain ⟨⟨c', notes'⟩, after, finished⟩ := (Option.any_eq_true _ _).mp fails
  have answered : ∀ r, Event.reply r ∈ es ++ .refuse :: [.read, .shutDown true] → r = .ok := by
    simp [es]
  obtain ⟨-, -, counted, -, contained, -⟩ := failure_of_run _ _ 1 0 false (fun _ _ => .ok)
    [Bytes.ofAscii "GET / HTTP/1.0\r\n\r\n"] .clean before failure trivial after
    (List.prefix_append _ _) (answered_constant answered _)
  exact ⟨c, failed, c', notes, note, notes', before, failure, after,
    contained.quiet.output.trans output, finished, counted⟩

end Connection

end PipelinedHttp
