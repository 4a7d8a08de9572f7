import PipelinedHttp.Proofs.Connection.Backpressure

/-!
# What has become of each request

A ledger has an entry for each request that the handler has answered, with the reply that it gave.
`Ledger` says what a connection has made of its ledger: the entries are in the order of the stream,
they are the requests that have been counted but for those still in hand, and their replies are
written or on their way to be written.  None of this depends on when the connection is stopped; only
a write that fails loses replies, and then what has been written is still the front of them.

* `Reading.unsent`, `Reading.unanswered_front`   what the handler returns is queued, and is the
                    answer to the first request that has none;
* `Lossless`        what holds as long as no write has failed;
* `Lossless.step`, `Step.front`   each step keeps it, and enters what the handler returns;
* `ledger_run`      every run has a ledger;
* `accounted_run`   so a connection that has ended without a failed write has written all replies to
                    all requests that it has counted.
-/

namespace PipelinedHttp.Connection
variable {c c' : Connection} {e : Event} {note : Option Note} {maxBody : Nat} {arrived : Bytes}
  {log : List (Request × Reply)}

/-- the request that the handler is done with, and its reply -/
def returned (c : Connection) : Event → List (Request × Reply)
  | .reply r =>
    match c.reader with
    | .handling request => [(request, r)]
    | _ => []
  | _ => []

theorem returned_of_handling {request : Request} (h : c.reader = .handling request) (r : Reply) :
    c.returned (.reply r) = [(request, r)] := by
  unfold returned
  rw [h]

theorem Writing.returned (h : Writing c e c' note) : c.returned e = [] := by
  cases h <;> rfl

theorem Step.replies (h : Step c e c' note) : replies [e] = (c.returned e).map Prod.snd := by
  cases h with
  | arrive | stop => rfl
  | writing h => cases h <;> rfl
  | reading h =>
    cases h with
    | replyLast r reader | reply r reader =>
      rw [returned_of_handling reader]
      rfl
    | begin | haltIdle | halt | more | request | failed | piece | ended | cut | late | broken
    | refused | call | mark => rfl

/-- what the handler is called for is with it until it returns -/
theorem Reading.returned_length (h : Reading c e c' note) :
    c'.called + c.reader.called = c.called + c'.reader.called + (c.returned e).length := by
  have wants (m : Connection) (n : Need) (called : m.called = c.called) {k : Nat}
      (held : c.reader.called = k) :
      (m.want n).called + c.reader.called = c.called + (m.want n).reader.called + k := by
    obtain ⟨-, same, -, none, -⟩ := want_stages m n
    omega
  cases h with
  | begin reader | more reader | piece reader | call reader | mark reader =>
    rw [reader]
    rfl
  | haltIdle reader | request reader | failed reader | ended reader | cut reader | late reader
  | broken reader =>
    refine wants _ _ (by rfl) ?_
    rw [reader]
    rfl
  | halt reader =>
    refine wants _ _ (by rfl) ?_
    rcases reader with e | e <;> rw [e] <;> rfl
  | refused reader => rcases reader with e | e <;> rw [e] <;> rfl
  | replyLast r reader =>
    rw [returned_of_handling reader]
    refine wants _ _ (by rfl) ?_
    rw [reader]
    rfl
  | reply r reader =>
    rw [returned_of_handling reader, reader]
    rfl

theorem Reading.unsent (s : c.Sane) (isOpen : c.queue.receiving = true) (h : Reading c e c' note) :
    c'.unsent = c.unsent ++ (c.returned e).flatMap (written c.serverName c.date) := by
  have kept := h.writing_kept
  have still : c'.queue.receiving = true := kept.receiving.trans isOpen
  have queued (added : List Slot) (slots : c'.queue.slots = c.queue.slots ++ added) :
      c'.unsent = c.unsent ++ added.flatMap (Slot.octets c.serverName c.date) := by
    rw [unsent_of_open still, unsent_of_open isOpen, kept.writer, kept.serverName, kept.date, slots,
      List.flatMap_append, List.append_assoc]
  -- what it queues does not depend on what is still to come
  rcases h.unanswered_cases s isOpen [] with
    ⟨rfl, slots, -⟩ | ⟨rfl, slots, -⟩ | ⟨request, r, rfl, reader, slots, -⟩
  · exact queued [] (slots.trans (List.append_nil _).symm)
  · exact queued [.last] slots
  · rw [returned_of_handling reader]
    exact queued _ slots

/-- the handler returns the first request that is not answered, if any -/
theorem Reading.unanswered_front (s : c.Sane) (isOpen : c.queue.receiving = true)
    (h : Reading c e c' note) (t : Bytes) :
    (c.returned e).map Prod.fst ++ c'.unanswered t <+: c.unanswered t := by
  rcases h.unanswered_cases s isOpen t with
    ⟨rfl, -, same | ⟨none, -⟩⟩ | ⟨rfl, -, same⟩ | ⟨request, r, rfl, reader, -, first⟩
  · exact same ▸ List.prefix_refl _
  · exact none ▸ List.nil_prefix
  · exact same ▸ List.prefix_refl _
  · rw [returned_of_handling reader, first]
    exact List.prefix_refl _

/-- no request that has been counted and no reply has been lost -/
structure Lossless (maxBody : Nat) (c : Connection) (arrived : Bytes)
    (log : List (Request × Reply)) : Prop where
  /-- the replies are written, or still to be written -/
  output : c.output ++ c.unsent = log.flatMap (written c.serverName c.date)
  counted : c.served = c.called + c.reader.asked
  ended : c.queue.receiving = false → c.reader = .closed
  /-- the requests are those of the stream, in order -/
  asked : ∀ t, log.map Prod.fst ++ c.unanswered t
    <+: upToClose ((Wire.Decoder.ofMaxBody maxBody).requests (arrived ++ t))

theorem Lossless.reading (l : Lossless maxBody c arrived log) (s : c.Sane)
    (h : Reading c e c' note) : Lossless maxBody c' arrived (log ++ c.returned e) := by
  have isOpen : c.queue.receiving = true := by
    rw [← Bool.not_eq_false]
    exact fun shut => h.reader_ne_closed (l.ended shut)
  have kept := h.writing_kept
  have counted := l.counted
  have advances := (h.counts isOpen).counted
  refine ⟨?_, by omega, fun shut => ?_, fun t => ?_⟩
  · rw [kept.serverName, kept.date, kept.output, h.unsent s isOpen, List.flatMap_append, ← l.output,
      List.append_assoc]
  · rw [kept.receiving, isOpen] at shut
    cases shut
  · have front := (List.prefix_append_right_inj (log.map Prod.fst)).mpr
      (h.unanswered_front s isOpen t)
    rw [List.map_append, List.append_assoc]
    exact front.trans (l.asked t)

theorem Lossless.writing (l : Lossless maxBody c arrived log) (s : c.Sane) (smooth : ¬ Fails e)
    (h : Writing c e c' note) : Lossless maxBody c' arrived log := by
  have kept := h.reading_kept
  have served := kept.served
  have called := kept.called
  have counted := l.counted
  have asked := h.stages.1
  obtain ⟨serverName, date⟩ := h.names
  refine ⟨?_, by omega, Step.ended s l.ended smooth (.writing h), fun t => ?_⟩
  · rw [serverName, date, (h.unsent_conserved s).all smooth]
    exact l.output
  · rw [h.unanswered t]
    exact l.asked t

theorem Lossless.step (l : Lossless maxBody c arrived log) (s : c.Sane) (smooth : ¬ Fails e)
    (h : Step c e c' note) :
    Lossless maxBody c' (arrived ++ incoming (arrivals [e])) (log ++ c.returned e) := by
  cases h with
  | stop =>
    rw [show incoming (arrivals [.stop]) = [] from rfl, List.append_nil]
    exact (List.append_nil log).symm ▸ ⟨l.output, l.counted, l.ended, l.asked⟩
  | reading h =>
    rw [h.arrivals, incoming, List.append_nil]
    exact l.reading s h
  | writing h =>
    rw [h.arrivals, h.returned, incoming, List.append_nil, List.append_nil]
    exact l.writing s smooth h
  | arrive a =>
    have same : log ++ c.returned (.arrive a) = log := List.append_nil log
    rw [same]
    cases a with
    | ended | failed =>
      have none : arrived ++ [] = arrived := List.append_nil arrived
      exact ⟨l.output, l.counted, l.ended, none.symm ▸ l.asked⟩
    | octets p =>
      refine ⟨l.output, l.counted, l.ended, fun t => ?_⟩
      have coming : (c.arrive (.octets p)).coming t = c.coming (p ++ t) := by
        simp [Connection.coming, Connection.arrive]
      have unanswered : (c.arrive (.octets p)).unanswered t = c.unanswered (p ++ t) := by
        rw [Connection.unanswered, coming]
        rfl
      have all : arrived ++ incoming (arrivals [.arrive (.octets p)]) ++ t
          = arrived ++ (p ++ t) := by
        simp [arrivals, incoming]
      rw [unanswered, all]
      exact l.asked (p ++ t)

/-- what has become of the requests, whether or not a write has failed -/
structure Ledger (maxBody : Nat) (smooth : Prop) (c : Connection) (arrived : Bytes)
    (log : List (Request × Reply)) : Prop where
  called : c.called = log.length + c.reader.called
  front : c.output ++ c.unsent <+: log.flatMap (written c.serverName c.date)
  lossless : smooth ∨ c.queue.receiving = true → Lossless maxBody c arrived log

/-- what a step writes and what it leaves to be written is the front of what the ledger says -/
theorem Step.front (s : c.Sane)
    (front : c.output ++ c.unsent <+: log.flatMap (written c.serverName c.date))
    (isOpen : c.queue.receiving = true → Lossless maxBody c arrived log)
    (h : Step c e c' note) :
    c'.output ++ c'.unsent
      <+: (log ++ c.returned e).flatMap (written c'.serverName c'.date) := by
  have more (es : List (Request × Reply)) : log.flatMap (written c.serverName c.date)
      <+: (log ++ es).flatMap (written c.serverName c.date) := by
    rw [List.flatMap_append]
    exact List.prefix_append _ _
  cases h with
  | arrive a => cases a <;> exact front.trans (more _)
  | stop => exact front.trans (more _)
  | writing h =>
    obtain ⟨serverName, date⟩ := h.names
    rw [serverName, date]
    exact ((h.unsent_conserved s).front.trans front).trans (more _)
  | reading h =>
    have kept := h.writing_kept
    cases receiving : c.queue.receiving with
    | true => exact ((isOpen receiving).reading s h).output ▸ List.prefix_refl _
    | false =>
      rw [kept.serverName, kept.date, kept.output,
        unsent_of_closed (kept.receiving.trans receiving), List.append_nil]
      exact ((List.prefix_append _ _).trans front).trans (more _)

theorem Ledger.step {smooth : Prop} (l : Ledger maxBody smooth c arrived log) (s : c.Sane)
    (h : Step c e c' note) :
    Ledger maxBody (smooth ∧ ¬ Fails e) c' (arrived ++ incoming (arrivals [e]))
      (log ++ c.returned e) := by
  refine ⟨?_, h.front s l.front fun isOpen => l.lossless (.inr isOpen), fun fine => ?_⟩
  · have called := l.called
    rw [List.length_append]
    cases h with
    | arrive a => cases a <;> exact called
    | stop => exact called
    | reading h =>
      have moved := h.returned_length
      omega
    | writing h =>
      have same := h.reading_kept.called
      have stage := h.stages.2
      rw [h.returned, List.length_nil]
      omega
  · -- a queue that is open has been open, and no write has failed
    have before : (smooth ∨ c.queue.receiving = true) ∧ ¬ Fails e := by
      rcases fine with ⟨smooth, unfailed⟩ | isOpen
      · exact ⟨.inl smooth, unfailed⟩
      · have no (shut : c'.queue.receiving = false) : False := by
          rw [isOpen] at shut
          cases shut
        refine ⟨.inr ?_, fun fails => no (h.doomed s fails).1.shut⟩
        rw [← Bool.not_eq_false]
        exact fun shut => no (h.shut s shut)
    exact (l.lossless before.1).step s before.2 h

theorem ledger_ofSettings (serverName date : Bytes) (queueCapacity maxBody : Nat) (stopped : Bool) :
    Ledger maxBody True (ofSettings serverName date queueCapacity maxBody stopped) [] [] where
  called := rfl
  front := List.prefix_refl _
  lossless _ := ⟨rfl, rfl, nofun, fun _ => List.prefix_refl _⟩

theorem ledger_steps {smooth : Prop} {es : List Event} {notes : List Note}
    (l : Ledger maxBody smooth c arrived log) (s : c.Sane) (h : c.run es = some (c', notes)) :
    Ledger maxBody (smooth ∧ ∀ e ∈ es, ¬ Fails e) c' (arrived ++ incoming (arrivals es))
        (log ++ c.collect returned es)
      ∧ replies es = (c.collect returned es).map Prod.snd := by
  induction es generalizing c notes smooth arrived log with
  | nil =>
    cases h
    refine ⟨?_, rfl⟩
    rw [collect, List.append_nil, show incoming (arrivals []) = [] from rfl, List.append_nil]
    exact ⟨l.called, l.front, fun fine => l.lossless (fine.imp_left And.left)⟩
  | cons e es ih =>
    obtain ⟨m, note, rest, hs, hr, rfl⟩ := run_cons h
    have step := step_cases hs
    obtain ⟨later, given⟩ := ih (l.step s step) (s.step step) hr
    have all : arrived ++ incoming (arrivals [e]) ++ incoming (arrivals es)
        = arrived ++ incoming (arrivals (e :: es)) := by
      rw [List.append_assoc, ← incoming_append, ← arrivals_append]
      rfl
    rw [collect_cons hs]
    constructor
    · rw [all, List.append_assoc] at later
      refine ⟨later.called, later.front, fun fine => later.lossless (fine.imp_left ?_)⟩
      rintro ⟨smooth, unfailed⟩
      obtain ⟨first, others⟩ := List.forall_mem_cons.mp unfailed
      exact ⟨⟨smooth, first⟩, others⟩
    · rw [List.map_append, ← step.replies, ← given, ← replies_append]
      rfl

theorem ledger_run (serverName date : Bytes) (queueCapacity maxBody : Nat) (stopped : Bool)
    {es : List Event} {notes : List Note}
    (run : (ofSettings serverName date queueCapacity maxBody stopped).run es = some (c, notes)) :
    Ledger maxBody (∀ e ∈ es, ¬ Fails e) c (incoming (arrivals es))
        ((ofSettings serverName date queueCapacity maxBody stopped).collect returned es)
      ∧ replies es = ((ofSettings serverName date queueCapacity maxBody stopped).collect returned
          es).map Prod.snd := by
  obtain ⟨l, given⟩ := ledger_steps
    (ledger_ofSettings serverName date queueCapacity maxBody stopped)
    (sane_ofSettings serverName date queueCapacity maxBody stopped) run
  exact ⟨⟨l.called, l.front, fun fine => l.lossless (fine.imp_left fun h => ⟨trivial, h⟩)⟩, given⟩

theorem Ledger.output_of_not_called {smooth : Prop} (l : Ledger maxBody smooth c arrived log)
    (none : c.called = 0) : c.output = [] := by
  have called := l.called
  have empty : log = [] := List.eq_nil_of_length_eq_zero (by omega)
  have front := l.front
  rw [empty] at front
  exact (List.append_eq_nil_iff.mp (List.prefix_nil.mp front)).1

/-! ## accounts -/

/-- A connection has written the front of the replies that its handler has given.  If it has ended
and no write has failed, it has written all of them, and they are the replies to exactly the requests
that it has counted, which are the first ones of its stream. -/
structure Accounted (serverName date : Bytes) (maxBody : Nat) (c : Connection) (es : List Event)
    (log : List (Request × Reply)) : Prop where
  given : log.map Prod.snd = replies es
  length_le : log.length ≤ c.served
  front : c.output <+: log.flatMap (written serverName date)
  complete : (∀ e ∈ es, ¬ Fails e) → c.finished = true →
    log.length = c.served
      ∧ log.map Prod.fst = (upToClose ((Wire.Decoder.ofMaxBody maxBody).requests
          (incoming (arrivals es)))).take c.served
      ∧ c.output = log.flatMap (written serverName date)

theorem Ledger.complete {smooth : Prop} (l : Ledger maxBody smooth c arrived log) (s : c.Sane)
    (fine : smooth) (finished : c.finished = true) :
    log.length = c.served
      ∧ log.map Prod.fst
        = (upToClose ((Wire.Decoder.ofMaxBody maxBody).requests arrived)).take c.served
      ∧ c.output = log.flatMap (written c.serverName c.date) := by
  obtain ⟨reader, writer⟩ := finished_iff.mp finished
  have shut := s.closed_iff.mpr (.inr writer)
  have lossless := l.lossless (.inl fine)
  have served := lossless.counted
  have called := l.called
  have output := lossless.output
  rw [unsent_of_closed shut, List.append_nil] at output
  rw [reader] at served called
  have length : log.length = c.served := (served.trans called).symm
  refine ⟨length, ?_, output⟩
  have asked := lossless.asked []
  rw [List.append_nil, Connection.unanswered, reader] at asked
  have front : log.map Prod.fst
      <+: upToClose ((Wire.Decoder.ofMaxBody maxBody).requests arrived) :=
    (List.append_nil (log.map Prod.fst)) ▸ asked
  rw [List.prefix_iff_eq_take.mp front, List.length_map, length]

theorem names_run {es : List Event} {notes : List Note} (h : c.run es = some (c', notes)) :
    c'.serverName = c.serverName ∧ c'.date = c.date := by
  induction es generalizing c notes with
  | nil =>
    cases h
    exact ⟨rfl, rfl⟩
  | cons e es ih =>
    obtain ⟨m, note, rest, hs, hr, rfl⟩ := run_cons h
    have first : m.serverName = c.serverName ∧ m.date = c.date := by
      cases step_cases hs with
      | arrive a => cases a <;> exact ⟨rfl, rfl⟩
      | stop => exact ⟨rfl, rfl⟩
      | reading h => exact ⟨h.writing_kept.serverName, h.writing_kept.date⟩
      | writing h => exact h.names
    obtain ⟨serverName, date⟩ := ih hr
    exact ⟨serverName.trans first.1, date.trans first.2⟩

theorem accounted_run (serverName date : Bytes) (queueCapacity maxBody : Nat) (stopped : Bool)
    {es : List Event} {notes : List Note}
    (run : (ofSettings serverName date queueCapacity maxBody stopped).run es = some (c, notes)) :
    ∃ log, Accounted serverName date maxBody c es log := by
  obtain ⟨sane, -, paced⟩ := invariants_of_run serverName date queueCapacity maxBody stopped run
  obtain ⟨ledger, given⟩ := ledger_run serverName date queueCapacity maxBody stopped run
  obtain ⟨sameName, sameDate⟩ := names_run run
  have names : written c.serverName c.date = written serverName date := by
    rw [sameName, sameDate]
    rfl
  have called := ledger.called
  have served := paced.le_served
  have front := ledger.front
  rw [names] at front
  refine ⟨_, given.symm, by omega, (List.prefix_append _ _).trans front, fun smooth finished => ?_⟩
  rw [← names]
  exact ledger.complete sane smooth finished

end PipelinedHttp.Connection
