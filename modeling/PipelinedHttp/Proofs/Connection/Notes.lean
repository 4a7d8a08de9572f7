import PipelinedHttp.Proofs.Connection.Output
import PipelinedHttp.Proofs.Wire.Whole

/-!
# What a connection counts of its stream

The requests of the stream are counted one by one, up to the first that closes the connection, and
behind them one fault, if the stream has one.  `Connection.due` is what has still to be counted: the
reading loop takes its notes off the front of it (`Reading.due`), and no other step changes it.  So
the notes do not depend on the schedule either (`run_due`).

A decoder knows of the end of its stream by nothing but an empty buffer.  Behind a head whose body
is awaited the buffer may be empty, too: `notes_of_cut` says what is counted of a stream that ends
within a request, and `not_counted_behind_head` that an end right behind a head is counted as no
fault.
-/

namespace PipelinedHttp

/-- what is counted of the requests of a stream, with a fault behind them if there is one -/
def noted : List Request → Bool → List Note
  | [], fault => if fault then [.readError] else []
  | r :: rs, fault => .served :: if Connection.closes r then [] else noted rs fault

theorem noted_of_stays (rs : List Request) (stay : ∀ r ∈ rs, Connection.closes r = false)
    (fault : Bool) :
    noted rs fault = List.replicate rs.length .served ++ if fault then [.readError] else [] := by
  induction rs with
  | nil => rfl
  | cons r rs ih =>
    obtain ⟨first, others⟩ := List.forall_mem_cons.mp stay
    rw [noted, first, ih others]
    rfl

def Ending.isFault : Ending → Bool
  | .clean => false
  | .broken => true

/-- what is counted of a stream -/
def Wire.Decoder.noted (d : Wire.Decoder) (ending : Ending) (s : Bytes) : List Note :=
  PipelinedHttp.noted (d.requests s) (d.faulty s || ending.isFault)

namespace Wire.Decoder
variable {d : Decoder} {s : Bytes}

theorem noted_of_more (h : (d.decode s).outcome = .more) (ending : Ending) (t : Bytes) :
    d.noted ending (s ++ t) = (d.decode s).decoder.noted ending ((d.decode s).rest ++ t) := by
  rw [noted, noted, requests_of_more h, faulty_of_more h]

theorem noted_of_failed {e : ReadError} (h : (d.decode s).outcome = .failed e) (ending : Ending)
    (t : Bytes) : d.noted ending (s ++ t) = [.readError] := by
  rw [noted, requests_of_failed h, faulty_of_failed h]
  rfl

theorem noted_of_request {r : Request} (h : (d.decode s).outcome = .request r) (ending : Ending)
    (t : Bytes) :
    d.noted ending (s ++ t) = .served :: if Connection.closes r then []
      else (d.decode s).decoder.reset.noted ending ((d.decode s).rest ++ t) := by
  rw [noted, requests_of_request h, faulty_of_request h, reset_of_pending (pending_of_request h)]
  rfl

/-- a decoder that wants more octets is at the end of the stream, or within a request -/
theorem noted_of_waiting (h : d.decode s = ⟨.more, d, s⟩) (ending : Ending) :
    d.noted ending s = if s ≠ [] ∨ ending.isFault = true then [.readError] else [] := by
  rw [noted, requests_eq_nil_of_more (by rw [h]), faulty_of_waiting h]
  cases s <;> cases ending <;> rfl

end Wire.Decoder

/-! ## what is due -/

def Need.due (d : Wire.Decoder) (ending : Ending) (s : Bytes) : Need → List Note
  | .request r => if Connection.closes r then [] else d.reset.noted ending s
  | .last => []

/-- what has still to be counted, if the decoder is to be given `s` -/
def Reader.due (d : Wire.Decoder) (ending : Ending) (s : Bytes) : Reader → List Note
  | .idle => d.reset.noted ending s
  | .decoding | .awaiting => d.noted ending s
  | .waiting n | .granted n => n.due d ending s
  | .handling r => (Need.request r).due d ending s
  | .closed => []

theorem Reader.due_of_asks {reader : Reader} {n : Need} (h : Connection.Reader.Asks reader n)
    (d : Wire.Decoder) (ending : Ending) (s : Bytes) : reader.due d ending s = n.due d ending s := by
  rcases h with rfl | rfl <;> rfl

namespace Connection
variable {c c' : Connection} {e : Event} {note : Option Note} {ending : Ending}
  {rest : List Arrival} {t : Bytes}

/-- what has still to be counted, if `t` is still to come, and then the end -/
def due (c : Connection) (ending : Ending) (t : Bytes) : List Note :=
  c.reader.due c.decoder ending (c.coming t)

theorem want_due (c : Connection) (n : Need) (ending : Ending) (t : Bytes)
    (h : c.queue.receiving = true) :
    (c.want n).due ending t = n.due c.decoder ending (c.coming t) := by
  obtain ⟨reader, queue, e, _, _, _, asks⟩ := want_spec c n
  rw [e]
  exact Reader.due_of_asks (asks h) _ _ _

theorem due_of_awaiting (s : c.Sane) (reader : c.reader = .awaiting) (empty : c.inbox = []) :
    c.due ending [] = if c.buffer ≠ [] ∨ ending.isFault = true then [.readError] else [] := by
  rw [due, coming, reader, empty, List.flatten_nil, List.append_nil, List.append_nil]
  exact Wire.Decoder.noted_of_waiting (s.awaiting reader) ending

theorem Reading.due (s : c.Sane) (isOpen : c.queue.receiving = true) (go : c.stopped = false)
    (known : ∀ e, c.ending = some e → e = ending) (ended : c.ending ≠ none → t = [])
    (h : Reading c e c' note) : note.toList ++ c'.due ending t = c.due ending t := by
  have halted {P : Prop} (halt : c.stopped = true) : P := by
    rw [go] at halt
    cases halt
  cases h with
  | haltIdle _ halt | halt _ halt => exact halted halt
  | begin reader | call reader | mark reader =>
    rw [Connection.due, Connection.due, reader]
    rfl
  | more reader _ turn =>
    rw [Connection.due, Connection.due, reader]
    exact (Wire.Decoder.noted_of_more turn ending _).symm
  | request reader _ turn =>
    rw [want_due _ _ _ _ (by exact isOpen), Connection.due, reader]
    exact (Wire.Decoder.noted_of_request turn ending _).symm
  | failed reader _ turn =>
    rw [want_due _ _ _ _ (by exact isOpen), Connection.due, reader]
    exact (Wire.Decoder.noted_of_failed turn ending _).symm
  | @piece p inbox reader _ next =>
    rw [Connection.due, Connection.due, reader, ← coming_of_piece next t]
    rfl
  | ended reader _ empty ends turn =>
    have none : t = [] := ended (by rw [ends]; exact nofun)
    have clean := known _ ends
    subst none clean
    rw [want_due _ _ _ _ (by exact isOpen), due_of_awaiting s reader empty]
    rw [Wire.Decoder.finish_of_waiting (s.awaiting reader)] at turn
    by_cases nil : c.buffer = []
    · rw [nil]
      rfl
    · rw [if_neg nil] at turn
      cases turn
  | cut reader _ empty ends turn =>
    have none : t = [] := ended (by rw [ends]; exact nofun)
    subst none
    rw [want_due _ _ _ _ (by exact isOpen), due_of_awaiting s reader empty]
    rw [Wire.Decoder.finish_of_waiting (s.awaiting reader)] at turn
    by_cases nil : c.buffer = []
    · rw [if_pos nil] at turn
      cases turn
    · rw [if_pos (.inl nil)]
      rfl
  | late reader _ empty ends turn =>
    rcases Wire.Decoder.finish_of_more (s.awaiting reader) with e | e <;> rw [e] at turn <;>
      cases turn
  | broken reader _ empty ends =>
    have none : t = [] := ended (by rw [ends]; exact nofun)
    have broken := known _ ends
    subst none broken
    rw [want_due _ _ _ _ (by exact isOpen), due_of_awaiting s reader empty, if_pos (.inr rfl)]
    rfl
  | refused _ shut =>
    rw [isOpen] at shut
    cases shut
  | @replyLast request r reader close =>
    rw [want_due _ _ _ _ (by exact isOpen), Connection.due, reader]
    show [] = if closes request = true then [] else _
    rw [if_pos close]
  | @reply request r reader stay =>
    rw [Connection.due, Connection.due, reader]
    show _ = if closes request = true then [] else _
    rw [stay]
    rfl

theorem Writing.due (h : Writing c e c' note) (ending : Ending) (t : Bytes) :
    c'.due ending t = c.due ending t := by
  have kept := h.reading_kept
  unfold Connection.due
  rw [h.coming, kept.decoder]
  rcases kept.reader with same | ⟨n, waiting, granted⟩
  · rw [same]
  · rw [waiting, granted]
    rfl

theorem Writing.note_of_smooth (h : Writing c e c' note) (smooth : ¬ Fails e) : note = none := by
  cases h with
  | take | takeLast | accept | acceptAll | flush | shutDown => rfl
  | stuck | flushFailed => exact absurd rfl smooth
  | refuse => exact absurd trivial smooth

theorem arrive_due (c : Connection) (a : Arrival) (ending : Ending) (rest : List Arrival) :
    (c.arrive a).due ending (incoming rest) = c.due ending (incoming (a :: rest)) := by
  unfold due
  rw [arrive_coming]
  cases a <;> rfl

/-! ## runs -/

/-- the client sends octets, and then the stream ends as it does -/
structure Ends (ending : Ending) (c : Connection) (rest : List Arrival) : Prop where
  known : ∀ e, c.ending = some e → e = ending
  coming : ∀ a ∈ rest, (∃ s, a = .octets s) ∨ a = ofEnding ending

theorem Ends.step (ends : Ends ending c (arrivals [e] ++ rest)) (h : Step c e c' note) :
    Ends ending c' rest := by
  have later : ∀ a ∈ rest, (∃ s, a = .octets s) ∨ a = ofEnding ending :=
    fun a ha => ends.coming a (List.mem_append_right _ ha)
  refine ⟨?_, later⟩
  cases h with
  | stop => exact ends.known
  | reading h => exact h.writing_kept.ending ▸ ends.known
  | writing h => exact h.reading_kept.ending ▸ ends.known
  | arrive a =>
    have first := ends.coming a List.mem_cons_self
    cases a with
    | octets s => exact ends.known
    | ended =>
      intro e he
      cases before : c.ending with
      | some e' =>
        rw [arrive, before] at he
        cases he
        exact ends.known _ before
      | none =>
        rw [arrive, before] at he
        cases he
        rcases first with ⟨s, octets⟩ | same
        · cases octets
        · cases ending with
          | clean => rfl
          | broken => cases same
    | failed =>
      intro e he
      cases he
      rcases first with ⟨s, octets⟩ | same
      · cases octets
      · cases ending with
        | clean => cases same
        | broken => rfl

/-- **What is counted and what is due**, together, are what was due before a step. -/
theorem Step.due (s : c.Sane) (come : c.ToCome (arrivals [e] ++ rest))
    (ends : Ends ending c (arrivals [e] ++ rest))
    (ended : c.queue.receiving = false → c.reader = .closed) (go : c.stopped = false)
    (smooth : ¬ Fails e ∧ e ≠ .stop) (h : Step c e c' note) :
    note.toList ++ c'.due ending (incoming rest)
      = c.due ending (incoming (arrivals [e] ++ rest)) := by
  cases h with
  | arrive a => exact arrive_due c a ending rest
  | stop => exact absurd rfl smooth.2
  | reading h =>
    rw [h.arrivals, List.nil_append] at come ⊢
    have isOpen : c.queue.receiving = true := by
      rw [← Bool.not_eq_false]
      exact fun shut => h.reader_ne_closed (ended shut)
    exact h.due s isOpen go ends.known come.incoming_eq_nil
  | writing h =>
    rw [h.arrivals, h.note_of_smooth smooth.1, h.due]
    rfl

theorem run_due {es : List Event} {notes : List Note} (s : c.Sane)
    (come : c.ToCome (arrivals es ++ rest)) (ends : Ends ending c (arrivals es ++ rest))
    (ended : c.queue.receiving = false → c.reader = .closed) (go : c.stopped = false)
    (smooth : ∀ e ∈ es, ¬ Fails e ∧ e ≠ .stop) (h : c.run es = some (c', notes)) :
    notes ++ c'.due ending (incoming rest) = c.due ending (incoming (arrivals es ++ rest)) := by
  induction es generalizing c notes with
  | nil =>
    cases h
    rfl
  | cons e es ih =>
    obtain ⟨m, note, more, hs, hr, rfl⟩ := run_cons h
    have step := step_cases hs
    obtain ⟨first, others⟩ := List.forall_mem_cons.mp smooth
    rw [arrivals_cons, List.append_assoc] at come ends ⊢
    have later := ih (s.step step) (come.step step) (ends.step step) (step.ended s ended first.1)
      ((step.stopped first).trans go) others hr
    rw [List.append_assoc, later]
    exact step.due s come ends ended go first

theorem noted_of_run (serverName date : Bytes) (queueCapacity maxBody : Nat) (pieces : List Bytes)
    (ending : Ending) {es : List Event} {notes : List Note}
    (run : (ofSettings serverName date queueCapacity maxBody false).run es = some (c, notes))
    (script : arrivals es <+: pieces.map .octets ++ [ofEnding ending])
    (smooth : ∀ e ∈ es, ¬ Fails e ∧ e ≠ .stop) :
    ∃ due, notes ++ due = (Wire.Decoder.ofMaxBody maxBody).noted ending pieces.flatten
      ∧ (c.reader = .closed → due = []) := by
  obtain ⟨rest, script⟩ := script
  have sane := sane_ofSettings serverName date queueCapacity maxBody false
  have come := toCome_ofSettings serverName date queueCapacity maxBody false pieces ending
  have ends : Ends ending (ofSettings serverName date queueCapacity maxBody false)
      (pieces.map .octets ++ [ofEnding ending]) := by
    refine ⟨nofun, fun a ha => ?_⟩
    rcases List.mem_append.mp ha with piece | last
    · obtain ⟨s, -, rfl⟩ := List.mem_map.mp piece
      exact .inl ⟨s, rfl⟩
    · exact .inr (List.mem_singleton.mp last)
  rw [← script] at come ends
  have conserved := run_due sane come ends nofun rfl smooth run
  rw [script, incoming_pieces] at conserved
  refine ⟨c.due ending (incoming rest), conserved, fun closed => ?_⟩
  rw [due, closed]
  rfl

/-! ## streams that end within a request -/

/-- **A stream that ends within a request.**  Let the stream be whole requests, none of which closes
the connection, then a part of a further one, and then its end.  Whatever the pieces are, the whole
requests are read and no other.  If the last one keeps the limits, nothing fails before the end; the
end itself is a failure, unless it is right behind a head.  A connection counts the requests and one
fault behind them, and none if the end is right behind a head. -/
theorem notes_of_cut (serverName date : Bytes) (queueCapacity maxBody : Nat) (ws : List Wire.Whole)
    (fit : ∀ w ∈ ws, w.Fits maxBody) (stay : ∀ w ∈ ws, closes w.request = false) (w : Wire.Whole)
    {front back : Bytes} (cut : w.octets = front ++ back) (begun : front ≠ [])
    (unfinished : back ≠ []) {pieces : List Bytes}
    (stream : pieces.flatten = ws.flatMap Wire.Whole.octets ++ front) :
    let i := (Wire.Intake.ofMaxBody maxBody).feedAll pieces
    i.requests = ws.map Wire.Whole.request
      ∧ (w.Fits maxBody → i.failure = none
        ∧ (i.decoder.finish i.buffer).outcome = if front = w.opening then .more
            else .failed (.transport "bytes remaining on stream"))
      ∧ (i.faulty = true ↔ ¬ (front = w.opening ∧ w.Fits maxBody))
      ∧ ∀ {es c notes},
          (ofSettings serverName date queueCapacity maxBody false).run es = some (c, notes) →
          arrivals es <+: pieces.map .octets ++ [.ended] →
          (∀ e ∈ es, ¬ Fails e ∧ e ≠ .stop) →
          ∃ due, notes ++ due = List.replicate ws.length .served
                ++ (if i.faulty then [.readError] else [])
            ∧ (c.reader = .closed → due = []) := by
  intro i
  have requests : i.requests = ws.map Wire.Whole.request := by
    rw [show i.requests = _ from Wire.Intake.requests_feedAll fit stream,
      Wire.Whole.requests_cut maxBody cut begun unfinished, List.append_nil]
  have faulty : i.faulty = (Wire.Decoder.ofMaxBody maxBody).faulty front :=
    Wire.Intake.faulty_feedAll fit stream
  have whole := Wire.Intake.feedAll_ofMaxBody maxBody pieces
  refine ⟨requests, fun small => ?_, ?_, fun run script smooth => ?_⟩
  · rw [stream, Wire.Intake.drain_wholes ws fit] at whole
    obtain ⟨failure, finish⟩ := Wire.Whole.finish_cut small cut begun unfinished
      ([] ++ ws.map Wire.Whole.request)
    rw [show i = _ from whole.eq_of_none failure]
    exact ⟨failure, finish⟩
  · rw [faulty]
    exact Wire.Whole.faulty_cut maxBody cut begun unfinished
  · obtain ⟨due, conserved, closed⟩ := noted_of_run serverName date queueCapacity maxBody pieces
      .clean run script smooth
    refine ⟨due, ?_, closed⟩
    have stay : ∀ r ∈ i.requests, closes r = false := by
      rw [requests]
      exact List.forall_mem_map.mpr stay
    have noted : (Wire.Decoder.ofMaxBody maxBody).noted .clean pieces.flatten
        = noted i.requests i.faulty := by
      rw [show i.requests = _ from whole.requests, show i.faulty = _ from whole.faulty]
      exact congrArg (noted _) (Bool.or_false _)
    rw [conserved, noted, noted_of_stays _ stay, requests, List.length_map]

/-- a request without a body -/
def visit : Wire.Whole where
  opening := Bytes.ofAscii "POST / HTTP/1.1\r\n\r\n"
  body := []
  head := .post []
  said := Wire.Head.posted []
  read := by decide +kernel
  target := Wire.Head.toRequest_post []
  length := rfl

/-- a request with a body of five octets -/
def upload : Wire.Whole where
  opening := Bytes.ofAscii "POST / HTTP/1.1\r\nContent-Length: 5\r\n\r\n"
  body := Bytes.ofAscii "hello"
  head := .post [⟨FieldName.contentLength, [53]⟩]
  said := Wire.Head.posted [⟨FieldName.contentLength, [53]⟩]
  read := by decide +kernel
  target := Wire.Head.toRequest_post _
  length := rfl

/-- a request without a body, and one that is cut two octets behind its head -/
theorem notes_of_cut_in_body :
    let start := ofSettings (Bytes.ofAscii "s") (Bytes.ofAscii "d") 1 16 false
    let front := upload.opening ++ Bytes.ofAscii "he"
    ∃ es c, arrivals es = [.octets visit.octets, .octets front, .ended]
      ∧ start.run es = some (c, [.served, .readError]) ∧ c.finished = true := by
  intro start front
  let es : List Event := [.arrive (.octets visit.octets), .arrive (.octets front), .arrive .ended,
    .read, .read, .read, .read, .read, .reply .ok, .take, .accept 58, .flush true, .read, .read,
    .read, .read, .read, .read, .take, .shutDown true]
  have finishes : (start.run es).any (·.1.finished) = true := by decide +kernel
  obtain ⟨⟨c, notes⟩, run, finished⟩ := (Option.any_eq_true _ _).mp finishes
  have fit : ∀ w ∈ [visit], w.Fits 16 := by
    rintro w (_ | ⟨_, ⟨⟩⟩)
    exact ⟨by decide, by decide⟩
  have cut : upload.octets = front ++ Bytes.ofAscii "llo" := rfl
  have stream : [visit.octets, front].flatten = [visit].flatMap Wire.Whole.octets ++ front := rfl
  obtain ⟨-, -, faulty, counted⟩ := notes_of_cut (Bytes.ofAscii "s") (Bytes.ofAscii "d") 1 16 [visit]
    fit (by decide) upload cut nofun nofun stream
  obtain ⟨due, conserved, closed⟩ := counted run (List.prefix_refl _) (by simp [es, Fails])
  have none := closed (finished_iff.mp finished).1
  have fault : ((Wire.Intake.ofMaxBody 16).feedAll [visit.octets, front]).faulty = true :=
    faulty.mpr fun all => absurd all.1 (by decide)
  rw [none, List.append_nil, fault] at conserved
  rw [conserved] at run
  exact ⟨es, c, rfl, run, finished⟩

/-- **An end right behind a head is not seen.**  The body of the request has not come, and still the
end of the stream is no failure, and the connection ends without having counted anything. -/
theorem not_counted_behind_head :
    let front := upload.opening
    let i := (Wire.Intake.ofMaxBody 16).feedAll [front]
    let start := ofSettings (Bytes.ofAscii "s") (Bytes.ofAscii "d") 1 16 false
    upload.octets = front ++ Bytes.ofAscii "hello" ∧ upload.Fits 16 ∧ closes upload.request = false
      ∧ i.requests = [] ∧ i.failure = none ∧ (i.decoder.finish i.buffer).outcome = .more
      ∧ ∃ es c, arrivals es = [.octets front, .ended] ∧ start.run es = some (c, [])
        ∧ c.finished = true := by
  intro front i start
  have fit : upload.Fits 16 := ⟨by decide, by decide⟩
  have waits : ((Wire.Decoder.ofMaxBody 16).decode front).outcome = .more := by decide +kernel
  have whole : i = Wire.Intake.drain ⟨.ofMaxBody 16, front, [], none⟩ :=
    (Wire.Intake.feedAll_ofMaxBody 16 [front]).eq_of_none
      (by rw [Wire.Intake.drain_of_more (by exact waits)]; rfl)
  rw [Wire.Intake.drain_of_more (by exact waits)] at whole
  let es : List Event := [.arrive (.octets front), .arrive .ended, .read, .read, .read, .read, .read,
    .read, .take, .shutDown true]
  have finishes : (start.run es).any (fun m => m.1.finished ∧ m.2 = []) = true := by decide +kernel
  obtain ⟨⟨c, notes⟩, run, ends⟩ := (Option.any_eq_true _ _).mp finishes
  obtain ⟨finished, rfl⟩ := of_decide_eq_true ends
  refine ⟨rfl, fit, rfl, ?_, ?_, ?_, es, c, rfl, run, finished⟩
  · rw [whole]
    rfl
  · rw [whole]
    rfl
  · rw [whole]
    decide +kernel

end Connection

end PipelinedHttp
