import PipelinedHttp.Proofs.Connection.Notes
import PipelinedHttp.Proofs.Wire.Pending

/-!
# The reset between two requests

The reading loop resets its decoder before it reads the next request.  A reset drops the head that is
held, and the octets of that head are gone from the buffer: the body behind it would be read as a
request.  It never comes to that, since the loop is back at its start with an idle decoder only.

* `Step.rested`           a request that is out has left the decoder idle, until the loop reads again;
* `runUnreset_eq`         so a loop without the reset takes the same steps;
* `Step.follows`          what a step does with decoder and buffer, as uses of a session;
* `reset_drops_nothing`   all octets that have come are taken by the turns, or in the buffer, or not read
                          yet, and a head is held from the turn that cuts it off to the one that gives
                          its request out.
-/

namespace PipelinedHttp

/-- the reading loop has a request in hand, or is about to begin with the next -/
def Reader.Between : Reader → Prop
  | .idle | .waiting (.request _) | .granted (.request _) | .handling _ => True
  | .decoding | .awaiting | .waiting .last | .granted .last | .closed => False

namespace Connection
variable {c c' : Connection} {e : Event} {es : List Event} {note : Option Note} {notes : List Note}
  {s : Wire.Session} {came : Bytes}

/-! ## between two requests the decoder is idle -/

/-- between two requests there is no head to drop -/
def Rested (c : Connection) : Prop := c.reader.Between → c.decoder.pending = none

theorem rested_want {n : Need} (idle : c.decoder.pending = none) : (c.want n).Rested := by
  obtain ⟨reader, queue, e, -⟩ := want_spec c n
  rw [e]
  exact fun _ => idle

theorem rested_want_last (c : Connection) : (c.want .last).Rested := by
  intro between
  rcases want_cases c .last with ⟨-, e⟩ | ⟨-, -, e⟩ | ⟨-, -, e⟩
  all_goals
    rw [e] at between
    exact between.elim

theorem Reading.rested (h : Reading c e c' note) (rested : c.Rested) : c'.Rested := by
  cases h with
  -- the loop is within a request, or has ended
  | begin | more | piece | refused | mark => exact False.elim
  | haltIdle | halt | failed | ended | cut | broken | replyLast => exact rested_want_last _
  -- a request has just come out, and with it the head that was held
  | request _ _ turn => exact rested_want (Wire.Decoder.pending_of_request turn)
  | late _ _ _ _ turn =>
    obtain ⟨outcome, finish, same⟩ := c.decoder.finish_eq c.buffer
    rw [finish] at turn ⊢
    exact rested_want (Wire.Decoder.pending_of_request (same _ turn))
  -- nothing is decoded while the handler has the request
  | call reader | reply _ reader =>
    rw [Rested, reader] at rested
    exact fun _ => rested trivial

/-- a slot that is granted leaves the reading loop at the same request -/
theorem ReadingKept.rested (h : ReadingKept c c') (rested : c.Rested) : c'.Rested := by
  intro between
  rw [h.decoder]
  refine rested ?_
  rcases h.reader with same | ⟨n, waiting, granted⟩
  · exact same ▸ between
  · rw [granted] at between
    rw [waiting]
    cases n with
    | request r => trivial
    | last => exact between

theorem Step.rested (h : Step c e c' note) (rested : c.Rested) : c'.Rested := by
  cases h with
  | reading h => exact h.rested rested
  | writing h => exact h.reading_kept.rested rested
  | stop => exact rested
  | arrive a => cases a <;> exact rested

theorem rested_ofSettings (serverName date : Bytes) (queueCapacity maxBody : Nat) (stopped : Bool) :
    (ofSettings serverName date queueCapacity maxBody stopped).Rested := fun _ => rfl

/-! ## the loop without the reset -/

/-- a step of the reading loop that leaves the decoder as it is before the next request -/
def readUnreset (c : Connection) : Option (Connection × Option Note) :=
  match c.reader with
  | .idle =>
    if c.stopped then some (c.want .last, none) else some ({ c with reader := .decoding }, none)
  | _ => c.read

def stepUnreset (c : Connection) : Event → Option (Connection × Option Note)
  | .read => c.readUnreset
  | e => c.step e

def runUnreset (c : Connection) : List Event → Option (Connection × List Note)
  | [] => some (c, [])
  | e :: es =>
    match c.stepUnreset e with
    | none => none
    | some (c, note) =>
      match c.runUnreset es with
      | none => none
      | some (c, notes) => some (c, note.toList ++ notes)

theorem readUnreset_eq (rested : c.Rested) : c.readUnreset = c.read := by
  unfold readUnreset
  split
  · rename_i reader
    have between : c.reader.Between := by rw [reader]; trivial
    rw [read, reader]
    dsimp only
    rw [Wire.Decoder.reset_of_pending (rested between), ← reader]
  · rfl

theorem stepUnreset_eq (rested : c.Rested) (e : Event) : c.stepUnreset e = c.step e := by
  unfold stepUnreset
  split
  · exact readUnreset_eq rested
  · rfl

theorem runUnreset_eq (rested : c.Rested) (es : List Event) : c.runUnreset es = c.run es := by
  induction es generalizing c with
  | nil => rfl
  | cons e es ih =>
    rw [runUnreset, run, stepUnreset_eq rested]
    cases step : c.step e with
    | none => rfl
    | some next =>
      obtain ⟨m, note⟩ := next
      have rest : m.runUnreset es = m.run es := ih ((step_cases step).rested rested)
      dsimp only
      generalize m.runUnreset es = later at rest ⊢
      subst rest
      rfl

/-! ## the uses of the decoder -/

/-- what a step does with the decoder and its buffer -/
def uses (c : Connection) : Event → List Wire.Use
  | .read =>
    if c.stopped then []
    else match c.reader, c.inbox, c.ending with
      | .decoding, _, _ => [.turn]
      | .awaiting, piece :: _, _ => [.feed piece]
      | .awaiting, [], some .clean => [.turn]
      | _, _, _ => []
  | _ => []

theorem uses_of_stopped (halt : c.stopped = true) : c.uses .read = [] := if_pos halt

theorem uses_of_other (decoding : c.reader ≠ .decoding) (awaiting : c.reader ≠ .awaiting) (e : Event) :
    c.uses e = [] := by
  unfold uses
  split
  · split
    · rfl
    · split
      · contradiction
      · contradiction
      · contradiction
      · rfl
  · rfl

theorem uses_of_decoding (reader : c.reader = .decoding) (go : c.stopped = false) :
    c.uses .read = [.turn] := by
  rw [uses, go, reader]
  rfl

theorem uses_of_piece {piece : Bytes} {inbox : List Bytes} (reader : c.reader = .awaiting)
    (go : c.stopped = false) (next : c.inbox = piece :: inbox) : c.uses .read = [.feed piece] := by
  rw [uses, go, reader, next]
  rfl

theorem uses_of_ended (reader : c.reader = .awaiting) (go : c.stopped = false) (empty : c.inbox = [])
    (ending : c.ending = some .clean) : c.uses .read = [.turn] := by
  rw [uses, go, reader, empty, ending]
  rfl

theorem uses_of_broken (reader : c.reader = .awaiting) (go : c.stopped = false) (empty : c.inbox = [])
    (ending : c.ending = some .broken) : c.uses .read = [] := by
  rw [uses, go, reader, empty, ending]
  rfl

theorem Writing.uses (h : Writing c e c' note) : c.uses e = [] := by
  cases h <;> rfl

/-- the session has the decoder and the buffer of the connection, and all octets that have come are fed
to it but those that are not read yet -/
structure Follows (s : Wire.Session) (came : Bytes) (c : Connection) : Prop where
  decoder : s.decoder = c.decoder
  buffer : s.buffer = c.buffer
  octets : came = s.taken ++ s.buffer ++ c.inbox.flatten

theorem Follows.want (follows : Follows s came c) (n : Need) : Follows s came (c.want n) := by
  obtain ⟨reader, queue, e, -⟩ := want_spec c n
  rw [e]
  exact ⟨follows.decoder, follows.buffer, follows.octets⟩

theorem Follows.turn (follows : Follows s came c) :
    Follows (s.use .turn) came (c.after (c.decoder.decode c.buffer)) := by
  obtain ⟨decoder, buffer, octets⟩ := follows
  refine ⟨?_, ?_, ?_⟩
  · show (s.decoder.decode s.buffer).decoder = _
    rw [decoder, buffer]
    rfl
  · show (s.decoder.decode s.buffer).rest = _
    rw [decoder, buffer]
    rfl
  · rw [s.fed_use .turn, octets]
    exact congrArg (· ++ _) (List.append_nil _).symm

theorem Follows.feed {piece : Bytes} {inbox : List Bytes} (follows : Follows s came c)
    (next : c.inbox = piece :: inbox) : Follows (s.use (.feed piece)) came
      { c with inbox, buffer := c.buffer ++ piece, reader := .decoding } := by
  refine ⟨follows.decoder, congrArg (· ++ piece) follows.buffer, ?_⟩
  rw [s.fed_use, follows.octets, next, List.flatten_cons, ← List.append_assoc]
  rfl

/-- the end of the stream is a turn too -/
theorem Follows.finish (follows : Follows s came c) :
    Follows (s.use .turn) came (c.after (c.decoder.finish c.buffer)) := by
  obtain ⟨outcome, finish, -⟩ := c.decoder.finish_eq c.buffer
  rw [finish]
  exact ⟨follows.turn.decoder, follows.turn.buffer, follows.turn.octets⟩

theorem Follows.same (follows : Follows s came c) (decoder : c'.decoder = c.decoder)
    (buffer : c'.buffer = c.buffer) (inbox : c'.inbox = c.inbox) : Follows s came c' :=
  ⟨follows.decoder.trans decoder.symm, follows.buffer.trans buffer.symm, inbox ▸ follows.octets⟩

theorem Reading.follows (h : Reading c e c' note) (rested : c.Rested) (follows : Follows s came c) :
    Follows (s.run (c.uses e)) came c' := by
  have still (reader : c.reader = .idle) : c.decoder.reset = c.decoder :=
    Wire.Decoder.reset_of_pending (rested (by rw [reader]; trivial))
  have unused {reader : Reader} (here : c.reader = reader)
      (other : reader ≠ .decoding ∧ reader ≠ .awaiting) : s.run (c.uses e) = s := by
    rw [uses_of_other (here ▸ other.1) (here ▸ other.2)]
    rfl
  cases h with
  | begin reader =>
    rw [unused reader ⟨nofun, nofun⟩]
    exact follows.same (still reader) rfl rfl
  | haltIdle reader =>
    rw [unused reader ⟨nofun, nofun⟩]
    refine .want ?_ _
    exact follows.same (still reader) rfl rfl
  | halt _ halt =>
    rw [uses_of_stopped halt]
    exact follows.want _
  | more reader go =>
    rw [uses_of_decoding reader go]
    exact follows.turn.same rfl rfl rfl
  | request reader go =>
    rw [uses_of_decoding reader go]
    refine .want ?_ _
    exact follows.turn.same rfl rfl rfl
  | failed reader go =>
    rw [uses_of_decoding reader go]
    exact follows.turn.want _
  | piece reader go next =>
    rw [uses_of_piece reader go next]
    exact follows.feed next
  | ended reader go empty ending | cut reader go empty ending =>
    rw [uses_of_ended reader go empty ending]
    exact follows.finish.want _
  | late reader go empty ending =>
    rw [uses_of_ended reader go empty ending]
    refine .want ?_ _
    exact follows.finish.same rfl rfl rfl
  | broken reader go empty ending =>
    rw [uses_of_broken reader go empty ending]
    exact follows.want _
  | refused reader =>
    rcases reader with reader | reader <;> rw [unused reader ⟨nofun, nofun⟩]
    all_goals exact follows.same rfl rfl rfl
  | call reader | mark reader | reply _ reader =>
    rw [unused reader ⟨nofun, nofun⟩]
    exact follows.same rfl rfl rfl
  | replyLast _ reader =>
    rw [unused reader ⟨nofun, nofun⟩]
    refine .want ?_ _
    exact follows.same rfl rfl rfl

theorem Step.follows (h : Step c e c' note) (rested : c.Rested) (follows : Follows s came c) :
    Follows (s.run (c.uses e)) (came ++ incoming (arrivals [e])) c' := by
  have silent {t : Wire.Session} (later : Follows t came c') : Follows t (came ++ []) c' := by
    rw [List.append_nil]
    exact later
  cases h with
  | reading h =>
    rw [h.arrivals]
    exact silent (h.follows rested follows)
  | writing h =>
    rw [h.arrivals, h.uses]
    have kept := h.reading_kept
    exact silent (follows.same kept.decoder kept.buffer kept.inbox)
  | stop => exact silent (follows.same rfl rfl rfl)
  | arrive a =>
    cases a with
    | octets piece =>
      refine ⟨follows.decoder, follows.buffer, ?_⟩
      show came ++ (piece ++ []) = _ ++ (c.inbox ++ [piece]).flatten
      rw [follows.octets, List.flatten_append, List.append_assoc]
      rfl
    | ended | failed => exact silent (follows.same rfl rfl rfl)

/-- what a run does with decoder and buffer are uses of a session -/
theorem follows_run (rested : c.Rested) (follows : Follows s came c) (h : c.run es = some (c', notes)) :
    Follows (s.run (c.collect uses es)) (came ++ incoming (arrivals es)) c' := by
  induction es generalizing c s came notes with
  | nil =>
    cases h
    show Follows s (came ++ []) _
    rw [List.append_nil]
    exact follows
  | cons e es ih =>
    obtain ⟨m, note, rest, hs, hr, rfl⟩ := run_cons h
    have step := step_cases hs
    have whole := ih (step.rested rested) (step.follows rested follows) hr
    rw [collect_cons hs, arrivals_cons, incoming_append, ← List.append_assoc]
    rw [show s.run (c.uses e ++ m.collect uses es) = (s.run (c.uses e)).run (m.collect uses es) from
      List.foldl_append]
    exact whole

theorem follows_ofSettings (serverName date : Bytes) (queueCapacity maxBody : Nat) (stopped : Bool) :
    Follows (.ofMaxBody maxBody) []
      (ofSettings serverName date queueCapacity maxBody stopped) := ⟨rfl, rfl, rfl⟩

/-! ## nothing is dropped -/

/-- what a connection has to do with the turns of its decoder, and with the octets that have come -/
structure Undropped (s : Wire.Session) (came : Bytes) (c : Connection) : Prop where
  decoder : s.decoder = c.decoder
  buffer : s.buffer = c.buffer
  octets : came = s.taken ++ c.buffer ++ c.inbox.flatten
  /-- where the loop resets its decoder there is nothing to drop -/
  reset : c.reader = .idle → c.decoder.idle = true ∧ c.decoder.reset = c.decoder
  /-- a head is held if a turn has cut it off without its body, and no turn has decided since then -/
  holds : ∀ said n, c.decoder.pending = some (said, n) ↔ s.Awaits said n
  /-- a head that is held is held further, or its request is given out -/
  continues : ∀ p ∈ s.passes, ∀ said n, p.decoder.pending = some (said, n) → p.Continues said n

/-- **The reset drops nothing.**  Whatever is done, the reading loop would do the same without it.  All
octets that have come are taken by the turns, in the buffer, or not read yet; where the loop resets its
decoder it is idle, and it is not idle from a turn that cuts a head off without its body to the turn that
gives the request out. -/
theorem reset_drops_nothing (serverName date : Bytes) (queueCapacity maxBody : Nat) (stopped : Bool)
    (es : List Event) :
    let start := ofSettings serverName date queueCapacity maxBody stopped
    start.runUnreset es = start.run es
      ∧ ∀ c notes, start.run es = some (c, notes) →
        Undropped ((Wire.Session.ofMaxBody maxBody).run (start.collect uses es))
          (incoming (arrivals es)) c := by
  intro start
  have rested : start.Rested := rested_ofSettings serverName date queueCapacity maxBody stopped
  refine ⟨runUnreset_eq rested es, fun c notes run => ?_⟩
  have follows := follows_run rested
    (follows_ofSettings serverName date queueCapacity maxBody stopped) run
  refine ⟨follows.decoder, follows.buffer, ?_, fun idle => ?_, fun said n => ?_, ?_⟩
  · rw [← follows.buffer]
    exact follows.octets
  · have still : c.Rested := run_invariant Step.rested rested run
    have pending := still (by rw [idle]; trivial)
    exact ⟨Wire.Decoder.idle_iff.mpr pending, Wire.Decoder.reset_of_pending pending⟩
  · rw [← follows.decoder]
    exact Wire.Session.pending_iff maxBody _ said n
  · intro p _ said n pending
    exact p.continues pending

/-- a head is held while its body is cut in two, and it is gone when the loop begins with the next
request -/
theorem reset_drops_nothing_of_upload :
    let start := ofSettings (Bytes.ofAscii "s") (Bytes.ofAscii "d") 1 16 false
    let es : List Event := [.read, .read, .arrive (.octets (upload.opening ++ Bytes.ofAscii "he")),
      .read, .read]
    let fs : List Event := es ++ [.arrive (.octets (Bytes.ofAscii "llo")), .read, .read, .read,
      .reply .ok]
    (∃ c, start.run es = some (c, []) ∧ c.decoder.pending = some (upload.said, 5)
        ∧ ((Wire.Session.ofMaxBody 16).run (start.collect uses es)).Awaits upload.said 5)
      ∧ ∃ c, start.run fs = some (c, [.served]) ∧ start.runUnreset fs = some (c, [.served])
        ∧ c.reader = .idle ∧ c.decoder.idle = true := by
  intro start es fs
  constructor
  · have held : (start.run es).any (fun m => m.2 = [] ∧ m.1.decoder.pending = some (upload.said, 5))
        = true := by decide +kernel
    obtain ⟨⟨c, notes⟩, run, there⟩ := (Option.any_eq_true _ _).mp held
    obtain ⟨rfl, pending⟩ := of_decide_eq_true there
    have undropped := (reset_drops_nothing (Bytes.ofAscii "s") (Bytes.ofAscii "d") 1 16 false es).2
    exact ⟨c, run, pending, (undropped c [] run).holds upload.said 5 |>.mp pending⟩
  · have back : (start.run fs).any (fun m => m.2 = [.served] ∧ m.1.reader matches .idle) = true := by
      decide +kernel
    obtain ⟨⟨c, notes⟩, run, there⟩ := (Option.any_eq_true _ _).mp back
    obtain ⟨rfl, idle⟩ := of_decide_eq_true there
    have idle : c.reader = .idle := by
      cases reader : c.reader with
      | idle => rfl
      | _ => simp [reader] at idle
    obtain ⟨same, undropped⟩ :=
      reset_drops_nothing (Bytes.ofAscii "s") (Bytes.ofAscii "d") 1 16 false fs
    exact ⟨c, run, same.trans run, idle, ((undropped c _ run).reset idle).1⟩

end Connection

end PipelinedHttp
