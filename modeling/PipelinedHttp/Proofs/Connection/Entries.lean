import PipelinedHttp.Proofs.Connection.Ledger

/-!
# The entries of the queue, and the last mark

What the reading loop puts into the queue over a whole run (`put`), next to what the handler is
called for (`handed`) and what it returns (`returned`).  `Entered` says what the three have to do with
each other and with the state of the connection: the entries are the replies, in the order of the
calls, and a last mark behind them once the reading loop has ended, unless it was left alone
(`LeftAlone`), which means that the writing loop had gone first.

* `Step.entered`      each step keeps it;
* `entered_run`       so it holds along every run;
* `one_last_mark`     so there is one last mark, behind all replies, and the writing loop has written
                      them all when it comes to it.
-/

namespace PipelinedHttp

/-- what an answered request leaves in the queue -/
def Slot.ofAnswered (answered : Request × Reply) : Slot := .reply (answered.2.finish answered.1)

namespace Reader

/-- the request that the handler is at work for -/
def inHand : Reader → List Request
  | .handling r => [r]
  | _ => []

/-- the request that the handler is called for next -/
def nextCall : Reader → List Request
  | .granted (.request r) => [r]
  | _ => []

/-- the last mark, if it is put next -/
def nextMark : Reader → List Slot
  | .granted .last => [.last]
  | _ => []

theorem AtRest.nothing {reader : Reader} (h : reader.AtRest) :
    reader.inHand = [] ∧ reader.nextCall = [] ∧ reader.nextMark = [] := by
  cases reader with
  | idle | decoding | awaiting => exact ⟨rfl, rfl, rfl⟩
  | waiting | granted | handling | closed => cases h

end Reader

namespace Connection
variable {c m c' : Connection} {e : Event} {note : Option Note} {P Q : Prop} {entries : List Slot}
  {log : List (Request × Reply)} {calls : List Request}

/-! ## what a step puts into the queue -/

/-- what the reading loop puts into the queue -/
def put (c : Connection) : Event → List Slot
  | .reply r => (c.returned (.reply r)).map Slot.ofAnswered
  | .read => if c.queue.receiving then c.reader.nextMark else []
  | _ => []

/-- what the handler is called for -/
def handed (c : Connection) : Event → List Request
  | .read => if c.queue.receiving then c.reader.nextCall else []
  | _ => []

/-- The handler returns what it has been called for.  What it returns is put into the queue, and
nothing else is but the last mark, with which the reading loop ends; it ends without it at a closed
queue only. -/
structure Puts (c c' : Connection) (e : Event) : Prop where
  handed : c.reader.inHand ++ c.handed e = (c.returned e).map Prod.fst ++ c'.reader.inHand
  slots : c'.queue.slots = c.queue.slots ++ c.put e
  put : c.put e = (c.returned e).map Slot.ofAnswered
      ∧ (c'.reader = .closed → c.queue.receiving = false)
    ∨ c.put e = [.last] ∧ c.returned e = [] ∧ c'.reader = .closed ∧ c.queue.receiving = true

theorem Puts.rest (rest : c.reader.AtRest) (inHand : c'.reader.inHand = [])
    (slots : c'.queue.slots = c.queue.slots)
    (ends : c'.reader = .closed → c.queue.receiving = false) : Puts c c' .read := by
  obtain ⟨none, call, mark⟩ := rest.nothing
  have put : c.put .read = [] := by
    unfold Connection.put
    rw [mark, ite_self]
  have handed : c.handed .read = [] := by
    unfold Connection.handed
    rw [call, ite_self]
  refine ⟨?_, ?_, .inl ⟨put, ends⟩⟩
  · rw [none, handed, inHand]
    rfl
  · rw [put, List.append_nil]
    exact slots

theorem want_inHand (c : Connection) (n : Need) : (c.want n).reader.inHand = [] := by
  obtain ⟨reader, queue, e, -, -, closed, asks⟩ := want_spec c n
  rw [e]
  cases isOpen : c.queue.receiving with
  | false => rw [(closed isOpen).1]; rfl
  | true => rcases asks isOpen with e | e <;> rw [e] <;> rfl

theorem want_ends {n : Need} (closed : (c.want n).reader = .closed) : c.queue.receiving = false := by
  obtain ⟨reader, queue, e, -, -, -, asks⟩ := want_spec c n
  rw [e] at closed
  have closed : reader = .closed := closed
  rw [← Bool.not_eq_true]
  intro isOpen
  rcases asks isOpen with e | e <;> rw [e] at closed <;> cases closed

theorem Puts.want (rest : c.reader.AtRest) (same : m.queue = c.queue) (n : Need) :
    Puts c (m.want n) .read :=
  .rest rest (want_inHand m n) ((want_slots m n).trans (congrArg ReplyQueue.slots same))
    fun closed => same ▸ want_ends closed

theorem Reading.puts (h : Reading c e c' note) : Puts c c' e := by
  cases h with
  | begin reader | more reader | piece reader => exact .rest (by rw [reader]; trivial) rfl rfl nofun
  | haltIdle reader | request reader | failed reader | ended reader | cut reader | late reader
  | broken reader =>
    refine .want ?_ ?_ _
    · rw [reader]
      trivial
    · rfl
  | halt reader =>
    refine .want ?_ rfl _
    rcases reader with e | e <;> rw [e] <;> trivial
  | refused reader shut =>
    have put : c.put .read = [] := if_neg (by rw [shut]; exact nofun)
    have handed : c.handed .read = [] := if_neg (by rw [shut]; exact nofun)
    refine ⟨?_, ?_, .inl ⟨put, fun _ => shut⟩⟩
    · rw [handed]
      rcases reader with e | e <;> rw [e] <;> rfl
    · rw [put, List.append_nil]
  | call reader isOpen =>
    have put : c.put .read = [] := by
      unfold Connection.put
      rw [reader]
      exact ite_self _
    refine ⟨?_, ?_, .inl ⟨put, nofun⟩⟩
    · unfold Connection.handed
      rw [if_pos isOpen, reader]
      rfl
    · rw [put, List.append_nil]
  | mark reader isOpen =>
    have put : c.put .read = [.last] := by
      unfold Connection.put
      rw [if_pos isOpen, reader]
      rfl
    refine ⟨?_, ?_, .inr ⟨put, rfl, rfl, isOpen⟩⟩
    · unfold Connection.handed
      rw [reader]
      exact ite_self _
    · rw [put]
      rfl
  | replyLast r reader =>
    refine ⟨?_, ?_, .inl ⟨rfl, fun closed => (want_ends closed :)⟩⟩
    · rw [returned_of_handling reader, reader, want_inHand]
      rfl
    · rw [Connection.put, returned_of_handling reader]
      exact want_slots _ _
  | reply r reader =>
    refine ⟨?_, ?_, .inl ⟨rfl, nofun⟩⟩
    · rw [returned_of_handling reader, reader]
      rfl
    · rw [Connection.put, returned_of_handling reader]
      rfl

/-! ## what has been put into the queue -/

/-- the queue is closed while the reading loop goes on -/
def LeftAlone (c : Connection) : Prop := c.queue.receiving = false ∧ c.reader ≠ .closed

/-- What has been put into the queue, if the handler has been called for `calls` and `log` is what it
has returned; `P` says that the reading loop has been left alone. -/
structure Entered (P : Prop) (c : Connection) (entries : List Slot) (log : List (Request × Reply))
    (calls : List Request) : Prop where
  marked : entries = log.map Slot.ofAnswered ∧ (c.reader = .closed → P)
    ∨ entries = log.map Slot.ofAnswered ++ [.last] ∧ c.reader = .closed ∧ ¬ P
  calls : calls = log.map Prod.fst ++ c.reader.inHand
  slots : c.queue.slots <:+ entries
  shut : P → c.queue.receiving = false

theorem entered_ofSettings (serverName date : Bytes) (queueCapacity maxBody : Nat) (stopped : Bool) :
    Entered False (ofSettings serverName date queueCapacity maxBody stopped) [] [] [] where
  marked := .inl ⟨rfl, nofun⟩
  calls := rfl
  slots := List.suffix_refl _
  shut := nofun

theorem Entered.congr (h : Entered P c entries log calls) (iff : P ↔ Q) :
    Entered Q c entries log calls := propext iff ▸ h

theorem Writing.slots_suffix (s : c.Sane) (h : Writing c e c' note) :
    c'.queue.slots <:+ c.queue.slots := by
  have isOpen := h.isOpen s
  cases h with
  | take writer taken =>
    rw [handOver_queue, (ReplyQueue.take?_eq_some taken).1]
    exact List.suffix_cons _ _
  | takeLast writer taken =>
    have receiving := (ReplyQueue.take?_eq_some taken).2.trans (isOpen nofun)
    show ReplyQueue.slots (ReplyQueue.close _) <:+ _
    rw [ReplyQueue.close_slots receiving]
    exact List.nil_suffix
  | accept | acceptAll | flush | shutDown => exact List.suffix_refl _
  | stuck | refuse | flushFailed =>
    show c.queue.close.slots <:+ _
    rw [ReplyQueue.close_slots (isOpen nofun)]
    exact List.nil_suffix

/-- a step by which the reading loop puts nothing into the queue -/
theorem Entered.kept (h : Entered P c entries log calls)
    (reader : c'.reader = c.reader ∨ ∃ n, c.reader = .waiting n ∧ c'.reader = .granted n)
    (slots : c'.queue.slots <:+ c.queue.slots)
    (shut : c.queue.receiving = false → c'.queue.receiving = false) :
    Entered (P ∨ c'.LeftAlone) c' entries log calls := by
  obtain ⟨inHand, iff⟩ : c'.reader.inHand = c.reader.inHand
      ∧ (c'.reader = .closed ↔ c.reader = .closed) := by
    rcases reader with same | ⟨n, waiting, granted⟩
    · rw [same]
      exact ⟨rfl, Iff.rfl⟩
    · rw [waiting, granted]
      exact ⟨rfl, nofun, nofun⟩
  refine ⟨?_, inHand ▸ h.calls, slots.trans h.slots, ?_⟩
  · rcases h.marked with ⟨replies, ends⟩ | ⟨marked, closed, never⟩
    · exact .inl ⟨replies, fun closed => .inl (ends (iff.mp closed))⟩
    · refine .inr ⟨marked, iff.mpr closed, ?_⟩
      rintro (left | ⟨-, goes⟩)
      · exact never left
      · exact goes (iff.mpr closed)
  · rintro (left | ⟨shut, -⟩)
    · exact shut (h.shut left)
    · exact shut

theorem Entered.reading (h : Entered P c entries log calls) (alone : c.LeftAlone → P)
    (step : Reading c e c' note) : Entered (P ∨ c'.LeftAlone) c' (entries ++ c.put e)
      (log ++ c.returned e) (calls ++ c.handed e) := by
  have puts := step.puts
  have kept := step.writing_kept
  have goes := step.reader_ne_closed
  obtain ⟨replies, ends⟩ := h.marked.resolve_right fun ⟨_, closed, _⟩ => goes closed
  refine ⟨?_, ?_, ?_, ?_⟩
  · rw [replies, List.map_append]
    rcases puts.put with ⟨put, ends⟩ | ⟨put, none, closed, isOpen⟩
    · exact .inl ⟨by rw [put], fun closed => .inl (alone ⟨ends closed, goes⟩)⟩
    · refine .inr ⟨by rw [put, none, List.map_nil, List.append_nil], closed, ?_⟩
      rintro (left | ⟨-, goes'⟩)
      · rw [h.shut left] at isOpen
        cases isOpen
      · exact goes' closed
  · rw [h.calls, List.map_append, List.append_assoc, List.append_assoc, puts.handed]
  · obtain ⟨front, e⟩ := h.slots
    rw [puts.slots, ← e, List.append_assoc]
    exact List.suffix_append _ _
  · rintro (left | ⟨shut, -⟩)
    · exact kept.receiving.trans (h.shut left)
    · exact shut

theorem Writing.puts_nothing (h : Writing c e c' note) : c.put e = [] ∧ c.handed e = [] := by
  cases h <;> exact ⟨rfl, rfl⟩

theorem Step.entered (h : Entered P c entries log calls) (s : c.Sane) (alone : c.LeftAlone → P)
    (step : Step c e c' note) : Entered (P ∨ c'.LeftAlone) c' (entries ++ c.put e)
      (log ++ c.returned e) (calls ++ c.handed e) := by
  have nothing (put : c.put e = []) (returned : c.returned e = []) (handed : c.handed e = [])
      (kept : Entered (P ∨ c'.LeftAlone) c' entries log calls) :
      Entered (P ∨ c'.LeftAlone) c' (entries ++ c.put e) (log ++ c.returned e)
        (calls ++ c.handed e) := by
    rw [put, returned, handed, List.append_nil, List.append_nil, List.append_nil]
    exact kept
  cases step with
  | arrive a => cases a <;> exact nothing rfl rfl rfl (h.kept (.inl rfl) (List.suffix_refl _) id)
  | stop => exact nothing rfl rfl rfl (h.kept (.inl rfl) (List.suffix_refl _) id)
  | reading step => exact h.reading alone step
  | writing step =>
    obtain ⟨put, handed⟩ := step.puts_nothing
    exact nothing put step.returned handed (h.kept step.reading_kept.reader (step.slots_suffix s)
      fun shut => (Step.writing step).shut s shut)

/-! ## runs -/

/-- the queue is closed at some time of a run, and the reading loop goes on -/
def LeftAloneIn (c : Connection) (es : List Event) : Prop :=
  ∃ fs m notes, fs <+: es ∧ c.run fs = some (m, notes) ∧ m.LeftAlone

theorem LeftAlone.at_once (alone : c.LeftAlone) (es : List Event) : c.LeftAloneIn es :=
  ⟨[], c, [], List.nil_prefix, rfl, alone⟩

theorem leftAloneIn_cons {es : List Event} (hs : c.step e = some (m, note)) :
    c.LeftAloneIn (e :: es) ↔ c.LeftAlone ∨ m.LeftAloneIn es := by
  constructor
  · rintro ⟨fs, l, notes, front, run, alone⟩
    rcases List.prefix_cons_iff.mp front with rfl | ⟨fs, rfl, front'⟩
    · cases run
      exact .inl alone
    · obtain ⟨m', note', rest, hs', hr, -⟩ := run_cons run
      cases hs.symm.trans hs'
      exact .inr ⟨fs, l, rest, front', hr, alone⟩
  · rintro (alone | ⟨fs, l, notes, front, run, alone⟩)
    · exact alone.at_once _
    · refine ⟨e :: fs, l, note.toList ++ notes, (List.prefix_cons_inj e).mpr front, ?_, alone⟩
      rw [Connection.run, hs]
      dsimp only
      rw [run]

theorem entered_run {es : List Event} {notes : List Note} (h : Entered P c entries log calls)
    (s : c.Sane) (alone : c.LeftAlone → P) (run : c.run es = some (c', notes)) :
    Entered (P ∨ c.LeftAloneIn es) c' (entries ++ c.collect put es) (log ++ c.collect returned es)
      (calls ++ c.collect handed es) := by
  -- `P` is whether the reading loop was left alone before; each step adds whether it is now
  induction es generalizing c notes P entries log calls with
  | nil =>
    cases run
    simp only [collect, List.append_nil]
    refine h.congr ⟨.inl, ?_⟩
    rintro (left | ⟨fs, m, notes, front, run, now⟩)
    · exact left
    · cases List.prefix_nil.mp front
      cases run
      exact alone now
  | cons e es ih =>
    obtain ⟨m, note, rest, hs, hr, rfl⟩ := run_cons run
    have step := step_cases hs
    have later := ih (step.entered h s alone) (s.step step) .inr hr
    simp only [collect_cons hs, ← List.append_assoc]
    refine later.congr ?_
    rw [leftAloneIn_cons hs]
    constructor
    · rintro ((left | now) | later)
      · exact .inl left
      · exact .inr (.inr (now.at_once es))
      · exact .inr (.inr later)
    · rintro (left | now | later)
      · exact .inl (.inl left)
      · exact .inl (.inl (alone now))
      · exact .inr later

/-! ## the last mark -/

/-- What has been put into the queue in a run: the replies, and `marks` behind them. -/
structure Marked (start : Connection) (es : List Event) (c : Connection) (marks : List Slot) :
    Prop where
  /-- the handler has been called for what it has answered and what is in hand, in this order -/
  calls : start.collect handed es = (start.collect returned es).map Prod.fst ++ c.reader.inHand
  given : (start.collect returned es).map Prod.snd = replies es
  /-- there is one reply for each call that has returned, in the order of the calls -/
  entries : start.collect put es = (start.collect returned es).map Slot.ofAnswered ++ marks
  /-- what is in the queue is what has been put there last -/
  queued : c.queue.slots <:+ start.collect put es
  /-- there is at most one last mark, and the reading loop has ended with it -/
  once : marks = [] ∨ marks = [.last] ∧ c.reader = .closed
  /-- a reading loop that has ended has put it, unless the writing loop had gone before -/
  ended : c.reader = .closed → (marks = [.last] ↔ ¬ start.LeftAloneIn es)
  /-- the writing loop goes before the reading loop only if a write fails -/
  alone : start.LeftAloneIn es → ∃ e ∈ es, Fails e
  /-- a writing loop that comes to the last mark has written all replies -/
  seen : c.writer = .idle → ∀ rest, c.queue.slots = .last :: rest → rest = []
    ∧ c.output = (start.collect returned es).flatMap (written start.serverName start.date)
  /-- and so has one that has gone without a failure -/
  gone : c.queue.receiving = false → (∀ e ∈ es, ¬ Fails e) → marks = [.last]
    ∧ c.output = (start.collect returned es).flatMap (written start.serverName start.date)

/-- nothing is left to be written when the last mark is the next entry -/
theorem unsent_of_last {rest : List Slot} (s : c.Sane) (idle : c.writer = .idle)
    (last : c.queue.slots = .last :: rest) :
    c.queue.receiving = true ∧ rest = [] ∧ c.unsent = [] := by
  have isOpen : c.queue.receiving = true := s.open_iff.mpr (by rw [idle]; exact ⟨nofun, nofun⟩)
  have nil := (s.last_is_last [] rest last).1
  refine ⟨isOpen, nil, ?_⟩
  rw [unsent_of_open isOpen, idle, last, nil]
  rfl

/-- **There is one last mark, and it is last.**  Whatever the client, the handler and the transport do,
the reading loop queues the replies in the order of the calls, and nothing behind the last mark.  It
queues the last mark whichever way it ends, unless the writing loop has gone before, which it does only
if a write fails.  The writing loop has written all replies when it comes to the last mark. -/
theorem one_last_mark (serverName date : Bytes) (queueCapacity maxBody : Nat) (stopped : Bool)
    {es : List Event} {notes : List Note}
    (run : (ofSettings serverName date queueCapacity maxBody stopped).run es = some (c, notes)) :
    ∃ marks, Marked (ofSettings serverName date queueCapacity maxBody stopped) es c marks := by
  have sane := sane_ofSettings serverName date queueCapacity maxBody stopped
  obtain ⟨ledger, given⟩ := ledger_run serverName date queueCapacity maxBody stopped run
  obtain ⟨sameName, sameDate⟩ := names_run run
  have alone (left : (ofSettings serverName date queueCapacity maxBody stopped).LeftAloneIn es) :
      ∃ e ∈ es, Fails e := by
    obtain ⟨fs, m, rest, front, run, shut, goes⟩ := left
    refine Classical.byContradiction fun none => goes ?_
    have l := (ledger_run serverName date queueCapacity maxBody stopped run).1
    exact (l.lossless (.inl fun e he fails => none ⟨e, front.subset he, fails⟩)).ended shut
  have fresh := entered_ofSettings serverName date queueCapacity maxBody stopped
  have entered := entered_run fresh sane (fun left => nomatch left.1) run
  have entered := entered.congr ⟨fun h => h.resolve_left id, .inr⟩
  have now := sane_run sane run
  have written (none : c.unsent = []) (fine : (∀ e ∈ es, ¬ Fails e) ∨ c.queue.receiving = true) :=
    (congrArg (c.output ++ ·) none).symm.trans (ledger.lossless fine).output
  rw [List.append_nil, sameName, sameDate] at written
  have seen (idle : c.writer = .idle) (rest : List Slot) (last : c.queue.slots = .last :: rest) :=
    (unsent_of_last now idle last).2.imp_right fun none =>
      written none (.inr (unsent_of_last now idle last).1)
  have ended (shut : c.queue.receiving = false) (smooth : ∀ e ∈ es, ¬ Fails e) :
      c.reader = .closed := (ledger.lossless (.inl smooth)).ended shut
  have gone (shut : c.queue.receiving = false) (smooth : ∀ e ∈ es, ¬ Fails e) :=
    written (unsent_of_closed shut) (.inl smooth)
  rcases entered.marked with ⟨replies, ends⟩ | ⟨marked, closed, never⟩
  · refine ⟨[], entered.calls, given.symm, replies.trans (List.append_nil _).symm, entered.slots,
      .inl rfl, fun closed => iff_of_false nofun fun never => never (ends closed), alone, seen,
      fun shut smooth => ?_⟩
    obtain ⟨e, he, fails⟩ := alone (ends (ended shut smooth))
    exact absurd fails (smooth e he)
  · exact ⟨[.last], entered.calls, given.symm, marked, entered.slots, .inr ⟨rfl, closed⟩,
      fun _ => iff_of_true rfl never, alone, seen, fun shut smooth => ⟨rfl, gone shut smooth⟩⟩

/-- a request that closes the connection, and its reply in front of the last mark -/
theorem one_last_mark_of_closing :
    let start := ofSettings (Bytes.ofAscii "s") (Bytes.ofAscii "d") 1 0 false
    let es : List Event := [.arrive (.octets (Bytes.ofAscii "GET / HTTP/1.0\r\n\r\n")), .read, .read,
      .read, .read, .read, .reply .ok, .take, .read, .accept 58, .flush true]
    ∃ c notes marks, start.run es = some (c, notes) ∧ c.reader = .closed
      ∧ c.queue.slots = [.last] ∧ Marked start es c marks := by
  intro start es
  have ends : (start.run es).any fun (c, _) => c.queue.slots = [.last] := by decide +kernel
  obtain ⟨⟨c, notes⟩, run, last⟩ := (Option.any_eq_true _ _).mp ends
  have last := of_decide_eq_true last
  obtain ⟨marks, marked⟩ := one_last_mark _ _ 1 0 false run
  have s := sane_run (sane_ofSettings _ _ 1 0 false) run
  exact ⟨c, notes, marks, run, (s.last_is_last [] [] last).2, last, marked⟩

end Connection

end PipelinedHttp
