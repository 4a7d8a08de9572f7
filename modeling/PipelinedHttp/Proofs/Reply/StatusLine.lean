import PipelinedHttp.Proofs.Connection.Ledger
import PipelinedHttp.Proofs.Reply.ReadBack

/-!
# Status lines are never stale

A frozen status line is a copy of what status and version say, and a copy may fall behind.  It does
not: whatever changes one of the two drops the copy.

* `Frozen`, `frozen_append`  what a history of changes says of the status line;
* `Traced.Current`           a reply is written with the line of its own status and version, and its
                             line is frozen exactly if its history says so;
* `Traced.Current.edit`, `current_after`  each change keeps that, and so do all that a handler does
                             with the replies it has at hand;
* `Connection.cut?_written`  what a connection writes begins with the version of the request and the
                             status of the reply, whatever the handler has frozen;
* `statusLine_never_stale`   both at once.
-/

namespace PipelinedHttp

namespace Reply

/-! ## histories -/

/-- the change begins a new reply, or gives the reply another status or version -/
def Edit.Thaws : Edit → Prop
  | .ofStatus _ | .ofReason _ | .status _ | .version _ => True
  | .headers _ | .contentType _ | .body _ | .freeze => False

/-- the status line has been frozen, and not thawed since -/
def Frozen (history : List Edit) : Prop :=
  ∃ before after, history = before ++ .freeze :: after ∧ ∀ e ∈ after, ¬ e.Thaws

theorem not_frozen_nil : ¬ Frozen [] := by
  rintro ⟨before, after, e, -⟩
  exact List.append_ne_nil_of_right_ne_nil before (List.cons_ne_nil _ after) e.symm

theorem frozen_append {history : List Edit} {change : Edit} :
    Frozen (history ++ [change]) ↔ change = .freeze ∨ ¬ change.Thaws ∧ Frozen history := by
  constructor
  · rintro ⟨before, after, e, quiet⟩
    rcases List.eq_nil_or_concat after with rfl | ⟨after, last, rfl⟩
    · exact .inl (List.singleton_inj.mp (List.append_inj' e rfl).2)
    · rw [List.concat_eq_append, ← List.cons_append, ← List.append_assoc] at e
      obtain ⟨front, same⟩ := List.append_inj' e rfl
      obtain rfl := List.singleton_inj.mp same
      rw [List.concat_eq_append] at quiet
      obtain ⟨earlier, now⟩ := List.forall_mem_append.mp quiet
      exact .inr ⟨now change List.mem_cons_self, before, after, front, earlier⟩
  · rintro (rfl | ⟨still, before, after, rfl, quiet⟩)
    · exact ⟨history, [], rfl, nofun⟩
    · refine ⟨before, after ++ [change], by simp, List.forall_mem_append.mpr ⟨quiet, ?_⟩⟩
      exact List.forall_mem_singleton.mpr still

/-- a reply, and all that has been done to it -/
structure Traced where
  reply : Reply
  history : List Edit

namespace Traced

/-- a new reply; to make one counts as the first change -/
def ofStatus (status : Status) : Traced := ⟨Reply.ofStatus status, [.ofStatus status]⟩

def edit (t : Traced) (change : Edit) : Traced := ⟨t.reply.edit change, t.history ++ [change]⟩

/-- the status line is up to date -/
structure Current (t : Traced) : Prop where
  line : t.reply.statusLine = renderStatusLine t.reply.version t.reply.status
  first : ∃ rest, Bytes.cut? Bytes.crlf t.reply.encode
    = some (statusText t.reply.version t.reply.status, rest)
  frozen : t.reply.isFrozen = true ↔ Frozen t.history

end Traced

/-- the first line of a reply is what is written in front of the first line end -/
theorem Settled.cut?_encode {r : Reply} (h : r.Settled) :
    ∃ rest, Bytes.cut? Bytes.crlf r.encode = some (statusText r.version r.status, rest) := by
  let rest := r.headers.fields.flatMap encodeField ++ (Bytes.crlf ++ r.body)
  have line : r.statusLine = statusText r.version r.status ++ Bytes.crlf := h
  have whole : r.encode = statusText r.version r.status ++ (Bytes.crlf ++ rest) := by
    simp [encode, line, rest]
  have first := Bytes.cut?_append (oneLine_statusText r.version r.status).1
    (Bytes.cut?_self Bytes.crlf rest)
  rw [List.append_nil] at first
  exact ⟨rest, whole ▸ first⟩

theorem isFrozen_edit (r : Reply) (change : Edit) :
    (r.edit change).isFrozen = true
      ↔ change = .freeze ∨ ¬ change.Thaws ∧ r.isFrozen = true := by
  cases change with
  | freeze => exact iff_of_true rfl (.inl rfl)
  | ofStatus | ofReason | status | version =>
    exact iff_of_false nofun fun h => h.elim nofun fun h => h.1 trivial
  | headers | contentType | body => exact ⟨fun h => .inr ⟨id, h⟩, fun h => h.elim nofun And.right⟩

namespace Traced

theorem Current.of_settled {t : Traced} (settled : t.reply.Settled)
    (frozen : t.reply.isFrozen = true ↔ Frozen t.history) : t.Current :=
  ⟨settled, settled.cut?_encode, frozen⟩

theorem current_ofStatus (status : Status) : (ofStatus status).Current := by
  refine .of_settled rfl (iff_of_false nofun fun h => ?_)
  rcases frozen_append.mp (show Frozen ([] ++ [_]) from h) with e | ⟨-, none⟩
  · cases e
  · exact not_frozen_nil none

theorem Current.edit {t : Traced} (h : t.Current) (change : Edit) : (t.edit change).Current := by
  refine .of_settled (Settled.edit h.line change) ?_
  show (t.reply.edit change).isFrozen = true ↔ Frozen (t.history ++ [change])
  rw [isFrozen_edit, frozen_append, h.frozen]

end Traced

/-! ## the replies at hand -/

/-- what a handler does with its replies; a copy is a reply of its own -/
inductive Deed where
  | make (status : Status)
  | copy (i : Nat)
  | change (i : Nat) (change : Edit)

/-- the replies at hand; new ones stand at the end -/
def after (replies : List Traced) : List Deed → List Traced
  | [] => replies
  | .make status :: deeds => after (replies ++ [.ofStatus status]) deeds
  | .copy i :: deeds => after (replies ++ replies[i]?.toList) deeds
  | .change i change :: deeds => after (replies.modify i (·.edit change)) deeds

theorem current_after {replies : List Traced} (h : ∀ t ∈ replies, t.Current) (deeds : List Deed) :
    ∀ t ∈ after replies deeds, t.Current := by
  induction deeds generalizing replies with
  | nil => exact h
  | cons deed deeds ih =>
    cases deed with
    | make status =>
      refine ih (List.forall_mem_append.mpr ⟨h, ?_⟩)
      exact List.forall_mem_singleton.mpr (Traced.current_ofStatus status)
    | copy i =>
      refine ih (List.forall_mem_append.mpr ⟨h, fun t same => h t ?_⟩)
      exact List.mem_of_getElem? (Option.mem_toList.mp same)
    | change i change =>
      exact ih (forall_mem_modify h fun t now => now.edit change)

end Reply

/-! ## what connections write -/

theorem Reply.status_finish (r : Reply) (request : Request) :
    (r.finish request).status = r.status := by
  show ((KeepAlive.evaluate request.version request.headers).apply r).status = r.status
  unfold KeepAlive.apply
  split <;> rfl

theorem cut?_written (serverName date : Bytes) (request : Request) (r : Reply) :
    ∃ rest, Bytes.cut? Bytes.crlf (written serverName date (request, r))
      = some (statusText request.version r.status, rest) := by
  have settled : ((r.finish request).stamp serverName date).Settled := r.settled_finish request
  obtain ⟨rest, first⟩ := settled.cut?_encode
  refine ⟨rest, ?_⟩
  rw [← r.status_finish request]
  exact first

namespace Connection

/-- what a connection has written in a run begins each reply with the line that is due -/
structure FirstLines (start : Connection) (es : List Event) (c : Connection) : Prop where
  /-- what is written is the replies that the handler has returned, in order, up to some octet -/
  front : c.output <+: (start.collect returned es).flatMap (written start.serverName start.date)
  given : (start.collect returned es).map Prod.snd = replies es
  /-- each has the version of its request and the status that the handler has left it with -/
  lines : ∀ a ∈ start.collect returned es, ∃ rest,
    Bytes.cut? Bytes.crlf (written start.serverName start.date a)
      = some (statusText a.1.version a.2.status, rest)

theorem firstLines_run (serverName date : Bytes) (queueCapacity maxBody : Nat) (stopped : Bool)
    {es : List Event} {c : Connection} {notes : List Note}
    (run : (ofSettings serverName date queueCapacity maxBody stopped).run es = some (c, notes)) :
    (ofSettings serverName date queueCapacity maxBody stopped).FirstLines es c := by
  obtain ⟨ledger, given⟩ := ledger_run serverName date queueCapacity maxBody stopped run
  obtain ⟨sameName, sameDate⟩ := names_run run
  have front := ledger.front
  rw [sameName, sameDate] at front
  refine ⟨(List.prefix_append _ _).trans front, given.symm, fun a _ => ?_⟩
  exact cut?_written serverName date a.1 a.2

end Connection

/-- **Status lines are never stale.**  Whatever a handler does with its replies, and in whatever
order, each of them is written with the line of its own status and version, and its line is frozen
exactly if it has been frozen after the last change of the two.  So whatever a connection writes as
a reply begins with the version of the request and the status that the handler has left the reply
with, even if the handler has set another version and frozen the line. -/
theorem statusLine_never_stale :
    (∀ deeds, ∀ t ∈ Reply.after [] deeds, t.Current)
      ∧ ∀ (serverName date : Bytes) (queueCapacity maxBody : Nat) (stopped : Bool)
          (es : List Event) (c : Connection) (notes : List Note),
        (Connection.ofSettings serverName date queueCapacity maxBody stopped).run es
            = some (c, notes) →
          (Connection.ofSettings serverName date queueCapacity maxBody stopped).FirstLines es c :=
  ⟨Reply.current_after nofun,
    fun serverName date queueCapacity maxBody stopped _ _ _ run =>
      Connection.firstLines_run serverName date queueCapacity maxBody stopped run⟩

/-- a copy goes its own way; and a frozen line of another version is not what is written -/
theorem statusLine_never_stale_frozen :
    let deeds : List Reply.Deed := [.make .ok, .change 0 (.version .http11), .change 0 .freeze,
      .copy 0, .change 0 (.status .notFound)]
    let start := Connection.ofSettings (Bytes.ofAscii "s") (Bytes.ofAscii "d") 1 0 false
    let es : List Event := [
      .arrive (.octets (Bytes.ofAscii "GET / HTTP/1.0\r\n\r\n")), .read, .read, .read, .read, .read,
      .reply (Reply.ok.edits [.status .notFound, .version .http11, .freeze]), .take, .accept 24]
    (Reply.after [] deeds).map (fun t => (t.reply.isFrozen, t.reply.statusLine))
        = [(false, Bytes.ofAscii "HTTP/1.1 404 Not Found\r\n"),
          (true, Bytes.ofAscii "HTTP/1.1 200 OK\r\n")]
      ∧ (∀ t ∈ Reply.after [] deeds, t.Current)
      ∧ ∃ c notes, start.run es = some (c, notes)
        ∧ c.output = Bytes.ofAscii "HTTP/1.0 404 Not Found\r\n" ∧ start.FirstLines es c := by
  intro deeds start es
  have written : (start.run es).any
      (fun r => r.1.output = Bytes.ofAscii "HTTP/1.0 404 Not Found\r\n") = true := by
    decide +kernel
  obtain ⟨⟨c, notes⟩, run, output⟩ := (Option.any_eq_true _ _).mp written
  exact ⟨by decide +kernel, statusLine_never_stale.1 deeds, c, notes, run, of_decide_eq_true output,
    statusLine_never_stale.2 _ _ 1 0 false es c notes run⟩

end PipelinedHttp
