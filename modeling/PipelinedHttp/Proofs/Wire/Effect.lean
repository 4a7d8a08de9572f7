import PipelinedHttp.Proofs.Wire.Framing
import PipelinedHttp.Proofs.Wire.Spelling

/-!
# What a turn takes off its buffer

A turn of a decoder takes a front off its buffer, and which front that is depends on the state before and
on what comes of it.  `Decoder.Effect` says all that a turn can do, with the limits that it keeps.

* `Decoder.effect_decode`   every turn has one of these effects;
* `Decoder.Effect.exact`    so what it takes is nothing, a head, a body, or both;
* `Session`                 a decoder with its buffer, fed and turned in any order: what has been fed is
                            what the turns have taken, and then what is still there (`Session.fed_run`).
-/

namespace PipelinedHttp

/-- the failures that leave the head in the buffer -/
def ReadError.LeavesHead : ReadError → Prop
  | .headTooLarge _ _ | .tooManyFields _ | .malformedHead _ | .invalidTarget => True
  | .unsupportedVersion _ | .invalidMethod | .invalidContentLength _ | .invalidBody _
  | .bodyTooLarge _ _ | .transport _ => False

/-- the failures that are found when the head has been cut off -/
def ReadError.TakesHead : ReadError → Prop
  | .invalidContentLength _ | .invalidBody _ | .bodyTooLarge _ _ => True
  | .headTooLarge _ _ | .tooManyFields _ | .malformedHead _ | .invalidTarget
  | .unsupportedVersion _ | .invalidMethod | .transport _ => False

namespace Wire
variable {s rest : Bytes}

/-! ## heads in front of a buffer -/

theorem Heading.of_head {h : Head} (read : Wire.head s = .done h rest) :
    ∃ g : Heading, s = g.opening ++ rest ∧ g.head = h := by
  obtain ⟨l, split, same⟩ := head_eq_done read
  exact ⟨l.heading, split, same⟩

theorem Heading.exists_spelling (g : Heading) :
    ∃ l : Spelling, l.octets = g.opening ∧ l.head = g.head := by
  obtain ⟨l, split, same⟩ := head_eq_done g.read
  rw [List.append_nil] at split
  exact ⟨l, split.symm, same⟩

theorem Heading.plain (g : Heading) : g.head.Plain := by
  obtain ⟨l, -, same⟩ := g.exists_spelling
  rw [← same]
  exact l.plain

/-- what a head says: a request, and the length of the body that follows -/
structure Heading.Says (g : Heading) (said : Request) (length : Nat) : Prop where
  small : g.opening.length ≤ maxHead
  target : g.head.toRequest = .ok said
  length : bodyLength said.headers = .ok length

theorem Heading.Says.exists_spelling {g : Heading} {said : Request} {n : Nat} (h : g.Says said n) :
    ∃ l : Spelling, l.octets = g.opening ∧ l.heading.Says said n := by
  obtain ⟨l, octets, same⟩ := g.exists_spelling
  refine ⟨l, octets, ?_, ?_, h.length⟩
  · show l.octets.length ≤ maxHead
    rw [octets]
    exact h.small
  · show l.head.toRequest = .ok said
    rw [same]
    exact h.target

theorem takesHead_of_bodyLength {h : Headers} {e : ReadError} (refused : bodyLength h = .error e) :
    e.TakesHead := by
  unfold bodyLength at refused
  split at refused
  · cases refused
  · split at refused <;> cases refused
    trivial
  · obtain ⟨why, rfl⟩ := announcedLength_error refused
    trivial
  · cases refused
    trivial

theorem readHead_of_more (more : readHead s = .more) : s.length ≤ maxHead := by
  unfold readHead at more
  split at more
  · rename_i tiny
    have le : minHead ≤ maxHead := by decide
    omega
  · unfold scanHead at more
    split at more
    · cases more
    · cases more
    · split at more
      · cases more
      · omega
    · unfold cutHead at more
      split at more
      · cases more
      · split at more
        · cases more
        · split at more <;> cases more

theorem readHead_of_done {said : Request} {n : Nat} (done : readHead s = .done said n rest) :
    ∃ g : Heading, s = g.opening ++ rest ∧ g.Says said n := by
  obtain ⟨h, read, small, target, length⟩ := scanHead_done (readHead_done done)
  obtain ⟨g, rfl, rfl⟩ := Heading.of_head read
  rw [List.length_append, Nat.add_sub_cancel] at small
  exact ⟨g, rfl, small, target, length⟩

/-- a head fails in its place, or when it has been cut off -/
theorem readHead_of_failed {e : ReadError} (failed : readHead s = .failed e rest) :
    rest = s ∧ e.LeavesHead
      ∨ ∃ g : Heading, s = g.opening ++ rest ∧ g.opening.length ≤ maxHead ∧ e.TakesHead := by
  unfold readHead at failed
  split at failed
  · cases failed
  · unfold scanHead at failed
    split at failed
    · cases failed
      exact .inl ⟨rfl, trivial⟩
    · cases failed
      exact .inl ⟨rfl, trivial⟩
    · split at failed <;> cases failed
      exact .inl ⟨rfl, trivial⟩
    · rename_i h rest' read
      obtain ⟨g, rfl, rfl⟩ := Heading.of_head read
      unfold cutHead at failed
      split at failed
      · cases failed
        exact .inl ⟨rfl, trivial⟩
      · rename_i small
        rw [List.length_append, Nat.add_sub_cancel] at small
        split at failed
        · rename_i target
          cases failed
          rw [g.plain.toRequest_error target]
          exact .inl ⟨rfl, trivial⟩
        · split at failed
          · rename_i refused
            cases failed
            exact .inr ⟨g, rfl, Nat.not_lt.mp small, takesHead_of_bodyLength refused⟩
          · cases failed

/-! ## all that a turn can do -/

/-- what a turn takes off the buffer, what it leaves there, and what comes of it -/
inductive Decoder.Effect (d : Decoder) : Bytes → Bytes → Outcome → Decoder → Prop
  /-- there is no head yet -/
  | short {rest : Bytes} (idle : d.pending = none) (small : rest.length ≤ maxHead) :
    Effect d [] rest .more d
  /-- there is a head, but not all of its body -/
  | opened {g : Heading} {said : Request} {n : Nat} {rest : Bytes} (idle : d.pending = none)
    (sound : g.Says said n) (fits : n ≤ d.maxBody) (lack : rest.length < n) :
    Effect d g.opening rest .more { d with pending := some (said, n) }
  /-- the body is still not there -/
  | waiting {said : Request} {n : Nat} {rest : Bytes} (pending : d.pending = some (said, n))
    (lack : rest.length < n) : Effect d [] rest .more d
  | whole {w : Whole} {rest : Bytes} (idle : d.pending = none) (fit : w.Fits d.maxBody) :
    Effect d w.octets rest (.request w.request) d
  | filled {said : Request} {body rest : Bytes} (pending : d.pending = some (said, body.length)) :
    Effect d body rest (.request (said.withBody body)) d.reset
  /-- the head is refused in its place -/
  | barred {e : ReadError} {rest : Bytes} (idle : d.pending = none) (leaves : e.LeavesHead) :
    Effect d [] rest (.failed e) d
  /-- the head is refused for what it says of the body -/
  | refused {g : Heading} {e : ReadError} {rest : Bytes} (idle : d.pending = none)
    (small : g.opening.length ≤ maxHead) (takes : e.TakesHead) :
    Effect d g.opening rest (.failed e) d

namespace Decoder
variable {d : Decoder}

/-- the turn takes a front off the buffer, with an effect that it can have -/
def Acts (d : Decoder) (s : Bytes) (t : Turn) : Prop :=
  ∃ taken, s = taken ++ t.rest ∧ d.Effect taken t.rest t.outcome t.decoder

theorem acts_takeBody {said : Request} {n : Nat} (pending : d.pending = some (said, n)) (s : Bytes) :
    d.Acts s (d.takeBody said n s) := by
  unfold takeBody
  split
  · rename_i lack
    have same : { d with pending := some (said, n) } = d := by rw [← pending]
    refine ⟨[], rfl, ?_⟩
    show d.Effect [] s .more { d with pending := some (said, n) }
    rw [same]
    exact .waiting pending lack
  · rename_i all
    have length : (s.take n).length = n := by
      rw [List.length_take]
      omega
    have pending : d.pending = some (said, (s.take n).length) := by rw [length, pending]
    exact ⟨s.take n, (List.take_append_drop n s).symm, .filled pending⟩

theorem acts_afterHead {g : Heading} {said : Request} {n : Nat} (idle : d.pending = none)
    (sound : g.Says said n) (rest : Bytes) : d.Acts (g.opening ++ rest) (d.afterHead said n rest) := by
  unfold afterHead
  split
  · rename_i zero
    subst zero
    let w : Whole := ⟨g, [], said, sound.target, sound.length⟩
    have fit : w.Fits d.maxBody := ⟨sound.small, Nat.zero_le _⟩
    exact ⟨w.octets, by simp [Whole.octets, w], .whole idle fit⟩
  · rename_i some
    split
    · exact ⟨g.opening, rfl, .refused idle sound.small trivial⟩
    · rename_i fits
      have fits := Nat.not_lt.mp fits
      unfold takeBody
      split
      · rename_i lack
        exact ⟨g.opening, rfl, .opened idle sound fits lack⟩
      · rename_i all
        have length : (rest.take n).length = n := by
          rw [List.length_take]
          omega
        let w : Whole := ⟨g, rest.take n, said, sound.target, by rw [sound.length, length]⟩
        have fit : w.Fits d.maxBody := ⟨sound.small, Nat.le_trans (Nat.le_of_eq length) fits⟩
        have ne : w.body ≠ [] := by
          intro nil
          rw [show rest.take n = [] from nil] at length
          exact some length.symm
        have request : w.request = said.withBody (rest.take n) := if_neg ne
        refine ⟨w.octets, ?_, ?_⟩
        · show g.opening ++ rest = g.opening ++ rest.take n ++ rest.drop n
          rw [List.append_assoc, List.take_append_drop]
        · show d.Effect w.octets _ (.request (said.withBody (rest.take n))) d.reset
          rw [← request, reset_of_pending idle]
          exact .whole idle fit

theorem acts_decode (d : Decoder) (s : Bytes) : d.Acts s (d.decode s) := by
  cases pending : d.pending with
  | some p =>
    rw [decode_of_pending pending]
    exact acts_takeBody pending s
  | none =>
    cases head : readHead s with
    | more =>
      rw [decode_of_more pending head]
      exact ⟨[], rfl, .short pending (readHead_of_more head)⟩
    | failed e rest =>
      rw [decode_of_failed pending head]
      rcases readHead_of_failed head with ⟨rfl, leaves⟩ | ⟨g, rfl, small, takes⟩
      · exact ⟨[], rfl, .barred pending leaves⟩
      · exact ⟨g.opening, rfl, .refused pending small takes⟩
    | done said n rest =>
      rw [decode_of_done pending head]
      obtain ⟨g, rfl, sound⟩ := readHead_of_done head
      exact acts_afterHead pending sound rest

/-- the octets that a turn takes off its buffer -/
def taken (d : Decoder) (s : Bytes) : Bytes := s.take (s.length - (d.decode s).rest.length)

/-- a turn takes a front off its buffer, and does nothing but what it can do -/
theorem effect_decode (d : Decoder) (s : Bytes) :
    s = d.taken s ++ (d.decode s).rest
      ∧ d.Effect (d.taken s) (d.decode s).rest (d.decode s).outcome (d.decode s).decoder := by
  obtain ⟨front, split, effect⟩ := d.acts_decode s
  have same : d.taken s = front := by
    unfold taken
    have length : s.length - (d.decode s).rest.length = front.length := by
      have total := congrArg List.length split
      rw [List.length_append] at total
      omega
    rw [length]
    conv => lhs; rw [split]
    exact List.take_left
  rw [same]
  exact ⟨split, effect⟩

/-! ## what is taken -/

/-- what a turn is to take, by the state before and by what comes of it -/
structure Exact (d : Decoder) (taken : Bytes) (outcome : Outcome) (after : Decoder) : Prop where
  wanting : outcome = .more → d.idle = true → after.idle = true → taken = []
  waiting : outcome = .more → d.idle = false → taken = []
  /-- the head, through its empty line -/
  opened : outcome = .more → d.idle = true → after.idle = false →
    ∃ (l : Spelling) (said : Request) (n : Nat), taken = l.octets ∧ l.heading.Says said n
      ∧ after.pending = some (said, n)
  /-- the head and the body that it announces -/
  whole : ∀ r, outcome = .request r → d.idle = true →
    ∃ (l : Spelling) (said : Request) (body : Bytes), taken = l.octets ++ body
      ∧ l.heading.Says said body.length
      ∧ r = if body = [] then said else said.withBody body
  /-- the body that has been announced -/
  filled : ∀ r said n, outcome = .request r → d.pending = some (said, n) →
    taken.length = n ∧ r = said.withBody taken
  kept : ∀ e, outcome = .failed e → e.LeavesHead → taken = []
  cut : ∀ e, outcome = .failed e → e.TakesHead → ∃ l : Spelling, taken = l.octets
  failed : ∀ e, outcome = .failed e → e.LeavesHead ∨ e.TakesHead
  idle : outcome ≠ .more → after.idle = true

theorem idle_iff : d.idle = true ↔ d.pending = none := Option.isNone_iff_eq_none

theorem not_takesHead {e : ReadError} (leaves : e.LeavesHead) : ¬ e.TakesHead := by
  cases e <;> simp_all [ReadError.LeavesHead, ReadError.TakesHead]

theorem Effect.exact {taken : Bytes} {outcome : Outcome} {after : Decoder}
    (h : d.Effect taken rest outcome after) : d.Exact taken outcome after := by
  constructor
  case wanting =>
    intro more _ idle
    cases h with
    | short | waiting => rfl
    | opened => cases idle
    | whole | filled | barred | refused => cases more
  case waiting =>
    intro more busy
    cases h with
    | short | waiting => rfl
    | opened idle => cases (idle_iff.mpr idle).symm.trans busy
    | whole | filled | barred | refused => cases more
  case opened =>
    intro more idle busy
    cases h with
    | short | waiting => cases idle.symm.trans busy
    | opened _ sound =>
      obtain ⟨l, octets, sound⟩ := sound.exists_spelling
      exact ⟨l, _, _, octets.symm, sound, rfl⟩
    | whole | filled | barred | refused => cases more
  case whole =>
    rintro r request idle
    cases h with
    | @whole w _ _ fit =>
      cases request
      have sound : w.toHeading.Says w.said w.body.length := ⟨fit.head_le, w.target, w.length⟩
      obtain ⟨l, octets, sound⟩ := sound.exists_spelling
      exact ⟨l, w.said, w.body, by rw [octets]; rfl, sound, rfl⟩
    | filled pending => cases pending.symm.trans (idle_iff.mp idle)
    | short | opened | waiting | barred | refused => cases request
  case filled =>
    intro r said n request busy
    cases h with
    | whole idle => cases idle.symm.trans busy
    | filled pending =>
      cases request
      cases pending.symm.trans busy
      exact ⟨rfl, rfl⟩
    | short | opened | waiting | barred | refused => cases request
  case kept =>
    intro e failed leaves
    cases h with
    | barred => rfl
    | refused _ _ takes =>
      cases failed
      exact absurd takes (not_takesHead leaves)
    | short | opened | waiting | whole | filled => cases failed
  case cut =>
    intro e failed takes
    cases h with
    | barred _ leaves =>
      cases failed
      exact absurd takes (not_takesHead leaves)
    | @refused g =>
      obtain ⟨l, octets, -⟩ := g.exists_spelling
      exact ⟨l, octets.symm⟩
    | short | opened | waiting | whole | filled => cases failed
  case failed =>
    intro e failed
    cases h with
    | barred _ leaves =>
      cases failed
      exact .inl leaves
    | refused _ _ takes =>
      cases failed
      exact .inr takes
    | short | opened | waiting | whole | filled => cases failed
  case idle =>
    intro decided
    cases h with
    | whole idle | barred idle | refused idle => exact idle_iff.mpr idle
    | filled => rfl
    | short | opened | waiting => exact absurd rfl decided

end Decoder

/-! ## any order of feeds and turns -/

/-- what can be done with a decoder and its buffer -/
inductive Use where
  | feed (piece : Bytes)
  | turn

/-- the octets that are fed -/
def Use.octets : Use → Bytes
  | .feed piece => piece
  | .turn => []

/-- a turn that has been taken: the state before and the buffer -/
structure Pass where
  decoder : Decoder
  buffer : Bytes

def Pass.turn (p : Pass) : Turn := p.decoder.decode p.buffer

def Pass.taken (p : Pass) : Bytes := p.decoder.taken p.buffer

/-- a decoder with its buffer, and the turns that it has taken; unlike an intake it does not stop at a
failure, and need not be turned until it wants more octets -/
structure Session where
  decoder : Decoder
  buffer : Bytes
  passes : List Pass

namespace Session

def ofDecoder (d : Decoder) : Session := ⟨d, [], []⟩

/-- the turn that comes next -/
def pass (s : Session) : Pass := ⟨s.decoder, s.buffer⟩

def use (s : Session) : Use → Session
  | .feed piece => { s with buffer := s.buffer ++ piece }
  | .turn => ⟨s.pass.turn.decoder, s.pass.turn.rest, s.passes ++ [s.pass]⟩

def run (s : Session) (uses : List Use) : Session := uses.foldl use s

/-- what the turns have taken off the buffer -/
def taken (s : Session) : Bytes := s.passes.flatMap Pass.taken

variable {s : Session}

theorem taken_turn (s : Session) : (s.use .turn).taken = s.taken ++ s.pass.taken := by
  show (s.passes ++ [s.pass]).flatMap Pass.taken = _
  rw [List.flatMap_append, List.flatMap_singleton]
  rfl

/-- nothing gets lost, and nothing is read twice -/
theorem fed_use (s : Session) (u : Use) :
    (s.use u).taken ++ (s.use u).buffer = s.taken ++ s.buffer ++ u.octets := by
  cases u with
  | feed piece => exact (List.append_assoc _ _ _).symm
  | turn =>
    have split := (s.decoder.effect_decode s.buffer).1
    rw [taken_turn, List.append_assoc]
    show s.taken ++ (s.decoder.taken s.buffer ++ (s.decoder.decode s.buffer).rest) = _ ++ []
    rw [← split, List.append_nil]

theorem fed_run (s : Session) (uses : List Use) :
    (s.run uses).taken ++ (s.run uses).buffer = s.taken ++ s.buffer ++ uses.flatMap Use.octets := by
  induction uses generalizing s with
  | nil => exact (List.append_nil _).symm
  | cons u uses ih =>
    show ((s.use u).run uses).taken ++ ((s.use u).run uses).buffer = _
    rw [ih (s.use u), fed_use, List.flatMap_cons]
    exact List.append_assoc _ _ _

end Session

/-- **What a turn takes off its buffer.**  In every state and on every buffer it is a front, and exactly
the one that it is to be; so whatever is done, what has been fed is what the turns have taken, one behind
the other, and then what is still in the buffer. -/
theorem exact_effect (d : Decoder) :
    (∀ buffer, buffer = d.taken buffer ++ (d.decode buffer).rest
        ∧ d.Exact (d.taken buffer) (d.decode buffer).outcome (d.decode buffer).decoder)
      ∧ ∀ uses : List Use, let s := (Session.ofDecoder d).run uses
        uses.flatMap Use.octets = s.passes.flatMap Pass.taken ++ s.buffer
          ∧ ∀ p ∈ s.passes, p.decoder.Exact p.taken p.turn.outcome p.turn.decoder := by
  have exact_ (d : Decoder) (buffer : Bytes) :
      d.Exact (d.taken buffer) (d.decode buffer).outcome (d.decode buffer).decoder :=
    (d.effect_decode buffer).2.exact
  refine ⟨fun buffer => ⟨(d.effect_decode buffer).1, exact_ d buffer⟩, fun uses => ⟨?_, ?_⟩⟩
  · exact ((Session.ofDecoder d).fed_run uses).symm
  · intro p _
    exact exact_ p.decoder p.buffer

/-- the head is taken as soon as it is there, and the front of the body is left -/
example : let opening := Bytes.ofAscii "\nPOST / HTTP/1.1\r\nContent-Length: 2\n\r\n"
    (Decoder.ofMaxBody 2).taken (opening ++ [104]) = opening
      ∧ (Decoder.ofMaxBody 1).taken (opening ++ [104]) = opening
      ∧ ((Decoder.ofMaxBody 1).decode (opening ++ [104])).outcome
        = .failed (.bodyTooLarge 2 1) := by decide +kernel

end Wire

end PipelinedHttp
