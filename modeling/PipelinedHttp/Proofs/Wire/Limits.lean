import PipelinedHttp.Proofs.Wire.Effect

/-!
# Limits of a decoder

Whatever is fed and however often the decoder is turned, what the turns have taken off is cut into
requests that keep the limits, heads that have been refused, and the head that the decoder holds
(`Session.Parted`).

* `Decoder.Holds.effect`    what one turn adds to the cuts;
* `Session.Parted.run`      so all of a stream is cut;
* `Cut.least`               a request takes at least the octets of the shortest head;
* `Session.exists_quiet`    so a buffer does not give requests out for ever;
* `limits`                  all of it together, with the bounds on what waits in the buffer.
-/

namespace PipelinedHttp.Wire

/-! ## whole requests -/

namespace Whole
variable (w : Whole)

theorem minHead_le_octets : minHead ≤ w.octets.length := by
  have least := w.minHead_le
  unfold octets
  rw [List.length_append]
  omega

/-- all but the body of a request is what its head says -/
theorem request_said : w.request.version = w.said.version ∧ w.request.method = w.said.method
    ∧ w.request.headers = w.said.headers := by
  unfold request
  split
  · exact ⟨rfl, rfl, rfl⟩
  · exact ⟨rfl, rfl, rfl⟩

theorem headers_request : w.request.headers = ⟨w.head.fields⟩ :=
  w.request_said.2.2.trans (headers_of_toRequest w.target)

theorem body_request : w.request.body = if w.body.length = 0 then none else some w.body := by
  have bare := (bare_of_toRequest w.target).2
  unfold request
  by_cases nil : w.body = []
  · rw [if_pos nil, if_pos (List.length_eq_zero_iff.mpr nil), bare]
  · rw [if_neg nil, if_neg fun zero => nil (List.length_eq_zero_iff.mp zero)]
    rfl

/-- a request that keeps the limits of a decoder: those of its head and its fields, and that of its body,
which is absent if it has no octets -/
structure Limited (w : Whole) (maxBody : Nat) : Prop where
  least : minHead ≤ w.opening.length
  head_le : w.opening.length ≤ maxHead
  fields_le : w.request.headers.fields.length ≤ maxFields
  length : bodyLength w.request.headers = .ok w.body.length
  body_le : w.body.length ≤ maxBody
  body : w.request.body = if w.body.length = 0 then none else some w.body

theorem Fits.limited {w : Whole} {maxBody : Nat} (fit : w.Fits maxBody) : w.Limited maxBody where
  least := w.minHead_le
  head_le := fit.head_le
  fields_le := by
    rw [w.headers_request]
    exact w.plain.fields_le
  length := by
    have said := headers_of_toRequest w.target
    rw [w.headers_request, ← said]
    exact w.length
  body_le := fit.body_le
  body := w.body_request

end Whole

/-! ## cuts -/

/-- what has been taken off a stream in one piece: a request, or a head that is refused -/
inductive Cut where
  | whole (w : Whole)
  | refused (g : Heading)

namespace Cut

def octets : Cut → Bytes
  | .whole w => w.octets
  | .refused g => g.opening

def request? : Cut → Option Request
  | .whole w => some w.request
  | .refused _ => none

/-- each request takes at least the octets of the shortest head -/
theorem least (cuts : List Cut) :
    minHead * (cuts.filterMap request?).length ≤ (cuts.flatMap octets).length := by
  induction cuts with
  | nil => exact Nat.zero_le _
  | cons c cuts ih =>
    rw [List.flatMap_cons, List.length_append]
    cases c with
    | whole w =>
      have one : minHead ≤ w.octets.length := w.minHead_le_octets
      show minHead * ((cuts.filterMap request?).length + 1) ≤ w.octets.length + _
      rw [Nat.mul_succ]
      omega
    | refused g =>
      show minHead * (cuts.filterMap request?).length ≤ g.opening.length + _
      omega

end Cut

/-- the request that a turn gives out -/
def Outcome.request? : Outcome → Option Request
  | .request r => some r
  | .more | .failed _ => none

namespace Decoder
variable {d after : Decoder} {opening taken rest : Bytes} {outcome : Outcome}

/-- the octets are those of the head that the decoder holds; there are none if it is idle -/
def Holds (d : Decoder) (opening : Bytes) : Prop :=
  match d.pending with
  | none => opening = []
  | some (said, n) => ∃ g : Heading, opening = g.opening ∧ g.Says said n ∧ 0 < n ∧ n ≤ d.maxBody

theorem holds_of_idle (idle : d.pending = none) : d.Holds opening ↔ opening = [] := by
  unfold Holds
  rw [idle]

theorem holds_of_pending {said : Request} {n : Nat} (pending : d.pending = some (said, n)) :
    d.Holds opening ↔ ∃ g : Heading, opening = g.opening ∧ g.Says said n ∧ 0 < n ∧ n ≤ d.maxBody := by
  unfold Holds
  rw [pending]

/-- what a turn adds to the cuts: nothing, or one of them, for which the head that was held is used -/
theorem Holds.effect (holds : d.Holds opening) (h : d.Effect taken rest outcome after) :
    after.maxBody = d.maxBody ∧ ∃ (cuts : List Cut) (opening' : Bytes), after.Holds opening'
      ∧ opening ++ taken = cuts.flatMap Cut.octets ++ opening'
      ∧ outcome.request?.toList = cuts.filterMap Cut.request?
      ∧ ∀ w, .whole w ∈ cuts → w.Fits d.maxBody := by
  cases h with
  | short | waiting | barred => exact ⟨rfl, [], opening, holds, List.append_nil _, rfl, nofun⟩
  | @opened g said n _ idle sound fits lack =>
    cases (holds_of_idle idle).mp holds
    have held : Decoder.Holds { d with pending := some (said, n) } g.opening :=
      ⟨g, rfl, sound, Nat.zero_lt_of_lt lack, fits⟩
    exact ⟨rfl, [], g.opening, held, rfl, rfl, nofun⟩
  | @whole w _ idle fit =>
    cases (holds_of_idle idle).mp holds
    refine ⟨rfl, [.whole w], [], holds, by simp [Cut.octets], rfl, ?_⟩
    intro w' mem
    cases List.mem_singleton.mp mem
    exact fit
  | @filled said _ _ pending =>
    obtain ⟨g, rfl, sound, pos, fits⟩ := (holds_of_pending pending).mp holds
    let w : Whole := ⟨g, taken, said, sound.target, sound.length⟩
    have request : w.request = said.withBody taken := if_neg (List.length_pos_iff.mp pos)
    refine ⟨rfl, [.whole w], [], rfl, by simp [Cut.octets, Whole.octets, w], ?_, ?_⟩
    · rw [← request]
      rfl
    · intro w' mem
      cases List.mem_singleton.mp mem
      exact ⟨sound.small, fits⟩
  | @refused g _ _ idle =>
    cases (holds_of_idle idle).mp holds
    refine ⟨rfl, [.refused g], [], holds, by simp [Cut.octets], rfl, ?_⟩
    intro w mem
    cases List.mem_singleton.mp mem

end Decoder

/-! ## sessions -/

namespace Session
variable {s : Session} {maxBody : Nat}

def ofMaxBody (maxBody : Nat) : Session := .ofDecoder (.ofMaxBody maxBody)

/-- the requests that the turns have given out -/
def requests (s : Session) : List Request := s.passes.filterMap fun p => p.turn.outcome.request?

theorem requests_turn (s : Session) :
    (s.use .turn).requests = s.requests ++ s.pass.turn.outcome.request?.toList := by
  show (s.passes ++ [s.pass]).filterMap (fun p => p.turn.outcome.request?) = _
  rw [List.filterMap_append]
  cases e : s.pass.turn.outcome.request? <;> simp [e, requests]

theorem effect_pass (s : Session) : s.decoder.Effect s.pass.taken s.pass.turn.rest
    s.pass.turn.outcome s.pass.turn.decoder :=
  (s.decoder.effect_decode s.buffer).2

/-- how what has been taken off is cut -/
structure Parted (maxBody : Nat) (s : Session) (cuts : List Cut) (opening : Bytes) : Prop where
  limit : s.decoder.maxBody = maxBody
  holds : s.decoder.Holds opening
  taken : s.taken = cuts.flatMap Cut.octets ++ opening
  requests : s.requests = cuts.filterMap Cut.request?
  fits : ∀ w, .whole w ∈ cuts → w.Fits maxBody

theorem parted_ofMaxBody (maxBody : Nat) : Parted maxBody (ofMaxBody maxBody) [] [] :=
  ⟨rfl, rfl, rfl, rfl, nofun⟩

theorem Parted.use {cuts : List Cut} {opening : Bytes} (h : s.Parted maxBody cuts opening)
    (u : Use) : ∃ cuts opening, (s.use u).Parted maxBody cuts opening := by
  cases u with
  | feed piece => exact ⟨cuts, opening, h.limit, h.holds, h.taken, h.requests, h.fits⟩
  | turn =>
    obtain ⟨same, new, opening', holds, octets, requests, fits⟩ := h.holds.effect s.effect_pass
    refine ⟨cuts ++ new, opening', same.trans h.limit, holds, ?_, ?_, ?_⟩
    · rw [taken_turn, h.taken, List.append_assoc, octets, List.flatMap_append, List.append_assoc]
    · rw [requests_turn, h.requests, requests, List.filterMap_append]
    · intro w mem
      rw [h.limit] at fits
      exact (List.mem_append.mp mem).elim (h.fits w) (fits w)

theorem Parted.run {cuts : List Cut} {opening : Bytes} (h : s.Parted maxBody cuts opening)
    (uses : List Use) : ∃ cuts opening, (s.run uses).Parted maxBody cuts opening := by
  induction uses generalizing s cuts opening with
  | nil => exact ⟨cuts, opening, h⟩
  | cons u uses ih =>
    obtain ⟨cuts', opening', later⟩ := h.use u
    exact ih later

theorem parted_run (maxBody : Nat) (uses : List Use) :
    ∃ cuts opening, ((ofMaxBody maxBody).run uses).Parted maxBody cuts opening :=
  (parted_ofMaxBody maxBody).run uses

theorem Parted.least {cuts : List Cut} {opening : Bytes} (h : s.Parted maxBody cuts opening) :
    minHead * s.requests.length ≤ s.taken.length := by
  have least := Cut.least cuts
  rw [h.requests, h.taken, List.length_append]
  omega

/-! ## turn after turn -/

/-- the session after a number of turns -/
def turns (s : Session) (n : Nat) : Session := s.run (List.replicate n .turn)

theorem turns_succ (s : Session) (n : Nat) : s.turns (n + 1) = (s.use .turn).turns n := by
  unfold turns
  rw [List.replicate_succ]
  rfl

/-- a turn that gives a request out leaves the decoder idle, and takes at least the octets of the shortest
head if the decoder has been idle before -/
theorem request_pass {r : Request} (given : s.pass.turn.outcome = .request r) :
    (s.use .turn).decoder.pending = none ∧ (s.use .turn).buffer.length ≤ s.buffer.length
      ∧ (s.decoder.pending = none → (s.use .turn).buffer.length + minHead ≤ s.buffer.length) := by
  have split := congrArg List.length (s.decoder.effect_decode s.buffer).1
  have effect := s.effect_pass
  rw [List.length_append] at split
  show s.pass.turn.decoder.pending = none ∧ s.pass.turn.rest.length ≤ s.buffer.length
    ∧ (s.decoder.pending = none → s.pass.turn.rest.length + minHead ≤ s.buffer.length)
  change s.buffer.length = s.pass.taken.length + s.pass.turn.rest.length at split
  rw [given] at effect
  generalize s.pass.taken = taken at effect split
  generalize s.pass.turn.decoder = after at effect
  cases effect with
  | @whole w _ idle =>
    have least := w.minHead_le_octets
    exact ⟨idle, by omega, fun _ => by omega⟩
  | filled pending =>
    refine ⟨rfl, by omega, fun idle => ?_⟩
    cases idle.symm.trans pending

theorem exists_quiet_of_idle (idle : s.decoder.pending = none) :
    ∃ n ≤ s.buffer.length / minHead, (s.turns n).pass.turn.outcome.request? = none := by
  generalize length : s.buffer.length = size
  induction size using Nat.strongRecOn generalizing s with
  | ind size ih =>
    cases outcome : s.pass.turn.outcome with
    | more => exact ⟨0, Nat.zero_le _, congrArg Outcome.request? outcome⟩
    | failed e => exact ⟨0, Nat.zero_le _, congrArg Outcome.request? outcome⟩
    | request r =>
      obtain ⟨idle', -, shorter⟩ := request_pass outcome
      have shorter := shorter idle
      have pos : 0 < minHead := by decide
      obtain ⟨n, le, quiet⟩ := ih (s.use .turn).buffer.length (by omega) idle' rfl
      refine ⟨n + 1, ?_, by rw [turns_succ]; exact quiet⟩
      calc n + 1 ≤ (s.use .turn).buffer.length / minHead + 1 := Nat.succ_le_succ le
        _ = ((s.use .turn).buffer.length + minHead) / minHead := (Nat.add_div_right _ pos).symm
        _ ≤ size / minHead := Nat.div_le_div_right (length ▸ shorter)

theorem exists_quiet (s : Session) :
    ∃ n ≤ s.buffer.length / minHead + 1, (s.turns n).pass.turn.outcome.request? = none := by
  cases outcome : s.pass.turn.outcome with
  | more => exact ⟨0, Nat.zero_le _, congrArg Outcome.request? outcome⟩
  | failed e => exact ⟨0, Nat.zero_le _, congrArg Outcome.request? outcome⟩
  | request r =>
    obtain ⟨idle, shorter, -⟩ := request_pass outcome
    obtain ⟨n, le, quiet⟩ := exists_quiet_of_idle idle
    have le := Nat.le_trans le (Nat.div_le_div_right shorter)
    exact ⟨n + 1, Nat.succ_le_succ le, by rw [turns_succ]; exact quiet⟩

/-! ## the limits -/

/-- what waits in the buffer is bounded, by the limit of a head or by the length of the body -/
structure Bounded (maxBody : Nat) (t : Turn) : Prop where
  idle : t.decoder.pending = none → t.rest.length ≤ maxHead
  pending : ∀ said n, t.decoder.pending = some (said, n) → t.rest.length < n ∧ n ≤ maxBody

theorem Parted.bounded {cuts : List Cut} {opening : Bytes} (h : s.Parted maxBody cuts opening)
    (more : s.pass.turn.outcome = .more) : Bounded maxBody s.pass.turn := by
  have effect := s.effect_pass
  have holds := h.holds
  have limit := h.limit
  rw [more] at effect
  generalize s.pass.turn = t at effect ⊢
  generalize s.pass.taken = taken at effect
  obtain ⟨outcome, after, rest⟩ := t
  change s.decoder.Effect taken rest .more after at effect
  cases effect with
  | short idle small =>
    refine ⟨fun _ => small, fun said n pending => ?_⟩
    cases idle.symm.trans pending
  | opened idle sound fits lack =>
    refine ⟨nofun, ?_⟩
    rintro _ _ ⟨⟩
    exact ⟨lack, limit ▸ fits⟩
  | waiting pending lack =>
    refine ⟨fun idle => ?_, fun said n pending' => ?_⟩
    · cases pending.symm.trans idle
    · cases pending.symm.trans pending'
      obtain ⟨-, -, -, -, fits⟩ := (Decoder.holds_of_pending pending).mp holds
      exact ⟨lack, limit ▸ fits⟩

/-- all that is limited in a session -/
structure Limited (maxBody : Nat) (s : Session) : Prop where
  /-- a turn that wants more octets leaves a small buffer -/
  bounded : s.pass.turn.outcome = .more → Bounded maxBody s.pass.turn
  /-- the requests are cut off what has been fed, and keep the limits -/
  cuts : ∃ (cuts : List Cut) (opening : Bytes), s.taken = cuts.flatMap Cut.octets ++ opening
    ∧ s.requests = cuts.filterMap Cut.request? ∧ ∀ w, .whole w ∈ cuts → w.Limited maxBody
  least : minHead * s.requests.length ≤ s.taken.length
  /-- the turns come to an end of requests -/
  ends : ∃ n ≤ s.buffer.length / minHead + 1, (s.turns n).pass.turn.outcome.request? = none

end Session

/-- **Bounded buffering.**  Whatever is fed and however often the decoder is turned, what it leaves in the
buffer when it wants more octets is bounded, all requests keep the limits, and each of them takes at least
the octets of the shortest head, so that no buffer gives requests out for ever. -/
theorem limits (maxBody : Nat) (uses : List Use) :
    let s := (Session.ofMaxBody maxBody).run uses
    s.taken ++ s.buffer = uses.flatMap Use.octets ∧ s.Limited maxBody := by
  obtain ⟨cuts, opening, parted⟩ := Session.parted_run maxBody uses
  refine ⟨(Session.ofMaxBody maxBody).fed_run uses, parted.bounded, ?_, parted.least,
    Session.exists_quiet _⟩
  refine ⟨cuts, opening, parted.taken, parted.requests, ?_⟩
  intro w mem
  exact (parted.fits w mem).limited

end PipelinedHttp.Wire
