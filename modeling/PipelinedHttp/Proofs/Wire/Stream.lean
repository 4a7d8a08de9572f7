import PipelinedHttp.Proofs.Wire.Cutting

/-!
# The requests of a stream

`Decoder.requests d s` is every request that a decoder gives out of `s` before it wants more octets
or fails.  One turn on the front of a stream says how the requests of the whole stream begin:

* `requests_of_more`      with nothing: the requests are those of the next turn;
* `requests_of_request`   with the request of the turn;
* `requests_of_failed`    there are none.

`Decoder.faulty d s` says how the stream ends: with a failure, which may be that of its end, or
cleanly.  It follows the turns in the same way, and once the decoder wants more octets it depends on
nothing but whether there are any left (`faulty_of_waiting`).
-/

namespace PipelinedHttp.Wire

namespace Intake

/-- requests that were there before stay in front, and make no other difference -/
theorem drain_before (i : Intake) (before : List Request) :
    drain { i with requests := before ++ i.requests }
      = { drain i with requests := before ++ (drain i).requests } := by
  fun_induction drain i with
  | case1 i more =>
    rw [drain_of_more (i := { i with requests := before ++ i.requests }) more]
    rfl
  | case2 i e failed =>
    rw [drain_of_failed (i := { i with requests := before ++ i.requests }) failed]
    rfl
  | case3 i r request ih =>
    rw [drain_of_request (i := { i with requests := before ++ i.requests }) request, ← ih]
    show drain { i.next with requests := before ++ i.requests ++ [r] } = _
    rw [List.append_assoc]

theorem requests_drain (i : Intake) (before : List Request) :
    (drain { i with requests := before }).requests
      = before ++ (drain { i with requests := [] }).requests := by
  have front := congrArg requests (drain_before { i with requests := [] } before)
  rwa [show before ++ ({ i with requests := [] } : Intake).requests = before from
    List.append_nil before] at front

/-- the intake has failed, or does so if the stream ends here -/
def faulty (i : Intake) : Bool :=
  match i.failure, (i.decoder.finish i.buffer).outcome with
  | some _, _ => true
  | none, .failed _ => true
  | none, _ => false

theorem faulty_of_failure {i : Intake} {e : ReadError} (h : i.failure = some e) :
    i.faulty = true := by
  unfold faulty
  rw [h]

theorem Agree.eq_of_none {i j : Intake} (h : Agree i j) (none : j.failure = none) : i = j := by
  refine h.same ?_
  rw [← Option.isNone_iff_eq_none, ← Option.not_isSome, h.failed, none]
  rfl

theorem Agree.faulty {i j : Intake} (h : Agree i j) : i.faulty = j.faulty := by
  cases failure : i.failure with
  | none => rw [h.same failure]
  | some e =>
    have failed : j.failure.isSome = true := by rw [← h.failed, failure]; rfl
    obtain ⟨e', failure'⟩ := Option.isSome_iff_exists.mp failed
    rw [faulty_of_failure failure, faulty_of_failure failure']

theorem feedAll_ofMaxBody (maxBody : Nat) (pieces : List Bytes) :
    Agree ((ofMaxBody maxBody).feedAll pieces)
      (drain ⟨.ofMaxBody maxBody, pieces.flatten, [], none⟩) := by
  have whole := feedAll_flatten maxBody pieces
  rwa [feed_of_none rfl] at whole

end Intake

namespace Decoder
open Intake

/-- all requests that a decoder gives out of a stream -/
def requests (d : Decoder) (s : Bytes) : List Request := (drain ⟨d, s, [], none⟩).requests

theorem requests_of_more {d : Decoder} {s : Bytes} (h : (d.decode s).outcome = .more) (t : Bytes) :
    d.requests (s ++ t) = (d.decode s).decoder.requests ((d.decode s).rest ++ t) := by
  unfold requests
  rw [drain_congr (i := ⟨d, s ++ t, [], none⟩)
    (j := ⟨(d.decode s).decoder, (d.decode s).rest ++ t, [], none⟩)
    (decode_append_of_more h t).symm rfl rfl]

theorem requests_eq_nil_of_more {d : Decoder} {s : Bytes} (h : (d.decode s).outcome = .more) :
    d.requests s = [] := by
  unfold requests
  rw [drain_of_more (i := ⟨d, s, [], none⟩) h]
  rfl

theorem requests_of_failed {d : Decoder} {s : Bytes} {e : ReadError}
    (h : (d.decode s).outcome = .failed e) (t : Bytes) : d.requests (s ++ t) = [] := by
  obtain ⟨e', h'⟩ := decode_append_of_failed h t
  unfold requests
  rw [drain_of_failed (i := ⟨d, s ++ t, [], none⟩) h']
  rfl

theorem next_of_request {d : Decoder} {s : Bytes} {r : Request}
    (h : (d.decode s).outcome = .request r) (t : Bytes) :
    drain ⟨d, s ++ t, [], none⟩
      = drain ⟨(d.decode s).decoder, (d.decode s).rest ++ t, [r], none⟩ := by
  have turn := decode_append_of_request h t
  have h' : (d.decode (s ++ t)).outcome = .request r := by rw [turn]; exact h
  rw [drain_of_request (i := ⟨d, s ++ t, [], none⟩) h']
  show drain ⟨(d.decode (s ++ t)).decoder, (d.decode (s ++ t)).rest, [r], none⟩ = _
  rw [turn]

theorem requests_of_request {d : Decoder} {s : Bytes} {r : Request}
    (h : (d.decode s).outcome = .request r) (t : Bytes) :
    d.requests (s ++ t) = r :: (d.decode s).decoder.requests ((d.decode s).rest ++ t) := by
  unfold requests
  rw [next_of_request h t]
  exact requests_drain ⟨(d.decode s).decoder, (d.decode s).rest ++ t, [], none⟩ [r]

theorem requests_of_turn {d d' : Decoder} {s rest : Bytes} {r : Request}
    (h : d.decode s = ⟨.request r, d', rest⟩) : d.requests s = r :: d'.requests rest := by
  have first := requests_of_request (show (d.decode s).outcome = .request r by rw [h]) []
  rw [List.append_nil, List.append_nil, h] at first
  exact first

/-! ## what a turn leaves -/

theorem pending_of_takeBody {d : Decoder} {request r : Request} {length : Nat} {s : Bytes}
    (h : (d.takeBody request length s).outcome = .request r) :
    (d.takeBody request length s).decoder.pending = none := by
  unfold takeBody at h ⊢
  by_cases lack : s.length < length
  · rw [if_pos lack] at h
    cases h
  · rw [if_neg lack]
    rfl

theorem pending_of_request {d : Decoder} {s : Bytes} {r : Request}
    (h : (d.decode s).outcome = .request r) : (d.decode s).decoder.pending = none := by
  cases hp : d.pending with
  | some p =>
    obtain ⟨request, length⟩ := p
    rw [decode_of_pending hp] at h ⊢
    exact pending_of_takeBody h
  | none =>
    cases hr : readHead s with
    | more => rw [decode_of_more hp hr] at h; cases h
    | failed e rest => rw [decode_of_failed hp hr] at h; cases h
    | done request length rest =>
      rw [decode_of_done hp hr] at h ⊢
      unfold afterHead at h ⊢
      by_cases zero : length = 0
      · rw [if_pos zero]
        exact hp
      · rw [if_neg zero] at h ⊢
        by_cases large : d.maxBody < length
        · rw [if_pos large] at h
          cases h
        · rw [if_neg large] at h ⊢
          exact pending_of_takeBody h

theorem maxBody_takeBody (d : Decoder) (request : Request) (length : Nat) (s : Bytes) :
    (d.takeBody request length s).decoder.maxBody = d.maxBody := by
  unfold takeBody
  split <;> rfl

theorem maxBody_decode (d : Decoder) (s : Bytes) : (d.decode s).decoder.maxBody = d.maxBody := by
  unfold decode
  split
  · exact maxBody_takeBody _ _ _ _
  · split
    · rfl
    · rfl
    · unfold afterHead
      split
      · rfl
      · split
        · rfl
        · exact maxBody_takeBody _ _ _ _

theorem decoder_of_request {maxBody : Nat} {s : Bytes} {r : Request}
    (h : ((ofMaxBody maxBody).decode s).outcome = .request r) :
    ((ofMaxBody maxBody).decode s).decoder = ofMaxBody maxBody := by
  have pending := pending_of_request h
  have limit := maxBody_decode (ofMaxBody maxBody) s
  cases e : ((ofMaxBody maxBody).decode s).decoder with
  | mk maxBody' pending' =>
    rw [e] at pending limit
    rw [show pending' = none from pending, show maxBody' = maxBody from limit]
    rfl

theorem reset_of_pending {d : Decoder} (h : d.pending = none) : d.reset = d := by
  unfold reset
  rw [← h]

theorem requests_of_request_reset {d : Decoder} {s : Bytes} {r : Request}
    (h : (d.decode s).outcome = .request r) (t : Bytes) :
    d.requests (s ++ t) = r :: (d.decode s).decoder.reset.requests ((d.decode s).rest ++ t) := by
  rw [reset_of_pending (pending_of_request h), requests_of_request h]

/-- what holds of the request of each turn holds of all requests that are drained -/
theorem drain_forall {maxBody : Nat} {P : Request → Prop}
    (turn : ∀ {s r}, ((ofMaxBody maxBody).decode s).outcome = .request r → P r) (i : Intake)
    (decoder : i.decoder = ofMaxBody maxBody) (before : ∀ r ∈ i.requests, P r) :
    ∀ r ∈ (drain i).requests, P r := by
  fun_induction drain i with
  | case1 i more => exact before
  | case2 i e failed => exact before
  | case3 i r request ih =>
    rw [decoder] at request
    have next : i.next.decoder = ofMaxBody maxBody := by
      show (i.decoder.decode i.buffer).decoder = _
      rw [decoder]
      exact decoder_of_request request
    refine ih next fun r' hr' => ?_
    rcases List.mem_append.mp hr' with old | new
    · exact before r' old
    · rw [List.mem_singleton.mp new]
      exact turn request

theorem requests_forall {maxBody : Nat} {P : Request → Prop}
    (turn : ∀ {s r}, ((ofMaxBody maxBody).decode s).outcome = .request r → P r) (s : Bytes) :
    ∀ r ∈ (ofMaxBody maxBody).requests s, P r := by
  have none : ∀ r ∈ ([] : List Request), P r := fun r hr => absurd hr List.not_mem_nil
  exact drain_forall turn ⟨ofMaxBody maxBody, s, [], .none⟩ rfl none

theorem decode_again {d : Decoder} {s : Bytes} (h : (d.decode s).outcome = .more) :
    (d.decode s).decoder.decode (d.decode s).rest
      = ⟨.more, (d.decode s).decoder, (d.decode s).rest⟩ := by
  have again := decode_append_of_more h []
  rw [List.append_nil, List.append_nil] at again
  rw [again, ← h]

/-- the end of a stream is a turn, and only what comes of it may be another thing -/
theorem finish_eq (d : Decoder) (s : Bytes) :
    ∃ outcome, d.finish s = ⟨outcome, (d.decode s).decoder, (d.decode s).rest⟩
      ∧ ∀ r, outcome = .request r → (d.decode s).outcome = .request r := by
  unfold finish
  dsimp only
  split
  · split
    · exact ⟨_, rfl, fun _ same => same⟩
    · exact ⟨_, rfl, nofun⟩
  · exact ⟨_, rfl, fun _ same => same⟩

/-- a decoder that wanted more octets takes the end of the stream for a failure if any are left -/
theorem finish_of_waiting {d : Decoder} {s : Bytes} (h : d.decode s = ⟨.more, d, s⟩) :
    d.finish s
      = ⟨if s = [] then .more else .failed (.transport "bytes remaining on stream"), d, s⟩ := by
  unfold finish
  rw [h]
  by_cases nil : s = []
  · simp only [if_pos nil]
  · simp only [if_neg nil]

/-- the end of the stream is a failure or nothing, when the decoder wanted more octets -/
theorem finish_of_more {d : Decoder} {s : Bytes} (h : d.decode s = ⟨.more, d, s⟩) :
    d.finish s = ⟨.more, d, s⟩
      ∨ d.finish s = ⟨.failed (.transport "bytes remaining on stream"), d, s⟩ := by
  rw [finish_of_waiting h]
  by_cases nil : s = []
  · exact .inl (by rw [if_pos nil])
  · exact .inr (by rw [if_neg nil])

/-! ## how a stream ends -/

/-- the stream fails, or ends within a request -/
def faulty (d : Decoder) (s : Bytes) : Bool := (drain ⟨d, s, [], none⟩).faulty

theorem faulty_of_more {d : Decoder} {s : Bytes} (h : (d.decode s).outcome = .more) (t : Bytes) :
    d.faulty (s ++ t) = (d.decode s).decoder.faulty ((d.decode s).rest ++ t) := by
  unfold faulty
  rw [drain_congr (i := ⟨d, s ++ t, [], none⟩)
    (j := ⟨(d.decode s).decoder, (d.decode s).rest ++ t, [], none⟩)
    (decode_append_of_more h t).symm rfl rfl]

theorem faulty_of_failed {d : Decoder} {s : Bytes} {e : ReadError}
    (h : (d.decode s).outcome = .failed e) (t : Bytes) : d.faulty (s ++ t) = true := by
  obtain ⟨e', h'⟩ := decode_append_of_failed h t
  unfold faulty
  rw [drain_of_failed (i := ⟨d, s ++ t, [], none⟩) h']
  exact faulty_of_failure rfl

theorem faulty_of_request {d : Decoder} {s : Bytes} {r : Request}
    (h : (d.decode s).outcome = .request r) (t : Bytes) :
    d.faulty (s ++ t) = (d.decode s).decoder.faulty ((d.decode s).rest ++ t) := by
  unfold faulty
  rw [next_of_request h t]
  have same := drain_before ⟨(d.decode s).decoder, (d.decode s).rest ++ t, [], none⟩ [r]
  rw [show [r] ++ ([] : List Request) = [r] from rfl] at same
  rw [same]
  rfl

/-- octets that are left behind the last turn are a request that has not come to its end -/
theorem faulty_of_waiting {d : Decoder} {s : Bytes} (h : d.decode s = ⟨.more, d, s⟩) :
    d.faulty s = !s.isEmpty := by
  have waits : (d.decode s).outcome = .more := by rw [h]
  unfold faulty
  rw [drain_of_more (i := ⟨d, s, [], none⟩) waits]
  have still : (⟨d, s, [], none⟩ : Intake).next = ⟨d, s, [], none⟩ := by
    unfold Intake.next
    rw [h]
  rw [still]
  unfold Intake.faulty
  rw [finish_of_waiting h]
  cases s <;> rfl

end Decoder

end PipelinedHttp.Wire
