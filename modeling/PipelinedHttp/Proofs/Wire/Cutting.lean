import PipelinedHttp.Proofs.Wire.Prompt
import PipelinedHttp.Wire.Intake

/-!
# Decoding does not depend on how the octets arrive

A turn of a decoder on a buffer that grows later is compared with the turn on the grown buffer.

* `decode_append_of_request`, `_of_failed`   a decision stays, up to the kind of a failure;
* `decode_append_of_more`      a turn without a decision can be left out, since the next turn, on
                               the grown buffer, comes to the same;
* `Intake.drain_append`        so it makes no difference whether an intake is drained before it
                               gets the next piece;
* `Intake.feedAll_flatten`     nor in which pieces it gets the octets.

The kind of a failure does depend on the cutting: a head over the limit is reported with the size
of the buffer in which its end was missing.
-/

namespace PipelinedHttp.Wire

/-! ## heads in a growing buffer -/

theorem cutHead_append (buffer rest t : Bytes) (h : Head) (size : Nat) :
    cutHead (buffer ++ t) h size (rest ++ t)
      = match cutHead buffer h size rest with
        | .more => .more
        | .failed e left => .failed e (left ++ t)
        | .done request length left => .done request length (left ++ t) := by
  unfold cutHead
  by_cases large : maxHead < size
  · rw [if_pos large, if_pos large]
  · rw [if_neg large, if_neg large]
    cases h.toRequest with
    | error e => rfl
    | ok request =>
      dsimp only
      cases bodyLength request.headers <;> rfl

theorem scanHead_of_done {buffer rest : Bytes} {h : Head} (e : head buffer = .done h rest) :
    scanHead buffer = cutHead buffer h (buffer.length - rest.length) rest := by
  unfold scanHead
  rw [e]

theorem scanHead_append_of_done {buffer rest : Bytes} {h : Head}
    (e : head buffer = .done h rest) (t : Bytes) :
    scanHead (buffer ++ t) = cutHead (buffer ++ t) h (buffer.length - rest.length) (rest ++ t) := by
  have e' : head (buffer ++ t) = .done h (rest ++ t) := by
    rw [steady_head.stable (by rw [e]; exact nofun), e]
    rfl
  rw [scanHead_of_done e', List.length_append, List.length_append, Nat.add_sub_add_right]

theorem scanHead_append_of_bad {buffer : Bytes} {flaw : Flaw} (e : head buffer = .bad flaw)
    (t : Bytes) : ∃ e', scanHead (buffer ++ t) = .failed e' (buffer ++ t) := by
  have e' : head (buffer ++ t) = .bad flaw := by
    rw [steady_head.stable (by rw [e]; exact nofun), e]
    rfl
  unfold scanHead
  rw [e']
  cases flaw <;> exact ⟨_, rfl⟩

/-- a buffer that is too long without the end of a head is too long whatever follows: the head, if
it ends at all, ends behind the buffer -/
theorem scanHead_append_of_long {buffer : Bytes} (e : head buffer = .short)
    (long : maxHead < buffer.length) (t : Bytes) :
    ∃ e', scanHead (buffer ++ t) = .failed e' (buffer ++ t) := by
  cases e' : head (buffer ++ t) with
  | bad flaw =>
    obtain ⟨f, hf⟩ := scanHead_append_of_bad e' []
    rw [List.append_nil] at hf
    exact ⟨f, hf⟩
  | short =>
    unfold scanHead
    rw [e']
    refine ⟨_, if_pos ?_⟩
    rw [List.length_append]
    omega
  | done h rest =>
    rw [scanHead_of_done e']
    have := head_length_of_short e e'
    refine ⟨_, if_pos ?_⟩
    rw [List.length_append]
    omega

theorem readHead_of_long {buffer : Bytes} (long : minHead ≤ buffer.length) :
    readHead buffer = scanHead buffer :=
  if_neg (Nat.not_lt.mpr long)

theorem le_length_of_readHead {buffer : Bytes} (h : readHead buffer ≠ .more) :
    minHead ≤ buffer.length :=
  Nat.not_lt.mp fun lt => h (if_pos lt)

theorem readHead_append {buffer : Bytes} (h : readHead buffer ≠ .more) (t : Bytes) :
    readHead (buffer ++ t) = scanHead (buffer ++ t) := by
  apply readHead_of_long
  have := le_length_of_readHead h
  rw [List.length_append]
  omega

theorem readHead_append_of_done {buffer rest : Bytes} {request : Request} {length : Nat}
    (h : readHead buffer = .done request length rest) (t : Bytes) :
    readHead (buffer ++ t) = .done request length (rest ++ t) := by
  rw [readHead_append (by rw [h]; exact nofun)]
  have e := readHead_done h
  obtain ⟨hd, eh, _⟩ := scanHead_done e
  rw [scanHead_of_done eh] at e
  rw [scanHead_append_of_done eh, cutHead_append, e]

theorem readHead_append_of_failed {buffer rest : Bytes} {e : ReadError}
    (h : readHead buffer = .failed e rest) (t : Bytes) :
    ∃ e' rest', readHead (buffer ++ t) = .failed e' rest' := by
  have long := le_length_of_readHead (by rw [h]; exact nofun)
  rw [readHead_append (by rw [h]; exact nofun)]
  rw [readHead_of_long long] at h
  cases eh : head buffer with
  | bad flaw =>
    obtain ⟨e', he'⟩ := scanHead_append_of_bad eh t
    exact ⟨e', _, he'⟩
  | short =>
    have exceeds : maxHead < buffer.length := by
      apply Nat.lt_of_not_le
      intro le
      unfold scanHead at h
      rw [eh] at h
      simp only [if_neg (Nat.not_lt.mpr le)] at h
      cases h
    obtain ⟨e', he'⟩ := scanHead_append_of_long eh exceeds t
    exact ⟨e', _, he'⟩
  | done hd left =>
    rw [scanHead_of_done eh] at h
    rw [scanHead_append_of_done eh, cutHead_append, h]
    exact ⟨_, _, rfl⟩

/-! ## turns in a growing buffer -/

namespace Decoder

theorem takeBody_append_of_request {d : Decoder} {request r : Request} {length : Nat}
    {buffer : Bytes} (h : (d.takeBody request length buffer).outcome = .request r) (t : Bytes) :
    d.takeBody request length (buffer ++ t)
      = { d.takeBody request length buffer with
          rest := (d.takeBody request length buffer).rest ++ t } := by
  unfold takeBody at h ⊢
  by_cases lack : buffer.length < length
  · rw [if_pos lack] at h
    cases h
  · have lack' : ¬ (buffer ++ t).length < length := by
      rw [List.length_append]
      omega
    rw [if_neg lack, if_neg lack', List.take_append_of_le_length (by omega),
      List.drop_append_of_le_length (by omega)]

/-- a body that is not complete is waited for, and waiting changes nothing -/
theorem takeBody_of_more {d : Decoder} {request : Request} {length : Nat} {buffer : Bytes}
    (h : (d.takeBody request length buffer).outcome = .more) :
    d.takeBody request length buffer
      = ⟨.more, { d with pending := some (request, length) }, buffer⟩ := by
  unfold takeBody at h ⊢
  by_cases lack : buffer.length < length
  · rw [if_pos lack]
  · rw [if_neg lack] at h
    cases h

theorem takeBody_ne_failed {d : Decoder} {request : Request} {length : Nat} {buffer : Bytes}
    {e : ReadError} : (d.takeBody request length buffer).outcome ≠ .failed e := by
  unfold takeBody
  split <;> exact nofun

theorem decode_of_pending {d : Decoder} {request : Request} {length : Nat}
    (h : d.pending = some (request, length)) (buffer : Bytes) :
    d.decode buffer = d.takeBody request length buffer := by
  unfold decode
  rw [h]

theorem decode_of_done {d : Decoder} {buffer rest : Bytes} {request : Request} {length : Nat}
    (idle : d.pending = none) (h : readHead buffer = .done request length rest) :
    d.decode buffer = d.afterHead request length rest := by
  unfold decode
  rw [idle]
  simp only [h]

theorem decode_of_more {d : Decoder} {buffer : Bytes} (idle : d.pending = none)
    (h : readHead buffer = .more) : d.decode buffer = ⟨.more, d, buffer⟩ := by
  unfold decode
  rw [idle]
  simp only [h]

theorem decode_of_failed {d : Decoder} {buffer rest : Bytes} {e : ReadError}
    (idle : d.pending = none) (h : readHead buffer = .failed e rest) :
    d.decode buffer = ⟨.failed e, d, rest⟩ := by
  unfold decode
  rw [idle]
  simp only [h]

theorem afterHead_append_of_request {d : Decoder} {request r : Request} {length : Nat}
    {rest : Bytes} (h : (d.afterHead request length rest).outcome = .request r) (t : Bytes) :
    d.afterHead request length (rest ++ t)
      = { d.afterHead request length rest with
          rest := (d.afterHead request length rest).rest ++ t } := by
  unfold afterHead at h ⊢
  by_cases zero : length = 0
  · rw [if_pos zero, if_pos zero]
  · rw [if_neg zero] at h ⊢
    rw [if_neg zero]
    by_cases large : d.maxBody < length
    · rw [if_pos large] at h
      cases h
    · rw [if_neg large] at h ⊢
      rw [if_neg large]
      exact takeBody_append_of_request h t

/-- a request that has been given out is given out in the same way from a longer buffer -/
theorem decode_append_of_request {d : Decoder} {buffer : Bytes} {r : Request}
    (h : (d.decode buffer).outcome = .request r) (t : Bytes) :
    d.decode (buffer ++ t)
      = { d.decode buffer with rest := (d.decode buffer).rest ++ t } := by
  cases hp : d.pending with
  | some p =>
    obtain ⟨request, length⟩ := p
    rw [decode_of_pending hp] at h
    rw [decode_of_pending hp, decode_of_pending hp]
    exact takeBody_append_of_request h t
  | none =>
    cases hr : readHead buffer with
    | more => rw [decode_of_more hp hr] at h; cases h
    | failed e rest => rw [decode_of_failed hp hr] at h; cases h
    | done request length rest =>
      rw [decode_of_done hp hr] at h
      rw [decode_of_done hp hr, decode_of_done hp (readHead_append_of_done hr t)]
      exact afterHead_append_of_request h t

theorem decode_append_of_failed {d : Decoder} {buffer : Bytes} {e : ReadError}
    (h : (d.decode buffer).outcome = .failed e) (t : Bytes) :
    ∃ e', (d.decode (buffer ++ t)).outcome = .failed e' := by
  cases hp : d.pending with
  | some p =>
    obtain ⟨request, length⟩ := p
    rw [decode_of_pending hp] at h
    exact absurd h takeBody_ne_failed
  | none =>
    cases hr : readHead buffer with
    | more => rw [decode_of_more hp hr] at h; cases h
    | failed e rest =>
      obtain ⟨e', rest', he'⟩ := readHead_append_of_failed hr t
      exact ⟨e', by rw [decode_of_failed hp he']⟩
    | done request length rest =>
      rw [decode_of_done hp hr] at h
      rw [decode_of_done hp (readHead_append_of_done hr t)]
      unfold afterHead at h ⊢
      by_cases zero : length = 0
      · rw [if_pos zero] at h; cases h
      · rw [if_neg zero] at h ⊢
        by_cases large : d.maxBody < length
        · exact ⟨_, by rw [if_pos large]⟩
        · rw [if_neg large] at h
          exact absurd h takeBody_ne_failed

/-- a turn that has asked for more octets can be left out: with the octets that follow, the next
turn does what this one would have done with them -/
theorem decode_append_of_more {d : Decoder} {buffer : Bytes}
    (h : (d.decode buffer).outcome = .more) (t : Bytes) :
    (d.decode buffer).decoder.decode ((d.decode buffer).rest ++ t) = d.decode (buffer ++ t) := by
  cases hp : d.pending with
  | some p =>
    obtain ⟨request, length⟩ := p
    rw [decode_of_pending hp] at h ⊢
    rw [takeBody_of_more h, decode_of_pending hp, decode_of_pending rfl]
    rfl
  | none =>
    cases hr : readHead buffer with
    | more => rw [decode_of_more hp hr]
    | failed e rest => rw [decode_of_failed hp hr] at h; cases h
    | done request length rest =>
      rw [decode_of_done hp hr] at h ⊢
      rw [decode_of_done hp (readHead_append_of_done hr t)]
      unfold afterHead at h ⊢
      by_cases zero : length = 0
      · rw [if_pos zero] at h; cases h
      · rw [if_neg zero] at h ⊢
        rw [if_neg zero]
        by_cases large : d.maxBody < length
        · rw [if_pos large] at h; cases h
        · rw [if_neg large] at h ⊢
          rw [if_neg large, takeBody_of_more h, decode_of_pending rfl]
          rfl

end Decoder

/-! ## intakes -/

namespace Intake

/-- more octets behind the buffer -/
def grow (i : Intake) (t : Bytes) : Intake := { i with buffer := i.buffer ++ t }

theorem grow_grow (i : Intake) (s t : Bytes) : (i.grow s).grow t = i.grow (s ++ t) := by
  unfold grow
  rw [List.append_assoc]

theorem drain_of_more {i : Intake} (h : (i.decoder.decode i.buffer).outcome = .more) :
    i.drain = i.next := by
  rw [drain.eq_def]
  split
  · rfl
  · rename_i e; rw [h] at e; cases e
  · rename_i e; rw [h] at e; cases e

theorem drain_of_failed {i : Intake} {e : ReadError}
    (h : (i.decoder.decode i.buffer).outcome = .failed e) :
    i.drain = { i.next with failure := some e } := by
  rw [drain.eq_def]
  split
  · rename_i e'; rw [h] at e'; cases e'
  · rename_i e'; rw [h] at e'; cases e'; rfl
  · rename_i e'; rw [h] at e'; cases e'

theorem drain_of_request {i : Intake} {r : Request}
    (h : (i.decoder.decode i.buffer).outcome = .request r) :
    i.drain = drain { i.next with requests := i.requests ++ [r] } := by
  conv => lhs; rw [drain.eq_def]
  split
  · rename_i e; rw [h] at e; cases e
  · rename_i e; rw [h] at e; cases e
  · rename_i e; rw [h] at e; cases e; rfl

/-- what an intake comes to depends on its decoder and buffer through the next turn only -/
theorem drain_congr {i j : Intake} (turn : i.decoder.decode i.buffer = j.decoder.decode j.buffer)
    (requests : i.requests = j.requests) (failure : i.failure = j.failure) :
    i.drain = j.drain := by
  have next : i.next = j.next := by
    unfold Intake.next
    simp only [turn, requests, failure]
  cases h : (j.decoder.decode j.buffer).outcome with
  | more => rw [drain_of_more h, drain_of_more (turn ▸ h), next]
  | failed e => rw [drain_of_failed h, drain_of_failed (turn ▸ h), next]
  | request r =>
    have h' : (i.decoder.decode i.buffer).outcome = .request r := by rw [turn]; exact h
    rw [drain_of_request h', drain_of_request h, next, requests]

/-- the same requests, and both have failed or there is no difference at all -/
structure Agree (i j : Intake) : Prop where
  requests : i.requests = j.requests
  failed : i.failure.isSome = j.failure.isSome
  same : i.failure = none → i = j

theorem Agree.refl (i : Intake) : Agree i i := ⟨rfl, rfl, fun _ => rfl⟩

theorem Agree.trans {i j k : Intake} (h : Agree i j) (g : Agree j k) : Agree i k where
  requests := h.requests.trans g.requests
  failed := h.failed.trans g.failed
  same e := (h.same e).trans (g.same (h.same e ▸ e))

theorem feed_of_failure {i : Intake} {e : ReadError} (h : i.failure = some e) (t : Bytes) :
    i.feed t = i := by
  unfold feed
  rw [h]

theorem feed_of_none {i : Intake} (h : i.failure = none) (t : Bytes) :
    i.feed t = (i.grow t).drain := by
  unfold feed
  split
  · rename_i e
    rw [h] at e
    cases e
  · rfl

theorem drain_append {i : Intake} (h : i.failure = none) (t : Bytes) :
    Agree (i.drain.feed t) (i.grow t).drain := by
  fun_induction drain i with
  | case1 i more =>
    rw [feed_of_none (show i.next.failure = none from h)]
    have turn := Decoder.decode_append_of_more more t
    rw [drain_congr (i := i.next.grow t) (j := i.grow t) turn rfl rfl]
    exact Agree.refl _
  | case2 i e failed =>
    obtain ⟨e', failed'⟩ := Decoder.decode_append_of_failed failed t
    rw [feed_of_failure rfl, drain_of_failed (i := i.grow t) failed']
    exact ⟨rfl, rfl, nofun⟩
  | case3 i r request ih =>
    have turn := Decoder.decode_append_of_request request t
    have request' : ((i.grow t).decoder.decode (i.grow t).buffer).outcome = .request r := by
      show (i.decoder.decode (i.buffer ++ t)).outcome = _
      rw [turn]
      exact request
    have next : (i.grow t).next = i.next.grow t := by
      show ({ i.grow t with
        decoder := (i.decoder.decode (i.buffer ++ t)).decoder
        buffer := (i.decoder.decode (i.buffer ++ t)).rest } : Intake) = _
      rw [turn]
      rfl
    rw [drain_of_request request', next]
    exact ih h

theorem feed_feed (i : Intake) (s t : Bytes) : Agree ((i.feed s).feed t) (i.feed (s ++ t)) := by
  cases h : i.failure with
  | some e =>
    rw [feed_of_failure h, feed_of_failure h, feed_of_failure h]
    exact Agree.refl i
  | none =>
    rw [feed_of_none h, feed_of_none h, ← grow_grow]
    exact drain_append (i := i.grow s) h t

theorem Agree.feed {i j : Intake} (h : Agree i j) (t : Bytes) : Agree (i.feed t) (j.feed t) := by
  cases hi : i.failure with
  | none =>
    rw [h.same hi]
    exact Agree.refl _
  | some e =>
    have hj : j.failure.isSome = true := by rw [← h.failed, hi]; rfl
    obtain ⟨e', hj'⟩ := Option.isSome_iff_exists.mp hj
    rw [feed_of_failure hi, feed_of_failure hj']
    exact h

theorem Agree.feedAll {i j : Intake} (h : Agree i j) (pieces : List Bytes) :
    Agree (i.feedAll pieces) (j.feedAll pieces) := by
  induction pieces generalizing i j with
  | nil => exact h
  | cons t pieces ih => exact ih (h.feed t)

theorem feed_feedAll (i : Intake) (s : Bytes) (pieces : List Bytes) :
    Agree ((i.feed s).feedAll pieces) (i.feed (s ++ pieces.flatten)) := by
  induction pieces generalizing s with
  | nil =>
    rw [List.flatten_nil, List.append_nil]
    exact Agree.refl _
  | cons t pieces ih =>
    rw [List.flatten_cons, ← List.append_assoc]
    exact ((feed_feed i s t).feedAll pieces).trans (ih (s ++ t))

theorem feed_nil_ofMaxBody (maxBody : Nat) : (ofMaxBody maxBody).feed [] = ofMaxBody maxBody := by
  rw [feed_of_none rfl]
  exact drain_of_more (i := (ofMaxBody maxBody).grow []) rfl

/-- piece by piece comes to the same as all at once -/
theorem feedAll_flatten (maxBody : Nat) (pieces : List Bytes) :
    Agree ((ofMaxBody maxBody).feedAll pieces) ((ofMaxBody maxBody).feed pieces.flatten) := by
  have h := feed_feedAll (ofMaxBody maxBody) [] pieces
  rw [feed_nil_ofMaxBody] at h
  exact h

theorem Agree.symm {i j : Intake} (h : Agree i j) : Agree j i where
  requests := h.requests.symm
  failed := h.failed.symm
  same e := by
    refine (h.same ?_).symm
    rw [← Option.isNone_iff_eq_none, ← Option.not_isSome, h.failed, e]
    rfl

/-- **The same octets in other pieces** give the same requests; one intake fails iff the other
does, and if neither fails they are left with the same buffer and decoder. -/
theorem feedAll_eq_of_flatten_eq (maxBody : Nat) {pieces pieces' : List Bytes}
    (same : pieces.flatten = pieces'.flatten) :
    let i := (ofMaxBody maxBody).feedAll pieces
    let j := (ofMaxBody maxBody).feedAll pieces'
    i.requests = j.requests ∧ (i.failure.isSome ↔ j.failure.isSome) ∧
      (i.failure = none → i.buffer = j.buffer ∧ i.decoder = j.decoder ∧
        i.decoder.idle = j.decoder.idle) := by
  intro i j
  have h : Agree i j := by
    refine (feedAll_flatten maxBody pieces).trans ?_
    rw [same]
    exact (feedAll_flatten maxBody pieces').symm
  refine ⟨h.requests, by rw [h.failed], fun none => ?_⟩
  rw [h.same none]
  exact ⟨rfl, rfl, rfl⟩

/-- a request that is cut within its head and within its body -/
theorem feedAll_eq_of_cut_twice :
    let whole := [Bytes.ofAscii "PUT / HTTP/1.1\r\ncontent-length: 2\r\n\r\nhi"]
    let cut := [Bytes.ofAscii "PUT / HT", Bytes.ofAscii "TP/1.1\r\ncontent-length: 2\r\n\r\nh",
      Bytes.ofAscii "i"]
    whole.flatten = cut.flatten
      ∧ ((ofMaxBody 2).feedAll whole).requests = ((ofMaxBody 2).feedAll cut).requests :=
  ⟨by decide, (feedAll_eq_of_flatten_eq 2 (by decide)).1⟩

end Intake

end PipelinedHttp.Wire
