import PipelinedHttp.Request
import PipelinedHttp.Wire.BodyLength
import PipelinedHttp.Wire.Head

/-!
# Decoding requests

A decoder cuts requests off the front of a buffer.  It works in two phases: a head is read as soon
as it is complete, and is kept while its body arrives; the request is given out with all of its
body.

* `readHead`    the head in front of a buffer, with the octets behind it;
* `decode`      one turn: a request, or a failure, or a wish for more octets;
* `finish`      a turn when no more octets will come: what is left over is a failure.

A fault of the request line, of a field, of the target or of a limit leaves the buffer as it is; a
fault of the framing is found when the head has been cut off.
-/

namespace PipelinedHttp.Wire

/-- the most octets of a head, empty lines in front included -/
def maxHead : Nat := 8192

/-- no head is shorter than this -/
def minHead : Nat := 14

inductive HeadTurn where
  | more
  | failed (e : ReadError) (rest : Bytes)
  /-- a request that waits for its body, the length of the body, and the octets behind the head -/
  | done (request : Request) (length : Nat) (rest : Bytes)

def versionOfMinor? : Nat → Option Version
  | 0 => some .http10
  | 1 => some .http11
  | _ => none

def Head.toRequest (h : Head) : Except ReadError Request :=
  match versionOfMinor? h.minor with
  | none => .error (.unsupportedVersion (some h.minor))
  | some version =>
    match Method.ofBytes? h.method with
    | none => .error .invalidMethod
    | some method =>
      match Uri.ofBytes? h.target with
      | none => .error .invalidTarget
      | some uri => .ok { Request.ofTarget method uri version with headers := ⟨h.fields⟩ }

/-- a complete head of the given size, in front of the given rest -/
def cutHead (buffer : Bytes) (h : Head) (size : Nat) (rest : Bytes) : HeadTurn :=
  if maxHead < size then .failed (.headTooLarge size maxHead) buffer
  else match h.toRequest with
    | .error e => .failed e buffer
    | .ok request =>
      match bodyLength request.headers with
      | .error e => .failed e rest
      | .ok length => .done request length rest

/-- the head in front of a buffer of any length -/
def scanHead (buffer : Bytes) : HeadTurn :=
  match head buffer with
  | .bad .tooManyFields => .failed (.tooManyFields maxFields) buffer
  | .bad flaw => .failed (.malformedHead flaw.message) buffer
  | .short =>
    if maxHead < buffer.length then .failed (.headTooLarge buffer.length maxHead) buffer else .more
  | .done h rest => cutHead buffer h (buffer.length - rest.length) rest

/-- the head in front of a buffer; a buffer that no head fits in is not looked at -/
def readHead (buffer : Bytes) : HeadTurn :=
  if buffer.length < minHead then .more else scanHead buffer

theorem cutHead_done {buffer rest rest' : Bytes} {h : Head} {size length : Nat} {request : Request}
    (e : cutHead buffer h size rest = .done request length rest') :
    size ≤ maxHead ∧ h.toRequest = .ok request ∧ bodyLength request.headers = .ok length
      ∧ rest = rest' := by
  unfold cutHead at e
  split at e
  · cases e
  · rename_i le
    split at e
    · cases e
    · rename_i request' er
      split at e
      · cases e
      · rename_i length' el
        cases e
        exact ⟨Nat.le_of_not_lt le, er, el, rfl⟩

theorem scanHead_done {buffer rest : Bytes} {request : Request} {length : Nat}
    (e : scanHead buffer = .done request length rest) :
    ∃ h, head buffer = .done h rest ∧ buffer.length - rest.length ≤ maxHead
      ∧ h.toRequest = .ok request ∧ bodyLength request.headers = .ok length := by
  unfold scanHead at e
  split at e
  · cases e
  · cases e
  · split at e <;> cases e
  · rename_i h rest' eh
    obtain ⟨le, er, el, rfl⟩ := cutHead_done e
    exact ⟨h, eh, le, er, el⟩

theorem readHead_done {buffer rest : Bytes} {request : Request} {length : Nat}
    (h : readHead buffer = .done request length rest) :
    scanHead buffer = .done request length rest := by
  unfold readHead at h
  split at h
  · cases h
  · exact h

theorem readHead_le {buffer rest : Bytes} {request : Request} {length : Nat}
    (h : readHead buffer = .done request length rest) : rest.length + minHead ≤ buffer.length :=
  have ⟨_, e, _⟩ := scanHead_done (readHead_done h)
  takes_head.le e

/-! ## the decoder -/

structure Decoder where
  maxBody : Nat
  /-- a request whose body is still to come, and the length of that body -/
  pending : Option (Request × Nat)

inductive Outcome where
  | more
  | request (r : Request)
  | failed (e : ReadError)
  deriving DecidableEq

structure Turn where
  outcome : Outcome
  decoder : Decoder
  rest : Bytes

namespace Decoder

def defaultMaxBody : Nat := 8388608

def ofMaxBody (maxBody : Nat) : Decoder := ⟨maxBody, none⟩

def idle (d : Decoder) : Bool := d.pending.isNone

/-- a request whose body is still to come is dropped -/
def reset (d : Decoder) : Decoder := { d with pending := none }

/-- the body of a request, if all of it is there -/
def takeBody (d : Decoder) (request : Request) (length : Nat) (buffer : Bytes) : Turn :=
  if buffer.length < length then ⟨.more, { d with pending := some (request, length) }, buffer⟩
  else ⟨.request (request.withBody (buffer.take length)), d.reset, buffer.drop length⟩

/-- what follows from a head: the request if it has no body, or a refusal, or the body -/
def afterHead (d : Decoder) (request : Request) (length : Nat) (rest : Bytes) : Turn :=
  if length = 0 then ⟨.request request, d, rest⟩
  else if d.maxBody < length then ⟨.failed (.bodyTooLarge length d.maxBody), d, rest⟩
  else d.takeBody request length rest

def decode (d : Decoder) (buffer : Bytes) : Turn :=
  match d.pending with
  | some (request, length) => d.takeBody request length buffer
  | none =>
    match readHead buffer with
    | .more => ⟨.more, d, buffer⟩
    | .failed e rest => ⟨.failed e, d, rest⟩
    | .done request length rest => d.afterHead request length rest

/-- how much there is left to read: a request that waits for its body counts one -/
def load (d : Decoder) (buffer : Bytes) : Nat := buffer.length + d.pending.toList.length

theorem load_takeBody {d : Decoder} {buffer : Bytes} {request r : Request} {length : Nat}
    (h : (d.takeBody request length buffer).outcome = .request r) :
    (d.takeBody request length buffer).decoder.load (d.takeBody request length buffer).rest
      = buffer.length - length := by
  unfold takeBody at h ⊢
  split at h
  · cases h
  · rename_i le
    rw [if_neg le]
    exact List.length_drop

theorem load_afterHead_le {d : Decoder} {rest : Bytes} {request r : Request} {length : Nat}
    (idle : d.pending = none) (h : (d.afterHead request length rest).outcome = .request r) :
    (d.afterHead request length rest).decoder.load (d.afterHead request length rest).rest
      ≤ rest.length := by
  unfold afterHead at h ⊢
  split at h
  · rename_i zero
    rw [if_pos zero, load, idle]
    exact Nat.le_refl _
  · rename_i zero
    rw [if_neg zero]
    split at h
    · cases h
    · rename_i le
      rw [if_neg le, load_takeBody h]
      exact Nat.sub_le _ _

/-- a turn that gives a request out leaves less to read -/
theorem load_lt_of_request {d : Decoder} {buffer : Bytes} {r : Request}
    (h : (d.decode buffer).outcome = .request r) :
    (d.decode buffer).decoder.load (d.decode buffer).rest < d.load buffer := by
  unfold decode at h ⊢
  split at h
  · rename_i e
    rw [load_takeBody h, load, e]
    simp only [Option.toList, List.length_singleton]
    omega
  · rename_i idle
    split at h
    · cases h
    · cases h
    · rename_i e
      have le := readHead_le e
      have pos : 0 < minHead := by decide
      have small := load_afterHead_le idle h
      rw [load.eq_def d buffer, idle]
      simp only [Option.toList, List.length_nil]
      omega

def finish (d : Decoder) (buffer : Bytes) : Turn :=
  let turn := d.decode buffer
  match turn.outcome with
  | .more =>
    if turn.rest = [] then turn
    else { turn with outcome := .failed (.transport "bytes remaining on stream") }
  | _ => turn

end Decoder

end PipelinedHttp.Wire
