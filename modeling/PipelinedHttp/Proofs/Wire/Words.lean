import PipelinedHttp.Proofs.Wire.Limits

/-!
# The decoder in machine words

A decoder counts with numbers of any size.  On a machine of 64 bits lengths are words: a length that a
head announces is converted before its body is awaited, and what lacks of the body, which the buffer is to
grow by, is a difference of words.  Either could go wrong.  `WordDecoder.decode` is a turn that notices if
it does, as an `Overflow`.

* `toWord_of_bodyLength`          a length that has been read is a word;
* `difference_of_le`              a difference that is not below zero is that of the numbers;
* `WordDecoder.computes_decode`   so a turn in words always gives a result, which is that of the decoder;
                                  what lacks of the body is counted exactly;
* `Session.inWords_run`           and words are all that a decoder comes to hold.
-/

namespace PipelinedHttp.Wire

/-! ## words -/

/-- what can go wrong with words -/
inductive Overflow where
  /-- the number is no word -/
  | conversion (n : Nat)
  /-- the difference is below zero -/
  | difference (a b : UInt64)
  deriving DecidableEq

def toWord (n : Nat) : Except Overflow UInt64 :=
  if n < UInt64.size then .ok (.ofNat n) else .error (.conversion n)

/-- the difference of two words, if it is a word -/
def difference (a b : UInt64) : Except Overflow UInt64 :=
  if b ≤ a then .ok (a - b) else .error (.difference a b)

theorem toWord_of_lt {n : Nat} (lt : n < UInt64.size) :
    toWord n = .ok (.ofNat n) ∧ (UInt64.ofNat n).toNat = n :=
  ⟨if_pos lt, Nat.mod_eq_of_lt lt⟩

theorem difference_of_le {a b : UInt64} (le : b.toNat ≤ a.toNat) :
    difference a b = .ok (a - b) ∧ b.toNat + (a - b).toNat = a.toNat := by
  have le' : b ≤ a := UInt64.le_iff_toNat_le.mpr le
  refine ⟨if_pos le', ?_⟩
  rw [UInt64.toNat_sub_of_le a b le']
  exact Nat.add_sub_cancel' le

/-- numbers that do not fit are noticed -/
example : toWord 18446744073709551616 = .error (.conversion 18446744073709551616)
    ∧ difference 2 5 = .error (.difference 2 5) := ⟨rfl, rfl⟩

/-! ## lengths that are read -/

theorem parseLength?_lt {cs : List Char} {n : Nat} (h : parseLength? cs = some n) : n < lengthBound := by
  unfold parseLength? at h
  obtain ⟨sound, same⟩ := Option.ite_none_right_eq_some.mp h
  cases same
  exact sound.2.2

theorem announcedLength_lt {value : Bytes} {n : Nat} (h : announcedLength value = .ok n) :
    n < lengthBound := by
  unfold announcedLength at h
  split at h
  · cases h
  · split at h
    · cases h
    · rename_i read
      cases h
      exact parseLength?_lt read

theorem toWord_of_bodyLength {h : Headers} {n : Nat} (length : bodyLength h = .ok n) :
    toWord n = .ok (.ofNat n) ∧ (UInt64.ofNat n).toNat = n := by
  refine toWord_of_lt ?_
  rcases Nat.eq_zero_or_pos n with rfl | pos
  · decide
  · obtain ⟨value, -, read⟩ := reads_of_bodyLength length pos
    exact announcedLength_lt read

/-! ## turns in words -/

structure WordDecoder where
  maxBody : UInt64
  pending : Option (Request × UInt64)

structure WordTurn where
  outcome : Outcome
  decoder : WordDecoder
  rest : Bytes
  /-- what the buffer is to grow by -/
  room : UInt64

namespace WordDecoder

/-- the body of a request, if all of it is there, and what lacks of it otherwise -/
def takeBody (d : WordDecoder) (request : Request) (length : UInt64) (buffer : Bytes) :
    Except Overflow WordTurn :=
  if buffer.length < length.toNat then do
    let there ← toWord buffer.length
    let room ← difference length there
    return ⟨.more, { d with pending := some (request, length) }, buffer, room⟩
  else
    return ⟨.request (request.withBody (buffer.take length.toNat)), { d with pending := none },
      buffer.drop length.toNat, 0⟩

def afterHead (d : WordDecoder) (request : Request) (length : Nat) (rest : Bytes) :
    Except Overflow WordTurn :=
  if length = 0 then return ⟨.request request, d, rest, 0⟩
  else if d.maxBody.toNat < length then
    return ⟨.failed (.bodyTooLarge length d.maxBody.toNat), d, rest, 0⟩
  else do
    let length ← toWord length
    d.takeBody request length rest

def decode (d : WordDecoder) (buffer : Bytes) : Except Overflow WordTurn :=
  match d.pending with
  | some (request, length) => d.takeBody request length buffer
  | none =>
    match readHead buffer with
    | .more => return ⟨.more, d, buffer, 0⟩
    | .failed e rest => return ⟨.failed e, d, rest, 0⟩
    | .done request length rest => d.afterHead request length rest

/-- the decoder with the numbers that its words stand for -/
def toDecoder (d : WordDecoder) : Decoder :=
  ⟨d.maxBody.toNat, d.pending.map fun p => (p.1, p.2.toNat)⟩

end WordDecoder

def WordTurn.toTurn (t : WordTurn) : Turn := ⟨t.outcome, t.decoder.toDecoder, t.rest⟩

/-- the turn in words gives a result: that of the given turn, with room for exactly what lacks of the body
that is awaited -/
def Computes (x : Except Overflow WordTurn) (turn : Turn) : Prop :=
  ∃ t, x = .ok t ∧ t.toTurn = turn ∧ ∀ said n, t.outcome = .more →
    t.decoder.pending = some (said, n) → t.rest.length + t.room.toNat = n.toNat

namespace WordDecoder

theorem computes_takeBody (d : WordDecoder) (request : Request) (length : UInt64) (buffer : Bytes) :
    Computes (d.takeBody request length buffer)
      (d.toDecoder.takeBody request length.toNat buffer) := by
  unfold takeBody Decoder.takeBody
  split
  · -- less is there than the length, so what is there is a word, and the difference is not below zero
    rename_i lack
    obtain ⟨there, number⟩ := toWord_of_lt (Nat.lt_trans lack length.toNat_lt)
    have le : (UInt64.ofNat buffer.length).toNat ≤ length.toNat := by
      rw [number]
      exact Nat.le_of_lt lack
    obtain ⟨room, lacks⟩ := difference_of_le le
    rw [number] at lacks
    rw [there]
    show Computes ((difference length (.ofNat buffer.length)).bind _) _
    rw [room]
    refine ⟨_, rfl, rfl, ?_⟩
    rintro _ _ - ⟨⟩
    exact lacks
  · exact ⟨_, rfl, rfl, nofun⟩

theorem computes_afterHead (d : WordDecoder) (request : Request) {length : Nat}
    (word : toWord length = .ok (.ofNat length) ∧ (UInt64.ofNat length).toNat = length) (rest : Bytes) :
    Computes (d.afterHead request length rest) (d.toDecoder.afterHead request length rest) := by
  obtain ⟨converted, number⟩ := word
  unfold afterHead Decoder.afterHead
  rw [show d.toDecoder.maxBody = d.maxBody.toNat from rfl]
  split
  · exact ⟨_, rfl, rfl, nofun⟩
  · split
    · exact ⟨_, rfl, rfl, nofun⟩
    · rw [converted]
      have body := d.computes_takeBody request (.ofNat length) rest
      rw [number] at body
      exact body

/-- a turn in words gives what the turn gives, on every state of words and every buffer -/
theorem computes_decode (d : WordDecoder) (buffer : Bytes) :
    Computes (d.decode buffer) (d.toDecoder.decode buffer) := by
  unfold decode
  cases pending : d.pending with
  | some p =>
    obtain ⟨request, length⟩ := p
    have awaited : d.toDecoder.pending = some (request, length.toNat) := by
      rw [toDecoder, pending]
      rfl
    rw [Decoder.decode_of_pending awaited]
    exact d.computes_takeBody request length buffer
  | none =>
    have idle : d.toDecoder.pending = none := by
      rw [toDecoder, pending]
      rfl
    have unheld {said : Request} {n : UInt64} : d.pending ≠ some (said, n) := by
      rw [pending]
      exact nofun
    cases head : readHead buffer with
    | more =>
      rw [Decoder.decode_of_more idle head]
      exact ⟨_, rfl, rfl, fun _ _ _ held => absurd held unheld⟩
    | failed e rest =>
      rw [Decoder.decode_of_failed idle head]
      exact ⟨_, rfl, rfl, nofun⟩
    | done request length rest =>
      rw [Decoder.decode_of_done idle head]
      obtain ⟨_, -, -, -, read⟩ := scanHead_done (readHead_done head)
      exact d.computes_afterHead request (toWord_of_bodyLength read) rest

end WordDecoder

/-! ## turn after turn -/

namespace Session
variable {s : Session}

/-- what the decoder holds are words -/
def InWords (s : Session) : Prop := ∃ d : WordDecoder, d.toDecoder = s.decoder

theorem InWords.use (held : s.InWords) (u : Use) : (s.use u).InWords := by
  obtain ⟨d, same⟩ := held
  cases u with
  | feed piece => exact ⟨d, same⟩
  | turn =>
    obtain ⟨t, -, turn, -⟩ := d.computes_decode s.buffer
    rw [same] at turn
    exact ⟨t.decoder, congrArg Turn.decoder turn⟩

/-- whatever is fed and however often it is turned, a decoder with a limit that is a word holds words -/
theorem inWords_run (maxBody : UInt64) (uses : List Use) :
    ((ofMaxBody maxBody.toNat).run uses).InWords :=
  List.foldlRecOn uses use ⟨⟨maxBody, none⟩, rfl⟩ fun _ held u _ => held.use u

end Session

end PipelinedHttp.Wire
