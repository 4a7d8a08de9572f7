import PipelinedHttp.Proofs.Wire.Spelling
import PipelinedHttp.Proofs.Wire.Whole

/-!
# Messages

A `Message` is a request that a client can write: its parts (`Draft`) with the proofs that they
read back.  Its octets decode into `Message.request`, whatever follows, and `maxBody` messages one
behind the other decode turn by turn.

* `Message.whole`            the octets of a message are those of a whole request;
* `Message.decode_print`     so one message takes one turn;
* `Message.takeRequests_print`   `n` messages take `n` turns, and what follows them is left.
-/

namespace PipelinedHttp.Wire

/-- the parts of a request as they are written -/
structure Draft where
  method : Method
  target : Bytes
  version : Version
  fields : List Field
  body : Bytes

/-- the digit behind `HTTP/1.` -/
def Draft.minor (d : Draft) : Nat := if d.version = .http10 then 0 else 1

def Draft.head (d : Draft) : Head := ⟨d.method.name, d.target, d.minor, d.fields⟩

def Draft.print (d : Draft) : Bytes := d.head.print ++ d.body

/-- a request that can be written to a decoder with the given limit -/
structure Message (maxBody : UInt64) extends Draft where
  uri : Uri
  target_octet : ∀ b ∈ target, isTarget b = true
  target_text : (Utf8.decode? target).isSome
  target_read : Uri.ofBytes? target = some uri
  version_one : version = .http10 ∨ version = .http11
  field : ∀ f ∈ fields, f.Plain
  fields_le : fields.length ≤ maxFields
  coding : ∀ f ∈ fields, ¬ f.Named FieldName.transferEncoding
  /-- the first length is that of the body; without a body there need not be one -/
  length : (Headers.mk fields).get? FieldName.contentLength = some (Bytes.decimal body.length)
    ∨ body = [] ∧ (Headers.mk fields).get? FieldName.contentLength = none
  body_le : body.length ≤ maxBody.toNat
  head_le : toDraft.head.print.length ≤ maxHead

namespace Message
variable {maxBody : UInt64}

/-- what a message says -/
def request (m : Message maxBody) : Request where
  method := m.method
  uri := m.uri
  version := m.version
  headers := ⟨m.fields⟩
  body := if m.body = [] then none else some m.body
  pathParams := []

theorem plain (m : Message maxBody) : m.head.Plain where
  method_ne_nil := m.method.ne_nil
  method_token b hb := (isToken_eq b).trans (m.method.token b hb)
  target_ne_nil e := by
    have e : m.target = [] := e
    have read := m.target_read
    rw [e] at read
    cases read
  target_octet := m.target_octet
  target_text e := by
    have text := m.target_text
    rw [show Utf8.decode? m.target = none from e] at text
    cases text
  minor_le := by
    show m.minor ≤ 1
    unfold Draft.minor
    split <;> omega
  field := m.field
  fields_le := m.fields_le

theorem ofBytes?_name (method : Method) : Method.ofBytes? method.name = some method := by
  unfold Method.ofBytes?
  rw [dif_pos ⟨method.ne_nil, List.all_eq_true.mpr method.token⟩]

theorem toRequest_head (m : Message maxBody) :
    m.head.toRequest
      = .ok { Request.ofTarget m.method m.uri m.version with headers := ⟨m.fields⟩ } := by
  have version : versionOfMinor? m.minor = some m.version := by
    unfold Draft.minor
    rcases m.version_one with e | e <;> rw [e] <;> rfl
  unfold Head.toRequest
  rw [show versionOfMinor? m.head.minor = some m.version from version]
  dsimp only
  rw [show Method.ofBytes? m.head.method = some m.method from ofBytes?_name m.method]
  dsimp only
  rw [show Uri.ofBytes? m.head.target = some m.uri from m.target_read]
  rfl

theorem bodyLength_fields (m : Message maxBody) :
    bodyLength ⟨m.fields⟩ = .ok m.body.length := by
  have coding : (Headers.mk m.fields).get? FieldName.transferEncoding = none := by
    show (m.fields.find? _).map _ = none
    rw [List.find?_eq_none.mpr fun f hf => by simpa using m.coding f hf]
    rfl
  have lt : m.body.length < lengthBound := Nat.lt_of_le_of_lt m.body_le maxBody.toNat_lt
  rcases m.length with length | ⟨nil, length⟩
  · exact bodyLength_of_announced coding length lt
  · rw [nil]
    exact bodyLength_of_absent coding length

/-- the octets of a message are a whole request -/
def whole (m : Message maxBody) : Whole where
  opening := m.head.print
  body := m.body
  head := m.head
  said := { Request.ofTarget m.method m.uri m.version with headers := ⟨m.fields⟩ }
  read := by
    have read := head_print m.plain []
    rwa [List.append_nil] at read
  target := m.toRequest_head
  length := m.bodyLength_fields

theorem fits_whole (m : Message maxBody) : m.whole.Fits maxBody.toNat := ⟨m.head_le, m.body_le⟩

theorem request_whole (m : Message maxBody) : m.whole.request = m.request := by
  unfold Whole.request request
  by_cases nil : m.body = []
  · rw [if_pos (show m.whole.body = [] from nil), if_pos nil]
    rfl
  · rw [if_neg (show ¬ m.whole.body = [] from nil), if_neg nil]
    rfl

/-- one turn reads one message and leaves what follows -/
theorem decode_print (m : Message maxBody) (s : Bytes) :
    (Decoder.ofMaxBody maxBody.toNat).decode (m.print ++ s)
      = ⟨.request m.request, .ofMaxBody maxBody.toNat, s⟩ := by
  rw [← m.request_whole]
  exact m.whole.decode_append m.fits_whole s

end Message

/-- a number of turns, each of which gives a request out -/
def Decoder.takeRequests (d : Decoder) (buffer : Bytes) :
    Nat → Option (List Request × Decoder × Bytes)
  | 0 => some ([], d, buffer)
  | n + 1 =>
    let turn := d.decode buffer
    match turn.outcome with
    | .request r => (takeRequests turn.decoder turn.rest n).map fun (rs, left) => (r :: rs, left)
    | _ => none

/-- **Decoding inverts the wire form.**  As many turns as there are messages read exactly these,
in order, and leave exactly what follows them. -/
theorem Message.takeRequests_print {maxBody : UInt64} (ms : List (Message maxBody)) (rest : Bytes) :
    (Decoder.ofMaxBody maxBody.toNat).takeRequests (ms.flatMap (·.print) ++ rest) ms.length
      = some (ms.map Message.request, .ofMaxBody maxBody.toNat, rest) := by
  induction ms with
  | nil => rfl
  | cons m ms ih =>
    rw [List.flatMap_cons, List.append_assoc, List.length_cons, Decoder.takeRequests]
    rw [m.decode_print]
    show (Decoder.takeRequests _ (ms.flatMap (·.print) ++ rest) ms.length).map _ = _
    rw [ih]
    rfl

/-- the same message twice, with an empty value and a body, and something behind -/
theorem Message.takeRequests_print_twice :
    ∃ m : Message 4, m.print = Bytes.ofAscii
        "GET /a?b HTTP/1.0\r\nX: \r\ncontent-length: 2\r\n\r\nhi"
      ∧ (Decoder.ofMaxBody 4).takeRequests ([m, m].flatMap (·.print) ++ Bytes.ofAscii "PUT") 2
        = some ([m.request, m.request], .ofMaxBody 4, Bytes.ofAscii "PUT") := by
  let fields : List Field := [⟨Bytes.ofAscii "X", []⟩, ⟨Bytes.ofAscii "content-length", [50]⟩]
  let m : Message 4 :=
    { method := .get
      target := Bytes.ofAscii "/a?b"
      version := .http10
      fields
      body := Bytes.ofAscii "hi"
      uri := ⟨none, none, Bytes.ofAscii "/a", some [98]⟩
      target_octet := List.all_eq_true.mp rfl
      target_text := by decide
      target_read := by decide
      version_one := .inl rfl
      field := by
        intro f hf
        simp only [fields, List.mem_cons, List.not_mem_nil, or_false] at hf
        rcases hf with rfl | rfl
        · exact ⟨by decide, List.all_eq_true.mp rfl, nofun, nofun, nofun⟩
        · refine ⟨by decide, List.all_eq_true.mp rfl, List.all_eq_true.mp rfl, ?_, ?_⟩ <;>
            rintro b ⟨⟩ <;> rfl
      fields_le := by decide
      coding := by decide
      length := .inl rfl
      body_le := by decide
      head_le := by decide }
  exact ⟨m, by decide, takeRequests_print [m, m] (Bytes.ofAscii "PUT")⟩

end PipelinedHttp.Wire
