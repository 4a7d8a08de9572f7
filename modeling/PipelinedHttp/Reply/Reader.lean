import PipelinedHttp.Reply

/-!
# Reading replies

The other end of the wire.  A client reads a head up to the first empty line, splits each of its
lines behind the first colon and blank, and takes as many octets of body as `Content-Length` says;
what follows is the next reply.
-/

namespace PipelinedHttp

namespace Reply

/-- a reply as a client sees it -/
structure Seen where
  statusLine : Bytes
  headers : Headers
  body : Bytes
  deriving DecidableEq

/-- what a client should see of a reply -/
def seen (r : Reply) : Seen := ⟨r.statusLine, r.headers, r.body⟩

namespace Seen

def readField? (line : Bytes) : Option Field :=
  (Bytes.cut? [Bytes.colon, Bytes.space] line).map fun (name, value) => ⟨name, value⟩

/-- status line and headers of the text in front of an empty line -/
def readHead? (text : Bytes) : Option (Bytes × Headers) :=
  match Bytes.lines text with
  | [] => none
  | line :: fields => (fields.mapM readField?).map fun fields => (line ++ Bytes.crlf, ⟨fields⟩)

def contentLength? (h : Headers) : Option Nat :=
  (h.get? FieldName.contentLength).bind Bytes.ofDecimal?

/-- the reply in front of a stream, and what follows it -/
def read? (s : Bytes) : Option (Seen × Bytes) := do
  let (text, rest) ← Bytes.cut? (Bytes.crlf ++ Bytes.crlf) s
  let (statusLine, headers) ← readHead? text
  let length ← contentLength? headers
  if rest.length < length then none
  else some (⟨statusLine, headers, rest.take length⟩, rest.drop length)

theorem read?_length {s rest : Bytes} {seen : Seen} (h : read? s = some (seen, rest)) :
    rest.length < s.length := by
  unfold read? at h
  obtain ⟨⟨text, more⟩, cut, h⟩ := Option.bind_eq_some_iff.mp h
  obtain ⟨⟨statusLine, headers⟩, -, h⟩ := Option.bind_eq_some_iff.mp h
  obtain ⟨length, -, h⟩ := Option.bind_eq_some_iff.mp h
  split at h
  · cases h
  · cases h
    rw [Bytes.eq_of_cut?_eq_some cut, List.length_append, List.length_append, List.length_drop]
    show _ < text.length + (4 + more.length)
    omega

/-- all replies of a stream that ends behind the last of them -/
def readAll? (s : Bytes) : Option (List Seen) :=
  if s = [] then some []
  else match _h : read? s with
    | none => none
    | some (seen, rest) => (readAll? rest).map (seen :: ·)
termination_by s.length
decreasing_by exact read?_length _h

end Seen

end Reply

end PipelinedHttp
