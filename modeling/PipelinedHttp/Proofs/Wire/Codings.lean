import PipelinedHttp.Proofs.Bytes
import PipelinedHttp.Proofs.Wire.Whole

/-!
# Transfer codings

All fields of one name make up one list: their values are joined by commas, and elements that are
empty do not count.  A body whose last coding is `chunked` does not announce its length.

* `elements_intercalate`   the elements of the combined list are those of the fields, in order;
* `SeesChunked`            what the framing goes by: a length beside the coding, or the last element
                           of the first field alone, empty or not;
* `bodyLength_of_chunked`  if it sees the chunked coding, the head is refused; if not, the head is
                           taken for one without a body;
* `chunked_head`           and so is the stream.
-/

namespace PipelinedHttp

namespace Wire

/-- the elements of a comma-separated list, without the blanks around them -/
def elements (value : Bytes) : List Bytes :=
  ((Bytes.splitOn 44 value).map (Bytes.trim Bytes.isBlank)).filter (· ≠ [])

theorem elements_append (s t : Bytes) : elements (s ++ 44 :: t) = elements s ++ elements t := by
  unfold elements
  rw [Bytes.splitOn_append, List.map_append, List.filter_append]

theorem elements_intercalate (values : List Bytes) :
    elements ([44].intercalate values) = values.flatMap elements := by
  match values with
  | [] => rfl
  | [v] =>
    rw [List.flatMap_singleton]
    exact congrArg elements (List.append_nil v)
  | v :: w :: values =>
    rw [List.flatMap_cons, ← elements_intercalate (w :: values), ← elements_append]
    rfl

theorem getLast?_elements {value last : Bytes} (h : (Bytes.splitOn 44 value).getLast? = some last)
    (filled : Bytes.trim Bytes.isBlank last ≠ []) :
    (elements value).getLast? = some (Bytes.trim Bytes.isBlank last) := by
  obtain ⟨front, split⟩ := List.getLast?_eq_some_iff.mp h
  have kept : [Bytes.trim Bytes.isBlank last].filter (· ≠ []) = [Bytes.trim Bytes.isBlank last] :=
    List.filter_eq_self.mpr (by simpa using filled)
  unfold elements
  rw [split, List.map_append, List.filter_append, List.map_singleton, kept, List.getLast?_concat]

end Wire

namespace Headers

/-- the transfer codings: all fields combined into one list -/
def codings (h : Headers) : List Bytes :=
  Wire.elements ([44].intercalate (h.values FieldName.transferEncoding))

/-- the last transfer coding is `chunked` -/
def Chunked (h : Headers) : Prop :=
  ∃ last ∈ h.codings.getLast?, Bytes.SameName last (Bytes.ofAscii "chunked")

instance (h : Headers) : Decidable h.Chunked :=
  inferInstanceAs (Decidable (∃ last ∈ h.codings.getLast?, _))

/-- what the framing goes by -/
def SeesChunked (h : Headers) : Prop :=
  h.contains FieldName.contentLength = true
    ∨ (h.get? FieldName.transferEncoding).any Wire.endsChunked = true

instance (h : Headers) : Decidable h.SeesChunked := inferInstanceAs (Decidable (_ ∨ _))

variable {h : Headers}

theorem codings_eq (h : Headers) :
    h.codings = (h.values FieldName.transferEncoding).flatMap Wire.elements :=
  Wire.elements_intercalate _

theorem Chunked.get? (chunked : h.Chunked) :
    ∃ value, h.get? FieldName.transferEncoding = some value := by
  obtain ⟨last, mem, -⟩ := chunked
  cases values : h.values FieldName.transferEncoding with
  | nil =>
    rw [codings_eq, values] at mem
    cases mem
  | cons value more => exact ⟨value, by rw [get?_eq_head?_values, values]; rfl⟩

/-- the framing sees the chunked coding if all codings stand in the first field, which does not end
in a comma -/
theorem Chunked.seen (chunked : h.Chunked) {value last : Bytes} {more : List Bytes}
    (values : h.values FieldName.transferEncoding = value :: more)
    (others : ∀ v ∈ more, Wire.elements v = [])
    (split : (Bytes.splitOn 44 value).getLast? = some last)
    (filled : Bytes.trim Bytes.isBlank last ≠ []) : h.SeesChunked := by
  obtain ⟨coding, mem, same⟩ := chunked
  rw [codings_eq, values, List.flatMap_cons, List.flatMap_eq_nil_iff.mpr others, List.append_nil,
    Wire.getLast?_elements split filled] at mem
  cases mem
  refine .inr ?_
  rw [get?_eq_head?_values, values]
  show Wire.endsChunked value = true
  unfold Wire.endsChunked
  rw [split]
  exact decide_eq_true same

end Headers

namespace Wire

theorem bodyLength_of_chunked {h : Headers} (chunked : h.Chunked) :
    (h.SeesChunked → ∀ n, bodyLength h ≠ .ok n) ∧ (¬ h.SeesChunked → bodyLength h = .ok 0) := by
  obtain ⟨value, coding⟩ := chunked.get?
  unfold Headers.SeesChunked Headers.contains bodyLength
  rw [coding]
  cases h.get? FieldName.contentLength with
  | some length => exact ⟨nofun, fun unseen => absurd (.inl rfl) unseen⟩
  | none =>
    show (_ ∨ endsChunked value = true → ∀ n, (if endsChunked value = true then _ else _) ≠ _)
      ∧ (¬ (_ ∨ endsChunked value = true) → (if endsChunked value = true then _ else _) = _)
    by_cases ends : endsChunked value = true
    · rw [if_pos ends]
      exact ⟨nofun, fun unseen => absurd (.inr ends) unseen⟩
    · rw [if_neg ends]
      refine ⟨?_, fun _ => rfl⟩
      rintro (length | seen)
      · cases length
      · exact absurd seen ends

theorem Heading.decode_of_unseen {g : Heading} (chunked : (Headers.mk g.head.fields).Chunked)
    (unseen : ¬ (Headers.mk g.head.fields).SeesChunked) (small : g.opening.length ≤ maxHead)
    {r : Request} (target : g.head.toRequest = .ok r) (maxBody : Nat) (s : Bytes) :
    (Decoder.ofMaxBody maxBody).decode (g.opening ++ s) = ⟨.request r, .ofMaxBody maxBody, s⟩ := by
  rw [decode_append small target _ rfl, headers_of_toRequest target,
    (bodyLength_of_chunked chunked).2 unseen]
  rfl

/-- **Requests with a chunked body.**  Let there be any requests, then a head whose last transfer
coding is chunked, and then whatever.  If the framing sees that, the stream fails at this head, and
nothing of what follows is read.  If it does not, the head is given out as a request without a body,
and what follows it is read as requests.  It does see it if the first field has all the codings and
does not end in an empty element. -/
theorem chunked_head {maxBody : Nat} {ws : List Whole} (fit : ∀ w ∈ ws, w.Fits maxBody)
    (g : Heading) (chunked : (Headers.mk g.head.fields).Chunked) {pieces : List Bytes} {s : Bytes}
    (stream : pieces.flatten = ws.flatMap Whole.octets ++ (g.opening ++ s)) :
    let h : Headers := ⟨g.head.fields⟩
    let i := (Intake.ofMaxBody maxBody).feedAll pieces
    (h.SeesChunked → i.requests = ws.map Whole.request ∧ i.failure.isSome = true)
      ∧ (¬ h.SeesChunked → ∀ r, g.head.toRequest = .ok r → g.opening.length ≤ maxHead →
          i.requests = ws.map Whole.request ++ r :: (Decoder.ofMaxBody maxBody).requests s)
      ∧ ∀ value more last, h.values FieldName.transferEncoding = value :: more →
          (∀ v ∈ more, elements v = []) → (Bytes.splitOn 44 value).getLast? = some last →
          Bytes.trim Bytes.isBlank last ≠ [] → h.SeesChunked := by
  intro h i
  obtain ⟨refused, taken⟩ := bodyLength_of_chunked chunked
  refine ⟨fun seen => ?_, fun unseen r target small => ?_, fun value more last => chunked.seen⟩
  · obtain ⟨e, failed⟩ := Heading.decode_of_refused (refused seen) (Decoder.ofMaxBody maxBody) rfl s
    exact Intake.feedAll_of_failed fit stream failed
  · have turn := Heading.decode_of_unseen chunked unseen small target maxBody s
    rw [show i.requests = _ from Intake.requests_feedAll fit stream, Decoder.requests_of_turn turn]

theorem chunked_head_of_one_field :
    let opening := Bytes.ofAscii "POST / HTTP/1.1\r\nTransfer-Encoding: gzip, Chunked\r\n\r\n"
    let i := (Intake.ofMaxBody 16).feedAll [opening, Bytes.ofAscii "0\r\n\r\n"]
    i.requests = [] ∧ i.failure.isSome = true := by
  let fields : List Field := [⟨Bytes.ofAscii "Transfer-Encoding", Bytes.ofAscii "gzip, Chunked"⟩]
  let g : Heading :=
    { opening := Bytes.ofAscii "POST / HTTP/1.1\r\nTransfer-Encoding: gzip, Chunked\r\n\r\n"
      head := .post fields
      read := by decide +kernel }
  have chunked : (Headers.mk g.head.fields).Chunked := by decide +kernel
  have none : ∀ w ∈ ([] : List Whole), w.Fits 16 := nofun
  have stream : [g.opening, Bytes.ofAscii "0\r\n\r\n"].flatten
      = [].flatMap Whole.octets ++ (g.opening ++ Bytes.ofAscii "0\r\n\r\n") := rfl
  have alone : ∀ v ∈ ([] : List Bytes), elements v = [] := nofun
  obtain ⟨refused, -, sees⟩ := chunked_head none g chunked stream
  exact refused (sees _ [] (Bytes.ofAscii " Chunked") rfl alone rfl (by decide))

/-- **A chunked coding that is not seen.**  It stands in a second field, or in front of a comma, and
the request is given out without a body, with the chunks left in the buffer. -/
theorem chunked_not_seen :
    let chunks := Bytes.ofAscii "5\r\nhello\r\n0\r\n\r\n"
    let unseen (opening : Bytes) := ∃ (g : Heading) (r : Request),
      g.opening = opening ∧ (Headers.mk g.head.fields).Chunked
        ∧ (Decoder.ofMaxBody 16).decode (opening ++ chunks) = ⟨.request r, .ofMaxBody 16, chunks⟩
        ∧ r.body = none
    unseen (Bytes.ofAscii
        "POST / HTTP/1.1\r\nTransfer-Encoding: gzip\r\nTransfer-Encoding: chunked\r\n\r\n")
      ∧ unseen (Bytes.ofAscii "POST / HTTP/1.1\r\nTransfer-Encoding: chunked,\r\n\r\n") := by
  intro chunks unseen
  let field (value : String) : Field := ⟨Bytes.ofAscii "Transfer-Encoding", Bytes.ofAscii value⟩
  have taken {opening : Bytes} (fields : List Field)
      (read : Wire.head opening = .done (.post fields) []) (small : opening.length ≤ maxHead)
      (chunked : (Headers.mk fields).Chunked) (hidden : ¬ (Headers.mk fields).SeesChunked) :
      unseen opening := by
    have turn := Heading.decode_of_unseen (g := ⟨opening, .post fields, read⟩) chunked hidden small
      (Head.toRequest_post fields) 16 chunks
    exact ⟨⟨opening, .post fields, read⟩, Head.posted fields, rfl, chunked, turn, rfl⟩
  constructor
  · exact taken [field "gzip", field "chunked"] (by decide +kernel) (by decide) (by decide) (by decide)
  · exact taken [field "chunked,"] (by decide +kernel) (by decide) (by decide) (by decide)

end Wire

end PipelinedHttp
