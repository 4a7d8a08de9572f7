import PipelinedHttp.Reply.Outgoing
import PipelinedHttp.Reply.Reader

/-!
# Replies read back

The octets of a connection tell where each of its replies ends.  No line of a head has a part of a
line end in it, so the first empty line is the end of the head; a name has no colon, so the first
colon of a line is the end of the name; and the one length that is announced is that of the body.

* `cut?_joinLines`, `lines_joinLines`   the head ends at the first empty line, and its lines are told
                                        apart;
* `Reply.Settled`      the status line is up to date, which every way to make a reply keeps
                       (`settled_edits`, `settled_finish`);
* `Headers.Clean`      the header lines can be told apart, which what is added on the way out keeps
                       (`clean_finish`, `clean_stamp`);
* `Seen.read?_encode`  so a reply that announces its length is read back, whatever follows it;
* `readAll?_encode`    and so are all replies of a stream, and those to any requests
                       (`readAll?_finish`).
-/

namespace PipelinedHttp

namespace Bytes

/-- there is no part of a line end in the text -/
def OneLine (s : Bytes) : Prop := cr ∉ s ∧ lf ∉ s

instance (s : Bytes) : Decidable (OneLine s) := inferInstanceAs (Decidable (_ ∧ _))

theorem OneLine.append {s t : Bytes} (hs : OneLine s) (ht : OneLine t) : OneLine (s ++ t) := by
  simp [OneLine, hs.1, hs.2, ht.1, ht.2]

theorem OneLine.cons {b : UInt8} {s : Bytes} (hs : OneLine s) (hc : cr ≠ b) (hl : lf ≠ b) :
    OneLine (b :: s) := by
  simp [OneLine, hs.1, hs.2, hc, hl]

theorem oneLine_decimal (n : Nat) : OneLine (decimal n) := by
  constructor <;> intro h <;> have digit := isDigit_of_mem_decimal h <;> revert digit <;> decide

/-! ## finding a text -/

theorem cut?_of_strip? {text s rest : Bytes} (h : strip? text s = some rest) :
    cut? text s = some ([], rest) := by
  cases s with
  | nil => rw [cut?, h]; rfl
  | cons b s => rw [cut?, h]

theorem cut?_self (text rest : Bytes) : cut? text (text ++ rest) = some ([], rest) :=
  cut?_of_strip? (strip?_eq_some_iff.mpr rfl)

theorem cut?_cons {text s front rest : Bytes} {b : UInt8} (h : strip? text (b :: s) = none)
    (cut : cut? text s = some (front, rest)) : cut? text (b :: s) = some (b :: front, rest) := by
  rw [cut?, h]
  simp only [cut]
  rfl

/-- the text is not found where its first octet does not stand -/
theorem cut?_append {a : UInt8} {text line s front rest : Bytes} (absent : a ∉ line)
    (cut : cut? (a :: text) s = some (front, rest)) :
    cut? (a :: text) (line ++ s) = some (line ++ front, rest) := by
  induction line with
  | nil => exact cut
  | cons b line ih =>
    have ne := List.ne_of_not_mem_cons absent
    have absent := List.not_mem_of_not_mem_cons absent
    have miss : strip? (a :: text) (b :: (line ++ s)) = none := by simp [strip?, ne]
    exact cut?_cons miss (ih absent)

/-! ## lines -/

theorem lines_cons {b : UInt8} {s line : Bytes} {more : List Bytes} (ne : b ≠ cr)
    (h : lines s = line :: more) : lines (b :: s) = (b :: line) :: more := by
  cases s with
  | nil =>
    cases h
    rfl
  | cons c s =>
    rw [lines, if_neg fun e => ne e.1, h]

theorem lines_append {line s front : Bytes} {more : List Bytes} (absent : cr ∉ line)
    (h : lines s = front :: more) : lines (line ++ s) = (line ++ front) :: more := by
  induction line with
  | nil => exact h
  | cons b line ih =>
    have ne := List.ne_of_not_mem_cons absent
    have absent := List.not_mem_of_not_mem_cons absent
    exact lines_cons (Ne.symm ne) (ih absent)

/-- lines, with a line end between each two of them -/
def joinLines (line : Bytes) (more : List Bytes) : Bytes := line ++ more.flatMap (crlf ++ ·)

theorem joinLines_cons (line next : Bytes) (more : List Bytes) :
    joinLines line (next :: more) = line ++ (crlf ++ joinLines next more) := by
  rw [joinLines, List.flatMap_cons, List.append_assoc]
  rfl

theorem joinLines_crlf (line : Bytes) (more : List Bytes) :
    joinLines line more ++ crlf = line ++ crlf ++ more.flatMap (· ++ crlf) := by
  induction more generalizing line with
  | nil => simp [joinLines]
  | cons next more ih =>
    rw [joinLines_cons, List.append_assoc, List.append_assoc crlf, ih]
    simp

theorem lines_joinLines {line : Bytes} {more : List Bytes} (absent : ∀ l ∈ line :: more, cr ∉ l) :
    lines (joinLines line more) = line :: more := by
  induction more generalizing line with
  | nil =>
    have h := lines_append (s := []) (absent line List.mem_cons_self) rfl
    simpa [joinLines] using h
  | cons next more ih =>
    have rest := ih fun l hl => absent l (List.mem_cons_of_mem line hl)
    have split : lines (crlf ++ joinLines next more) = [] :: next :: more := by
      show lines (cr :: lf :: joinLines next more) = _
      rw [lines, if_pos ⟨rfl, rfl⟩, rest]
    rw [joinLines_cons, lines_append (absent line List.mem_cons_self) split, List.append_nil]

/-- the first empty line is the one behind the last line, if no other one is empty -/
theorem cut?_joinLines {line : Bytes} {more : List Bytes} (absent : ∀ l ∈ line :: more, cr ∉ l)
    (ne : ∀ l ∈ more, l ≠ []) (rest : Bytes) :
    cut? (crlf ++ crlf) (joinLines line more ++ ((crlf ++ crlf) ++ rest))
      = some (joinLines line more, rest) := by
  induction more generalizing line with
  | nil =>
    have end_ : cut? (crlf ++ crlf) (line ++ ((crlf ++ crlf) ++ rest)) = some (line ++ [], rest) :=
      cut?_append (absent line List.mem_cons_self) (cut?_self (crlf ++ crlf) rest)
    simpa [joinLines] using end_
  | cons next more ih =>
    have later := ih (fun l hl => absent l (List.mem_cons_of_mem line hl))
      fun l hl => ne l (List.mem_cons_of_mem next hl)
    -- the line end in front of `next` is not followed by another one
    obtain ⟨b, next', cons⟩ := List.exists_cons_of_ne_nil (ne next List.mem_cons_self)
    have first : cr ≠ b := by
      rintro rfl
      have mem : cr ∈ next := by rw [cons]; exact List.mem_cons_self
      exact absent next (List.mem_cons_of_mem line List.mem_cons_self) mem
    have miss (s : Bytes) : strip? (crlf ++ crlf) (cr :: lf :: (joinLines next more ++ s)) = none := by
      simp [joinLines, cons, crlf, strip?, first]
    have miss' (s : Bytes) : strip? (crlf ++ crlf) (lf :: s) = none := by
      simp [crlf, strip?, cr, lf]
    have cut := cut?_cons (miss _) (cut?_cons (miss' _) later)
    rw [joinLines_cons, List.append_assoc]
    exact cut?_append (absent line List.mem_cons_self) cut

end Bytes

/-! ## heads -/

namespace Status

theorem oneLine_registry : ∀ e ∈ registry, Bytes.OneLine (Bytes.ofAscii e.2) := by decide +kernel

theorem oneLine_reason (s : Status) : Bytes.OneLine s.reason := by
  unfold reason
  cases h : registry.lookup s.code with
  | none => decide
  | some text =>
    obtain ⟨before, after, e, -⟩ := List.lookup_eq_some_iff.mp h
    refine oneLine_registry (s.code, text) ?_
    rw [e]
    exact List.mem_append_right _ List.mem_cons_self

end Status

/-- a status line without its end -/
def statusText (version : Version) (status : Status) : Bytes :=
  Bytes.ofAscii version.text ++ Bytes.space :: Bytes.decimal status.code
    ++ Bytes.space :: status.reason

theorem oneLine_statusText (version : Version) (status : Status) :
    Bytes.OneLine (statusText version status) := by
  have text : Bytes.OneLine (Bytes.ofAscii version.text) := by cases version <;> decide
  have code := (Bytes.oneLine_decimal status.code).cons (b := Bytes.space) (by decide) (by decide)
  have reason := (Status.oneLine_reason status).cons (b := Bytes.space) (by decide) (by decide)
  exact (text.append code).append reason

/-- the field can be told apart from what stands around it -/
structure Field.Clean (f : Field) : Prop where
  name : Bytes.OneLine f.name
  colon : Bytes.colon ∉ f.name
  value : Bytes.OneLine f.value

/-- a header line without its end -/
def Field.line (f : Field) : Bytes := f.name ++ Bytes.colon :: Bytes.space :: f.value

theorem Field.clean_of_name {name value : Bytes} (h : Bytes.OneLine name ∧ Bytes.colon ∉ name)
    (oneLine : Bytes.OneLine value) : Clean ⟨name, value⟩ := ⟨h.1, h.2, oneLine⟩

theorem Field.Clean.oneLine {f : Field} (h : f.Clean) : Bytes.OneLine f.line :=
  h.name.append ((h.value.cons (by decide) (by decide)).cons (by decide) (by decide))

theorem Field.line_ne_nil (f : Field) : f.line ≠ [] := by simp [line]

theorem Reply.Seen.readField?_line {f : Field} (h : f.Clean) : readField? f.line = some f := by
  have cut := Bytes.cut?_append h.colon (Bytes.cut?_self [Bytes.colon, Bytes.space] f.value)
  rw [List.append_nil] at cut
  unfold readField?
  rw [show f.line = f.name ++ ([Bytes.colon, Bytes.space] ++ f.value) from rfl, cut]
  rfl

namespace Headers

def Clean (h : Headers) : Prop := ∀ f ∈ h.fields, f.Clean

theorem forall_setFields {P : Field → Prop} {name value : Bytes} (new : P ⟨name, value⟩)
    (replaced : ∀ f, P f → P ⟨f.name, value⟩) {fields : List Field} (h : ∀ f ∈ fields, P f) :
    ∀ f ∈ setFields name value fields, P f := by
  induction fields with
  | nil => simpa [setFields] using new
  | cons g fields ih =>
    obtain ⟨first, others⟩ := List.forall_mem_cons.mp h
    unfold setFields
    split
    · refine List.forall_mem_cons.mpr ⟨replaced g first, fun f hf => ?_⟩
      exact others f (List.mem_filter.mp hf).1
    · exact List.forall_mem_cons.mpr ⟨first, ih others⟩

theorem clean_setFields {name value : Bytes} (new : Field.Clean ⟨name, value⟩) {fields : List Field}
    (h : ∀ f ∈ fields, f.Clean) : ∀ f ∈ setFields name value fields, f.Clean :=
  forall_setFields new (fun _ old => ⟨old.name, old.colon, new.value⟩) h

theorem Clean.set {h : Headers} (clean : h.Clean) {name value : Bytes}
    (new : Field.Clean ⟨name, value⟩) : (h.set name value).Clean := clean_setFields new clean

end Headers

/-! ## replies -/

namespace Reply

/-- the status line is the one of the reply's own status and version -/
def Settled (r : Reply) : Prop := r.statusLine = renderStatusLine r.version r.status

theorem Settled.edit {r : Reply} (h : r.Settled) (change : Edit) : (r.edit change).Settled := by
  cases change with
  | headers | contentType | body => exact h
  | ofStatus | ofReason | status | version | freeze => rfl

theorem settled_edits (status : Status) (changes : List Edit) :
    ((ofStatus status).edits changes).Settled := by
  have step (r : Reply) (h : r.Settled) : (r.edits changes).Settled := by
    induction changes generalizing r with
    | nil => exact h
    | cons change changes ih => exact ih (r.edit change) (h.edit change)
  exact step _ rfl

theorem settled_finish (r : Reply) (request : Request) : (r.finish request).Settled := rfl

theorem clean_finish {r : Reply} (h : r.headers.Clean) (request : Request) :
    (r.finish request).headers.Clean := by
  show (((KeepAlive.evaluate request.version request.headers).apply r).headers).Clean
  unfold KeepAlive.apply
  split
  · exact h.set (Field.clean_of_name (by decide) (by decide))
  · exact h

theorem clean_stamp {r : Reply} (h : r.headers.Clean) {serverName date : Bytes}
    (server : Bytes.OneLine serverName) (clock : Bytes.OneLine date) :
    (r.stamp serverName date).headers.Clean := by
  have length := Bytes.oneLine_decimal r.body.length
  refine ((h.set ?_).set ?_).set ?_
  · exact Field.clean_of_name (by decide) server
  · exact Field.clean_of_name (by decide) clock
  · exact Field.clean_of_name (by decide) length

theorem encode_eq_joinLines {r : Reply} (settled : r.Settled) (s : Bytes) :
    r.encode ++ s = Bytes.joinLines (statusText r.version r.status) (r.headers.fields.map Field.line)
      ++ ((Bytes.crlf ++ Bytes.crlf) ++ (r.body ++ s)) := by
  have fields : (r.headers.fields.map Field.line).flatMap (· ++ Bytes.crlf)
      = r.headers.fields.flatMap encodeField := by
    rw [List.flatMap_map]
    rfl
  have head := Bytes.joinLines_crlf (statusText r.version r.status)
    (r.headers.fields.map Field.line)
  rw [fields] at head
  have line : r.statusLine = statusText r.version r.status ++ Bytes.crlf := settled
  rw [encode, line, ← head]
  simp

namespace Seen

/-- whatever lengths the handler has given, the one that is announced is that of the body -/
theorem contentLength?_stamp (r : Reply) (serverName date : Bytes) :
    contentLength? (r.stamp serverName date).headers = some r.body.length := by
  unfold contentLength?
  rw [Headers.get?_eq_head?_values]
  show ((Headers.values (Headers.set _ _ _) _).head?).bind _ = _
  rw [Headers.values_set_self]
  exact Bytes.ofDecimal?_decimal _

theorem mapM_readField? {fields : List Field} (h : ∀ f ∈ fields, f.Clean) :
    (fields.map Field.line).mapM readField? = some fields := by
  induction fields with
  | nil => rfl
  | cons f fields ih =>
    obtain ⟨first, others⟩ := List.forall_mem_cons.mp h
    rw [List.map_cons, List.mapM_cons, readField?_line first, ih others]
    rfl

end Seen

/-- a client can tell where the parts of the reply end, and where the reply does -/
structure Announced (r : Reply) : Prop where
  settled : r.Settled
  clean : r.headers.Clean
  length : Seen.contentLength? r.headers = some r.body.length

theorem announced_stamp {r : Reply} (settled : r.Settled) (clean : r.headers.Clean)
    {serverName date : Bytes} (server : Bytes.OneLine serverName) (clock : Bytes.OneLine date) :
    (r.stamp serverName date).Announced :=
  ⟨settled, clean_stamp clean server clock, Seen.contentLength?_stamp r serverName date⟩

namespace Seen

/-- a reply that announces the length of its body is read back, whatever follows it -/
theorem read?_encode {r : Reply} (h : r.Announced) (s : Bytes) :
    read? (r.encode ++ s) = some (r.seen, s) := by
  obtain ⟨settled, clean, length⟩ := h
  have lines : ∀ l ∈ statusText r.version r.status :: r.headers.fields.map Field.line,
      Bytes.cr ∉ l := by
    refine List.forall_mem_cons.mpr ⟨(oneLine_statusText r.version r.status).1, ?_⟩
    exact List.forall_mem_map.mpr fun f hf => (clean f hf).oneLine.1
  have ne : ∀ l ∈ r.headers.fields.map Field.line, l ≠ [] :=
    List.forall_mem_map.mpr fun f _ => f.line_ne_nil
  have head : readHead? (Bytes.joinLines (statusText r.version r.status)
      (r.headers.fields.map Field.line)) = some (r.statusLine, r.headers) := by
    unfold readHead?
    rw [Bytes.lines_joinLines lines]
    simp only [mapM_readField? clean]
    rw [settled]
    rfl
  unfold read?
  rw [encode_eq_joinLines settled, Bytes.cut?_joinLines lines ne]
  simp [head, length, seen]

theorem readAll?_of_read? {s rest : Bytes} {seen : Seen} (h : read? s = some (seen, rest)) :
    readAll? s = (readAll? rest).map (seen :: ·) := by
  have ne : s ≠ [] := List.ne_nil_of_length_pos (Nat.zero_lt_of_lt (read?_length h))
  rw [readAll?, if_neg ne]
  split
  · rename_i none
    rw [h] at none
    cases none
  · rename_i seen' rest' some
    rw [h] at some
    cases some
    rfl

/-- and so are all replies of a stream -/
theorem readAll?_flatMap_encode {rs : List Reply} (h : ∀ r ∈ rs, r.Announced) :
    readAll? (rs.flatMap encode) = some (rs.map seen) := by
  induction rs with
  | nil =>
    rw [List.flatMap_nil, readAll?, if_pos rfl]
    rfl
  | cons r rs ih =>
    obtain ⟨first, others⟩ := List.forall_mem_cons.mp h
    have front := read?_encode first (rs.flatMap encode)
    rw [List.flatMap_cons, readAll?_of_read? front, ih others]
    rfl

end Seen

/-- **The stream of replies is self-delimiting.**  Whatever replies are written one behind the other,
with any octets in their bodies and any length that the handler has announced, a client reads back
the same status lines, headers and bodies, and nothing is left over.  All that is asked of the
headers is that no name has a colon or a part of a line end in it, and no value a part of a line
end; the status line of a reply is settled however the reply has been made. -/
theorem readAll?_encode {rs : List Reply} {serverName date : Bytes}
    (settled : ∀ r ∈ rs, r.Settled) (clean : ∀ r ∈ rs, r.headers.Clean)
    (server : Bytes.OneLine serverName) (clock : Bytes.OneLine date) :
    Seen.readAll? (rs.flatMap fun r => (r.stamp serverName date).encode)
      = some (rs.map fun r => (r.stamp serverName date).seen) := by
  have announced : ∀ r ∈ rs.map (stamp · serverName date), r.Announced :=
    List.forall_mem_map.mpr fun r hr => announced_stamp (settled r hr) (clean r hr) server clock
  have read := Seen.readAll?_flatMap_encode announced
  rw [List.flatMap_map, List.map_map] at read
  exact read

/-- a body that looks like the rest of a head and another reply, under lengths that are wrong -/
theorem readAll?_encode_false_head :
    let lengths : List Field := [⟨Bytes.ofAscii "content-LENGTH", Bytes.ofAscii "7"⟩,
      ⟨Bytes.ofAscii "A", Bytes.ofAscii "b: c"⟩, ⟨FieldName.contentLength, []⟩]
    let r := (ofStatus .notFound).edits ([.version .http10, .freeze,
      .body (Bytes.ofAscii "\r\n\r\nHTTP/1.1 200 OK\r\n\r\n")]
        ++ lengths.map fun f => .headers (.append f.name f.value))
    Seen.readAll? ([r, .ok].flatMap fun r =>
        (r.stamp (Bytes.ofAscii "s") (Bytes.ofAscii "d")).encode)
      = some [⟨Bytes.ofAscii "HTTP/1.0 404 Not Found\r\n", ⟨[
            ⟨Bytes.ofAscii "content-LENGTH", Bytes.ofAscii "23"⟩,
            ⟨Bytes.ofAscii "A", Bytes.ofAscii "b: c"⟩,
            ⟨FieldName.server, Bytes.ofAscii "s"⟩, ⟨FieldName.date, Bytes.ofAscii "d"⟩]⟩,
          Bytes.ofAscii "\r\n\r\nHTTP/1.1 200 OK\r\n\r\n"⟩,
        ⟨Bytes.ofAscii "HTTP/1.1 200 OK\r\n", ⟨[
            ⟨FieldName.server, Bytes.ofAscii "s"⟩, ⟨FieldName.date, Bytes.ofAscii "d"⟩,
            ⟨FieldName.contentLength, Bytes.ofAscii "0"⟩]⟩, []⟩] := by
  intro lengths r
  have settled : ∀ q ∈ [r, .ok], q.Settled := by
    intro q hq
    simp only [List.mem_cons, List.not_mem_nil, or_false] at hq
    rcases hq with rfl | rfl
    · exact settled_edits _ _
    · rfl
  have clean : ∀ q ∈ [r, .ok], q.headers.Clean := by
    intro q hq
    simp only [List.mem_cons, List.not_mem_nil, or_false] at hq
    rcases hq with rfl | rfl
    · intro f hf
      have mem : f ∈ lengths := hf
      simp only [lengths, List.mem_cons, List.not_mem_nil, or_false] at mem
      rcases mem with rfl | rfl | rfl <;> exact ⟨by decide, by decide, by decide⟩
    · exact nofun
  rw [readAll?_encode settled clean (by decide) (by decide)]
  decide +kernel

/-- the replies of a handler to any requests are read back, whatever the handler has made them of -/
theorem readAll?_finish {answered : List (Request × Reply)} {serverName date : Bytes}
    (clean : ∀ a ∈ answered, a.2.headers.Clean)
    (server : Bytes.OneLine serverName) (clock : Bytes.OneLine date) :
    Seen.readAll? (answered.flatMap fun a => ((a.2.finish a.1).stamp serverName date).encode)
      = some (answered.map fun a => ((a.2.finish a.1).stamp serverName date).seen) := by
  have announced : ∀ r ∈ answered.map fun a => (a.2.finish a.1).stamp serverName date,
      r.Announced := by
    refine List.forall_mem_map.mpr fun a ha => ?_
    exact announced_stamp (settled_finish a.2 a.1) (clean_finish (clean a ha) a.1) server clock
  have read := Seen.readAll?_flatMap_encode announced
  rw [List.flatMap_map, List.map_map] at read
  exact read

end Reply

end PipelinedHttp
