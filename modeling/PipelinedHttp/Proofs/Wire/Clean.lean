import PipelinedHttp.Proofs.Reply.ReadBack
import PipelinedHttp.Proofs.Wire.Limits

/-!
# Clean requests

Whatever octets come in, the requests that are given out are clean: names are tokens, values have no
controls but tabs, and there is one field for each field line of the head.  So what a handler copies
from a request into the headers of its reply cannot split that reply.

* `Spelling.octets_eq_rows`, `Spelling.oneLine_rows`   the lines of a head;
* `Whole.decoded`        a request has the fields of its field lines;
* `Reply.unsplit`        a reply whose headers have no line ends in them is not split;
* `clean_requests`       so no reply is that is made of what requests say.
-/

namespace PipelinedHttp

namespace Wire

/-! ## the lines of a head -/

/-- a text and the end of its line -/
structure Row where
  text : Bytes
  ending : LineEnd

def Row.octets (r : Row) : Bytes := r.text ++ r.ending.octets

def FieldLine.row (l : FieldLine) : Row :=
  ⟨l.field.name ++ Bytes.colon :: (l.before ++ (l.field.value ++ l.after)), l.ending⟩

namespace Spelling

def requestRow (l : Spelling) : Row :=
  ⟨l.head.method ++ Bytes.space :: (l.head.target ++ Bytes.space ::
    (Bytes.ofAscii "HTTP/1." ++ Bytes.decimal l.head.minor)), l.ending⟩

/-- the empty lines in front, the request line, the field lines and the empty line behind them -/
def rows (l : Spelling) : List Row :=
  l.leading.map (⟨[], ·⟩) ++ l.requestRow :: (l.lines.map FieldLine.row ++ [⟨[], l.last⟩])

theorem octets_eq_rows (l : Spelling) : l.octets = l.rows.flatMap Row.octets := by
  have field : Row.octets ∘ FieldLine.row = FieldLine.octets := by
    funext line
    simp [Row.octets, FieldLine.row, FieldLine.octets]
  have request : l.requestRow.octets = l.requestLine := by
    simp [Row.octets, requestRow, requestLine]
  unfold rows octets
  rw [List.flatMap_append, List.flatMap_cons, List.flatMap_append, List.flatMap_map,
    List.flatMap_map, request, List.flatMap_singleton]
  show _ = _ ++ (_ ++ (l.lines.flatMap (Row.octets ∘ FieldLine.row) ++ l.last.octets))
  rw [field]
  rfl

end Spelling

/-- a control of ASCII -/
def isControl (b : UInt8) : Bool := b < 0x20 || b == 0x7F

theorem eq_tab_of_isControl {b : UInt8} :
    isValue b = true → isControl b = true → b = Bytes.tab :=
  forall_octet (P := fun b => isValue b = true → isControl b = true → b = Bytes.tab)
    (by decide +kernel) b

/-- octets of a class without line ends make up a part of a line -/
theorem oneLine_of_class {p : UInt8 → Bool} (cr : p Bytes.cr = false) (lf : p Bytes.lf = false)
    {s : Bytes} (h : ∀ b ∈ s, p b = true) : Bytes.OneLine s := by
  constructor
  · intro mem
    cases cr.symm.trans (h _ mem)
  · intro mem
    cases lf.symm.trans (h _ mem)

theorem oneLine_token {s : Bytes} (h : ∀ b ∈ s, isToken b = true) : Bytes.OneLine s :=
  oneLine_of_class (by decide) (by decide) h

theorem oneLine_value {s : Bytes} (h : ∀ b ∈ s, isValue b = true) : Bytes.OneLine s :=
  oneLine_of_class (by decide) (by decide) h

theorem FieldLine.oneLine_row (l : FieldLine) (plain : l.field.Plain) :
    Bytes.OneLine l.row.text := by
  have name := oneLine_token plain.name_token
  have value := oneLine_value plain.value
  have before : Bytes.OneLine l.before := oneLine_of_class rfl rfl l.before_blank
  have after : Bytes.OneLine l.after := oneLine_of_class rfl rfl l.after_blank
  exact name.append ((before.append (value.append after)).cons (by decide) (by decide))

namespace Spelling
variable (l : Spelling)

theorem oneLine_requestRow : Bytes.OneLine l.requestRow.text := by
  have method := oneLine_token l.plain.method_token
  have target : Bytes.OneLine l.head.target :=
    oneLine_of_class (by decide) (by decide) l.plain.target_octet
  have text : Bytes.OneLine (Bytes.ofAscii "HTTP/1.") := by decide
  have version := text.append (Bytes.oneLine_decimal l.head.minor)
  have back := target.append (version.cons (b := Bytes.space) (by decide) (by decide))
  exact method.append (back.cons (by decide) (by decide))

theorem oneLine_rows : ∀ row ∈ l.rows, Bytes.OneLine row.text := by
  have empty : Bytes.OneLine [] := by decide
  intro row mem
  rcases List.mem_append.mp mem with leading | mem
  · obtain ⟨e, -, rfl⟩ := List.mem_map.mp leading
    exact empty
  · rcases List.mem_cons.mp mem with rfl | mem
    · exact l.oneLine_requestRow
    · rcases List.mem_append.mp mem with field | last
      · obtain ⟨line, hl, rfl⟩ := List.mem_map.mp field
        exact line.oneLine_row (l.plain_line line hl)
      · cases List.mem_singleton.mp last
        exact empty

end Spelling

/-! ## what is given out -/

/-- a request as it has been read from a head: one field for each field line -/
structure Decoded (r : Request) (l : Spelling) : Prop where
  version : r.version = .http10 ∨ r.version = .http11
  method_ne_nil : r.method.name ≠ []
  method_token : ∀ b ∈ r.method.name, isToken b = true
  plain : ∀ f ∈ r.headers.fields, f.Plain
  control : ∀ f ∈ r.headers.fields, ∀ b ∈ f.value, isControl b = true → b = Bytes.tab
  fields : r.headers.fields = l.lines.map FieldLine.field
  rows : l.octets = l.rows.flatMap Row.octets
  oneLine : ∀ row ∈ l.rows, Bytes.OneLine row.text

theorem Whole.decoded (w : Whole) : ∃ l : Spelling, l.octets = w.opening ∧ Decoded w.request l := by
  obtain ⟨l, octets, same⟩ := w.exists_spelling
  have plain := w.plain
  obtain ⟨version, name, headers, -⟩ := plain.toRequest_ok w.target
  obtain ⟨version', method', headers'⟩ := w.request_said
  have fields : w.request.headers.fields = w.head.fields := by rw [headers', headers]
  refine ⟨l, octets, by rw [version']; exact version, ?_, ?_, ?_, ?_, ?_, l.octets_eq_rows,
    l.oneLine_rows⟩
  · rw [method', name]
    exact plain.method_ne_nil
  · rw [method', name]
    exact plain.method_token
  · rw [fields]
    exact plain.field
  · rw [fields]
    intro f hf b hb
    exact eq_tab_of_isControl ((plain.field f hf).value b hb)
  · rw [fields, l.fields, same]

end Wire

/-! ## replies that are not split -/

namespace Headers

/-- there are no line ends in the headers -/
def Tame (h : Headers) : Prop := ∀ f ∈ h.fields, Bytes.OneLine f.name ∧ Bytes.OneLine f.value

theorem Tame.set {h : Headers} (tame : h.Tame) {name value : Bytes} (oneLine : Bytes.OneLine name)
    (oneLine' : Bytes.OneLine value) : (h.set name value).Tame :=
  forall_setFields ⟨oneLine, oneLine'⟩ (fun _ old => ⟨old.1, oneLine'⟩) tame

end Headers

namespace Reply

/-- whatever follows the reply, its head ends where it is to end, and has its status line and one line for
each field, none of which has a part of a line end in it -/
def Unsplit (r : Reply) : Prop :=
  ∀ s, ∃ text, Bytes.cut? (Bytes.crlf ++ Bytes.crlf) (r.encode ++ s) = some (text, r.body ++ s)
    ∧ Bytes.lines text = statusText r.version r.status :: r.headers.fields.map Field.line
    ∧ ∀ line ∈ Bytes.lines text, Bytes.OneLine line

theorem unsplit {r : Reply} (settled : r.Settled) (tame : r.headers.Tame) : r.Unsplit := by
  intro s
  have oneLine : ∀ l ∈ statusText r.version r.status :: r.headers.fields.map Field.line,
      Bytes.OneLine l := by
    refine List.forall_mem_cons.mpr ⟨oneLine_statusText r.version r.status, ?_⟩
    refine List.forall_mem_map.mpr fun f hf => ?_
    obtain ⟨name, value⟩ := tame f hf
    have back := value.cons (b := Bytes.space) (by decide) (by decide)
    exact name.append (back.cons (by decide) (by decide))
  have absent : ∀ l ∈ statusText r.version r.status :: r.headers.fields.map Field.line,
      Bytes.cr ∉ l := fun l hl => (oneLine l hl).1
  have ne : ∀ l ∈ r.headers.fields.map Field.line, l ≠ [] :=
    List.forall_mem_map.mpr fun f _ => f.line_ne_nil
  refine ⟨Bytes.joinLines (statusText r.version r.status) (r.headers.fields.map Field.line),
    ?_, Bytes.lines_joinLines absent, ?_⟩
  · rw [encode_eq_joinLines settled]
    exact Bytes.cut?_joinLines absent ne _
  · rw [Bytes.lines_joinLines absent]
    exact oneLine

theorem tame_finish {r : Reply} (h : r.headers.Tame) (request : Request) :
    (r.finish request).headers.Tame := by
  show ((KeepAlive.evaluate request.version request.headers).apply r).headers.Tame
  unfold KeepAlive.apply
  split
  · exact h.set (by decide) (by decide)
  · exact h

theorem tame_stamp {r : Reply} (h : r.headers.Tame) {serverName date : Bytes}
    (server : Bytes.OneLine serverName) (clock : Bytes.OneLine date) :
    (r.stamp serverName date).headers.Tame := by
  have length := Bytes.oneLine_decimal r.body.length
  exact ((h.set (by decide) server).set (by decide) clock).set (by decide) length

end Reply

namespace Wire

/-- the text has no line end in it, or it is copied: it is the name or the value of a field of a request -/
def OwnOrCopied (rs : List Request) (text : Bytes) : Prop :=
  Bytes.OneLine text ∨ ∃ r ∈ rs, ∃ f ∈ r.headers.fields, text = f.name ∨ text = f.value

/-- the headers are made of what the requests say, and of texts without line ends -/
def Echoes (rs : List Request) (h : Headers) : Prop :=
  ∀ f ∈ h.fields, OwnOrCopied rs f.name ∧ OwnOrCopied rs f.value

theorem oneLine_of_copied {rs : List Request} (plain : ∀ r ∈ rs, ∀ f ∈ r.headers.fields, f.Plain)
    {text : Bytes} (h : OwnOrCopied rs text) : Bytes.OneLine text := by
  rcases h with own | ⟨r, hr, f, hf, rfl | rfl⟩
  · exact own
  · exact oneLine_token (plain r hr f hf).name_token
  · exact oneLine_value (plain r hr f hf).value

theorem Echoes.tame {rs : List Request} (plain : ∀ r ∈ rs, ∀ f ∈ r.headers.fields, f.Plain)
    {h : Headers} (echoes : Echoes rs h) : h.Tame := by
  intro f hf
  obtain ⟨name, value⟩ := echoes f hf
  exact ⟨oneLine_of_copied plain name, oneLine_of_copied plain value⟩

namespace Session
variable {s : Session} {maxBody : Nat} {cuts : List Cut} {opening : Bytes}

/-- each request that has been given out stands somewhere in what has been taken off -/
theorem Parted.decoded (h : s.Parted maxBody cuts opening) {r : Request} (given : r ∈ s.requests) :
    ∃ (front : Bytes) (l : Spelling) (back : Bytes), s.taken = front ++ (l.octets ++ back)
      ∧ Decoded r l := by
  rw [h.requests] at given
  obtain ⟨c, mem, request⟩ := List.mem_filterMap.mp given
  cases c with
  | refused g => cases request
  | whole w =>
    cases request
    obtain ⟨before, after, rfl⟩ := List.append_of_mem mem
    obtain ⟨l, octets, decoded⟩ := w.decoded
    refine ⟨before.flatMap Cut.octets, l, w.body ++ (after.flatMap Cut.octets ++ opening), ?_, decoded⟩
    rw [h.taken, octets]
    simp [Cut.octets, Whole.octets]

end Session

/-- **Clean requests.**  Whatever is fed and however often the decoder is turned, each request that is
given out has been read from a head in what has been taken off, one field for each field line, and is
clean.  So a reply whose headers are made of what these requests say is not split, neither as it is nor
as it is written. -/
theorem clean_requests (maxBody : Nat) (uses : List Use) :
    let s := (Session.ofMaxBody maxBody).run uses
    (∀ r ∈ s.requests, ∃ (front : Bytes) (l : Spelling) (back : Bytes),
        s.taken = front ++ (l.octets ++ back) ∧ Decoded r l)
      ∧ ∀ reply : Reply, Echoes s.requests reply.headers →
          (reply.Settled → reply.Unsplit)
            ∧ ∀ (request : Request) (serverName date : Bytes), Bytes.OneLine serverName →
                Bytes.OneLine date → ((reply.finish request).stamp serverName date).Unsplit := by
  intro s
  obtain ⟨cuts, opening, parted⟩ := Session.parted_run maxBody uses
  have decoded {r : Request} (given : r ∈ s.requests) := parted.decoded given
  have plain : ∀ r ∈ s.requests, ∀ f ∈ r.headers.fields, f.Plain := by
    intro r given
    obtain ⟨_, _, _, _, clean⟩ := decoded given
    exact clean.plain
  refine ⟨fun r given => decoded given, fun reply echoes => ⟨?_, ?_⟩⟩
  · intro settled
    exact Reply.unsplit settled (echoes.tame plain)
  · intro request serverName date server clock
    have tame := Reply.tame_stamp (Reply.tame_finish (echoes.tame plain) request) server clock
    exact Reply.unsplit (Reply.settled_finish reply request) tame

/-- blanks around a value, a line that ends early and an empty value; the handler sends the first field
back -/
theorem clean_requests_echoed :
    let uses : List Use := [.feed (Bytes.ofAscii "\r\nGET /a HTTP/1.0\nA:\t x y \r"), .turn,
      .feed (Bytes.ofAscii "\nB:\n\nGET"), .turn]
    let s := (Session.ofMaxBody 0).run uses
    let a : Field := ⟨Bytes.ofAscii "A", Bytes.ofAscii "x y"⟩
    let r : Request := { Request.ofTarget .get ⟨none, none, Bytes.ofAscii "/a", none⟩ .http10 with
      headers := ⟨[a, ⟨Bytes.ofAscii "B", []⟩]⟩ }
    s.requests = [r]
      ∧ (((Reply.ok.appendHeader a.name a.value).finish r).stamp (Bytes.ofAscii "s")
        (Bytes.ofAscii "d")).Unsplit := by
  intro uses s a r
  have requests : s.requests = [r] := by decide +kernel
  have given : r ∈ s.requests := by
    rw [requests]
    exact List.mem_cons_self
  have copied {text : Bytes} (h : text = a.name ∨ text = a.value) : OwnOrCopied s.requests text :=
    .inr ⟨r, given, a, List.mem_cons_self, h⟩
  have echoes : Echoes s.requests (Reply.ok.appendHeader a.name a.value).headers := by
    intro f hf
    cases List.mem_singleton.mp (show f ∈ [a] from hf)
    exact ⟨copied (.inl rfl), copied (.inr rfl)⟩
  have unsplit := ((clean_requests 0 uses).2 _ echoes).2 r
  exact ⟨requests, unsplit (Bytes.ofAscii "s") (Bytes.ofAscii "d") (by decide) (by decide)⟩

end Wire

end PipelinedHttp
