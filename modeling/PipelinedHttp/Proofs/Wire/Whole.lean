import PipelinedHttp.Proofs.Wire.Stream

/-!
# Whole requests, and requests that are cut off

A `Heading` is a head on the wire, in any spelling that can be read, and a `Whole` is a request: such a
head, and a body of the length that it announces.  It may still be too large for a decoder
(`Whole.Fits`).

* `Heading.decode_append`   one turn takes the head off, and then goes by what it says of the body;
* `Heading.decode_of_refused`   if it says nothing sound, the turn fails;
* `Whole.decode_append`   a request that fits takes one turn, whatever follows it;
* `Intake.drain_wholes`   so any number of them are read, and then what stands behind them;
* `Whole.decode_cut`      a turn on the front of a request gives nothing out: it fails, or it wants
                          more octets.  It keeps all of the front, but for a head that it has
                          complete;
* `Whole.faulty_cut`, `Whole.finish_cut`   so a stream that ends within a request is faulty, unless
                          it ends right behind the head: then nothing is left in the buffer.
-/

namespace PipelinedHttp.Wire

/-- the octets of a head that can be read -/
structure Heading where
  opening : Bytes
  head : Head
  read : Wire.head opening = .done head []

/-- the octets of one request: those of its head, and a body of the length that the head announces -/
structure Whole extends Heading where
  body : Bytes
  /-- what the head says -/
  said : Request
  target : head.toRequest = .ok said
  length : bodyLength said.headers = .ok body.length

/-! ## heads -/

theorem bare_of_toRequest {h : Head} {r : Request} (target : h.toRequest = .ok r) :
    r.headers = ⟨h.fields⟩ ∧ r.body = none := by
  unfold Head.toRequest at target
  split at target
  · cases target
  · split at target
    · cases target
    · split at target <;> cases target
      exact ⟨rfl, rfl⟩

theorem headers_of_toRequest {h : Head} {r : Request} (target : h.toRequest = .ok r) :
    r.headers = ⟨h.fields⟩ := (bare_of_toRequest target).1

namespace Heading
variable {g : Heading} {front back : Bytes}

theorem head_append (g : Heading) (s : Bytes) : Wire.head (g.opening ++ s) = .done g.head s := by
  rw [steady_head.stable (by rw [g.read]; exact nofun), g.read]
  rfl

theorem minHead_le (g : Heading) : minHead ≤ g.opening.length := by
  have least := takes_head.le g.read
  simp only [List.length_nil, Nat.zero_add] at least
  exact least

theorem readHead_append (g : Heading) (s : Bytes) :
    readHead (g.opening ++ s) = cutHead (g.opening ++ s) g.head g.opening.length s := by
  have least := g.minHead_le
  have long : minHead ≤ (g.opening ++ s).length := by
    rw [List.length_append]
    omega
  rw [readHead_of_long long, scanHead_of_done (g.head_append s), List.length_append,
    Nat.add_sub_cancel]

theorem head_of_cut (cut : g.opening = front ++ back) (unfinished : back ≠ []) :
    Wire.head front = .short := by
  have whole := g.read
  rw [cut] at whole
  cases e : Wire.head front with
  | short => rfl
  | bad flaw =>
    rw [steady_head.stable (by rw [e]; exact nofun), e] at whole
    cases whole
  | done h rest =>
    rw [steady_head.stable (by rw [e]; exact nofun), e] at whole
    have none := (Scan.done.inj whole).2
    exact absurd (List.append_eq_nil_iff.mp none).2 unfinished

theorem decode_append (small : g.opening.length ≤ maxHead) {r : Request}
    (target : g.head.toRequest = .ok r) (d : Decoder) (idle : d.pending = none) (s : Bytes) :
    d.decode (g.opening ++ s) = match bodyLength r.headers with
      | .error e => ⟨.failed e, d, s⟩
      | .ok n => d.afterHead r n s := by
  have head := g.readHead_append s
  unfold cutHead at head
  rw [if_neg (Nat.not_lt.mpr small), target] at head
  dsimp only at head
  cases length : bodyLength r.headers with
  | error e =>
    rw [length] at head
    exact Decoder.decode_of_failed idle head
  | ok n =>
    rw [length] at head
    exact Decoder.decode_of_done idle head

theorem decode_of_large (long : maxHead < g.opening.length) (d : Decoder) (idle : d.pending = none)
    (s : Bytes) : ∃ e, (d.decode (g.opening ++ s)).outcome = .failed e := by
  have head := g.readHead_append s
  unfold cutHead at head
  rw [if_pos long] at head
  exact ⟨_, by rw [Decoder.decode_of_failed idle head]⟩

theorem decode_of_refused (refused : ∀ n, bodyLength ⟨g.head.fields⟩ ≠ .ok n) (d : Decoder)
    (idle : d.pending = none) (s : Bytes) :
    ∃ e, (d.decode (g.opening ++ s)).outcome = .failed e := by
  by_cases small : g.opening.length ≤ maxHead
  · cases target : g.head.toRequest with
    | error e =>
      have head := g.readHead_append s
      unfold cutHead at head
      rw [if_neg (Nat.not_lt.mpr small), target] at head
      exact ⟨e, by rw [Decoder.decode_of_failed idle head]⟩
    | ok r =>
      rw [decode_append small target d idle, headers_of_toRequest target]
      cases length : bodyLength ⟨g.head.fields⟩ with
      | error e => exact ⟨e, rfl⟩
      | ok n => exact absurd length (refused n)
  · exact decode_of_large (Nat.not_le.mp small) d idle s

end Heading

theorem readHead_of_short {s : Bytes} (short : Wire.head s = .short) :
    readHead s = if maxHead < s.length then .failed (.headTooLarge s.length maxHead) s
      else .more := by
  unfold readHead scanHead
  rw [short]
  have small : minHead ≤ maxHead := by decide
  by_cases tiny : s.length < minHead
  · rw [if_pos tiny, if_neg (by omega)]
  · rw [if_neg tiny]

namespace Whole
variable {w : Whole} {maxBody : Nat} {front back : Bytes}

def octets (w : Whole) : Bytes := w.opening ++ w.body

def request (w : Whole) : Request := if w.body = [] then w.said else w.said.withBody w.body

/-- the request keeps the limits of a decoder -/
structure Fits (w : Whole) (maxBody : Nat) : Prop where
  head_le : w.opening.length ≤ maxHead
  body_le : w.body.length ≤ maxBody

/-! ## the turn that reads a request -/

theorem decode_opening (w : Whole) (small : w.opening.length ≤ maxHead) (s : Bytes) :
    (Decoder.ofMaxBody maxBody).decode (w.opening ++ s)
      = (Decoder.ofMaxBody maxBody).afterHead w.said w.body.length s := by
  rw [Heading.decode_append small w.target _ rfl, w.length]

theorem decode_append (w : Whole) (fit : w.Fits maxBody) (s : Bytes) :
    (Decoder.ofMaxBody maxBody).decode (w.octets ++ s)
      = ⟨.request w.request, .ofMaxBody maxBody, s⟩ := by
  rw [octets, List.append_assoc, w.decode_opening fit.head_le]
  unfold Decoder.afterHead request
  by_cases nil : w.body = []
  · rw [if_pos (List.length_eq_zero_iff.mpr nil), if_pos nil, nil]
    rfl
  · have fits : ¬ (Decoder.ofMaxBody maxBody).maxBody < w.body.length :=
      Nat.not_lt.mpr fit.body_le
    have all : ¬ (w.body ++ s).length < w.body.length := by
      rw [List.length_append]
      omega
    rw [if_neg fun e => nil (List.length_eq_zero_iff.mp e), if_neg fits, if_neg nil]
    unfold Decoder.takeBody
    rw [if_neg all, List.take_left, List.drop_left]
    rfl

/-! ## turns on the front of a request -/

theorem decode_of_cut_body (cut : w.body = front ++ back) (unfinished : back ≠ []) :
    w.Fits maxBody ∧ (Decoder.ofMaxBody maxBody).decode (w.opening ++ front)
        = ⟨.more, ⟨maxBody, some (w.said, w.body.length)⟩, front⟩
      ∨ ¬ w.Fits maxBody
        ∧ ∃ e, ((Decoder.ofMaxBody maxBody).decode (w.opening ++ front)).outcome = .failed e := by
  have lack : front.length < w.body.length := by
    rw [cut, List.length_append]
    have := List.length_pos_iff.mpr unfinished
    omega
  by_cases long : maxHead < w.opening.length
  · exact .inr ⟨fun fit => Nat.not_lt.mpr fit.head_le long, Heading.decode_of_large long _ rfl front⟩
  · rw [w.decode_opening (Nat.not_lt.mp long)]
    unfold Decoder.afterHead
    rw [if_neg (by omega)]
    by_cases large : maxBody < w.body.length
    · refine .inr ⟨fun fit => Nat.not_lt.mpr fit.body_le large,
        .bodyTooLarge w.body.length maxBody, ?_⟩
      rw [if_pos (show (Decoder.ofMaxBody maxBody).maxBody < _ from large)]
      rfl
    · refine .inl ⟨⟨Nat.not_lt.mp long, Nat.not_lt.mp large⟩, ?_⟩
      rw [if_neg (show ¬ (Decoder.ofMaxBody maxBody).maxBody < _ from large)]
      unfold Decoder.takeBody
      rw [if_pos lack]
      rfl

/-- a turn on the front of a request fails since the request is too large, or wants more octets; it
leaves nothing of the front only if that is the head -/
theorem decode_cut (maxBody : Nat) (cut : w.octets = front ++ back) (begun : front ≠ [])
    (unfinished : back ≠ []) :
    (∃ e, ((Decoder.ofMaxBody maxBody).decode front).outcome = .failed e) ∧ ¬ w.Fits maxBody
      ∨ ((Decoder.ofMaxBody maxBody).decode front).outcome = .more
        ∧ (((Decoder.ofMaxBody maxBody).decode front).rest = []
          ↔ front = w.opening ∧ w.Fits maxBody) := by
  rcases List.append_eq_append_iff.mp cut with ⟨piece, rfl, body⟩ | ⟨piece, opening, rfl⟩
  · -- the head is complete
    rcases decode_of_cut_body body unfinished with ⟨fit, turn⟩ | ⟨large, failed⟩
    · rw [turn]
      refine .inr ⟨rfl, fun none => ⟨?_, fit⟩, fun all => List.append_right_eq_self.mp all.1⟩
      rw [show piece = [] from none, List.append_nil]
    · exact .inl ⟨failed, large⟩
  · by_cases whole : piece = []
    · -- the front is the head
      have same : front = w.opening := by rw [opening, whole, List.append_nil]
      rw [whole, List.nil_append] at unfinished
      subst same
      rcases @decode_of_cut_body w maxBody [] _ rfl unfinished with
        ⟨fit, turn⟩ | ⟨large, failed⟩
      · rw [List.append_nil] at turn
        rw [turn]
        exact .inr ⟨rfl, fun _ => ⟨rfl, fit⟩, fun _ => rfl⟩
      · rw [List.append_nil] at failed
        exact .inl ⟨failed, large⟩
    · have head := readHead_of_short (Heading.head_of_cut opening whole)
      by_cases long : maxHead < front.length
      · rw [if_pos long] at head
        refine .inl ⟨⟨_, by rw [Decoder.decode_of_failed rfl head]⟩, fun fit => ?_⟩
        have le := fit.head_le
        rw [opening, List.length_append] at le
        omega
      · rw [if_neg long] at head
        rw [Decoder.decode_of_more rfl head]
        refine .inr ⟨rfl, fun none => absurd none begun, fun all => absurd ?_ whole⟩
        rw [all.1] at opening
        exact List.append_right_eq_self.mp opening.symm

end Whole

/-! ## streams of requests -/

theorem Intake.drain_wholes {maxBody : Nat} (ws : List Whole) (fit : ∀ w ∈ ws, w.Fits maxBody)
    (s : Bytes) (before : List Request) :
    drain ⟨.ofMaxBody maxBody, ws.flatMap Whole.octets ++ s, before, none⟩
      = drain ⟨.ofMaxBody maxBody, s, before ++ ws.map Whole.request, none⟩ := by
  induction ws generalizing before with
  | nil => rw [List.map_nil, List.append_nil]; rfl
  | cons w ws ih =>
    obtain ⟨first, others⟩ := List.forall_mem_cons.mp fit
    rw [List.flatMap_cons, List.append_assoc]
    have turn := w.decode_append first (ws.flatMap Whole.octets ++ s)
    rw [drain_of_request (i := ⟨_, _, before, none⟩) (by rw [turn])]
    unfold Intake.next
    dsimp only
    rw [turn, ih others, List.append_assoc]
    rfl

namespace Decoder
variable {maxBody : Nat}

theorem requests_wholes (ws : List Whole) (fit : ∀ w ∈ ws, w.Fits maxBody) (s : Bytes) :
    (ofMaxBody maxBody).requests (ws.flatMap Whole.octets ++ s)
      = ws.map Whole.request ++ (ofMaxBody maxBody).requests s := by
  unfold requests
  rw [Intake.drain_wholes ws fit]
  exact Intake.requests_drain ⟨ofMaxBody maxBody, s, [], none⟩ (ws.map Whole.request)

theorem faulty_wholes (ws : List Whole) (fit : ∀ w ∈ ws, w.Fits maxBody) (s : Bytes) :
    (ofMaxBody maxBody).faulty (ws.flatMap Whole.octets ++ s) = (ofMaxBody maxBody).faulty s := by
  unfold faulty
  rw [Intake.drain_wholes ws fit, List.nil_append]
  have same := Intake.drain_before ⟨ofMaxBody maxBody, s, [], none⟩ (ws.map Whole.request)
  rw [show ws.map Whole.request ++ [] = ws.map Whole.request from List.append_nil _] at same
  rw [same]
  rfl

end Decoder

namespace Intake
variable {maxBody : Nat} {ws : List Whole} {pieces : List Bytes} {s : Bytes}

/-- whatever the pieces are, the requests in front are read, and then what stands behind them -/
theorem requests_feedAll (fit : ∀ w ∈ ws, w.Fits maxBody)
    (stream : pieces.flatten = ws.flatMap Whole.octets ++ s) :
    ((ofMaxBody maxBody).feedAll pieces).requests
      = ws.map Whole.request ++ (Decoder.ofMaxBody maxBody).requests s := by
  rw [(feedAll_ofMaxBody maxBody pieces).requests, stream]
  exact Decoder.requests_wholes ws fit s

theorem faulty_feedAll (fit : ∀ w ∈ ws, w.Fits maxBody)
    (stream : pieces.flatten = ws.flatMap Whole.octets ++ s) :
    ((ofMaxBody maxBody).feedAll pieces).faulty = (Decoder.ofMaxBody maxBody).faulty s := by
  rw [(feedAll_ofMaxBody maxBody pieces).faulty, stream]
  exact Decoder.faulty_wholes ws fit s

theorem feedAll_of_failed (fit : ∀ w ∈ ws, w.Fits maxBody)
    (stream : pieces.flatten = ws.flatMap Whole.octets ++ s) {e : ReadError}
    (failed : ((Decoder.ofMaxBody maxBody).decode s).outcome = .failed e) :
    let i := (ofMaxBody maxBody).feedAll pieces
    i.requests = ws.map Whole.request ∧ i.failure.isSome = true := by
  intro i
  have whole := feedAll_ofMaxBody maxBody pieces
  rw [stream, drain_wholes ws fit, drain_of_failed (by exact failed)] at whole
  exact ⟨whole.requests, whole.failed⟩

end Intake

namespace Whole
variable {w : Whole} {maxBody : Nat} {front back : Bytes}

/-- nothing is given out of a stream that ends within its first request -/
theorem requests_cut (maxBody : Nat) (cut : w.octets = front ++ back) (begun : front ≠ [])
    (unfinished : back ≠ []) : (Decoder.ofMaxBody maxBody).requests front = [] := by
  rcases decode_cut maxBody cut begun unfinished with ⟨⟨e, failed⟩, -⟩ | ⟨more, -⟩
  · have none := Decoder.requests_of_failed failed []
    rwa [List.append_nil] at none
  · exact Decoder.requests_eq_nil_of_more more

/-- a stream that ends within its first request is faulty, but for one that ends right behind the
head of a request that fits -/
theorem faulty_cut (maxBody : Nat) (cut : w.octets = front ++ back) (begun : front ≠ [])
    (unfinished : back ≠ []) :
    (Decoder.ofMaxBody maxBody).faulty front = true ↔ ¬ (front = w.opening ∧ w.Fits maxBody) := by
  rcases decode_cut maxBody cut begun unfinished with ⟨⟨e, failed⟩, large⟩ | ⟨more, kept⟩
  · have faulty := Decoder.faulty_of_failed failed []
    rw [List.append_nil] at faulty
    rw [faulty]
    exact iff_of_true rfl fun all => large all.2
  · have faulty := Decoder.faulty_of_more more []
    rw [List.append_nil, List.append_nil, Decoder.faulty_of_waiting (Decoder.decode_again more)]
      at faulty
    rw [faulty, ← kept, Bool.not_eq_true', ← Bool.not_eq_true, List.isEmpty_iff]

/-- the front of a request that fits does not fail until the stream ends, and then it fails if
anything is left in the buffer -/
theorem finish_cut (fit : w.Fits maxBody) (cut : w.octets = front ++ back) (begun : front ≠ [])
    (unfinished : back ≠ []) (before : List Request) :
    let i := Intake.drain ⟨.ofMaxBody maxBody, front, before, none⟩
    i.failure = none ∧ (i.decoder.finish i.buffer).outcome = if front = w.opening then .more
      else .failed (.transport "bytes remaining on stream") := by
  rcases decode_cut maxBody cut begun unfinished with ⟨-, large⟩ | ⟨more, kept⟩
  · exact absurd fit large
  · rw [Intake.drain_of_more (i := ⟨.ofMaxBody maxBody, front, before, none⟩) more]
    refine ⟨rfl, ?_⟩
    show (((Decoder.ofMaxBody maxBody).decode front).decoder.finish
      ((Decoder.ofMaxBody maxBody).decode front).rest).outcome = _
    rw [Decoder.finish_of_waiting (Decoder.decode_again more)]
    by_cases all : front = w.opening
    · rw [if_pos all, if_pos (kept.mpr ⟨all, fit⟩)]
    · rw [if_neg all, if_neg fun none => all (kept.mp none).1]

end Whole

/-! ## requests for examples -/

/-- the head of a request that posts something to the root -/
def Head.post (fields : List Field) : Head := ⟨Bytes.ofAscii "POST", [47], 1, fields⟩

/-- what such a head says -/
def Head.posted (fields : List Field) : Request :=
  { Request.ofTarget ⟨Bytes.ofAscii "POST", by decide, List.all_eq_true.mp rfl⟩
      ⟨none, none, [47], none⟩ .http11
    with headers := ⟨fields⟩ }

theorem Head.toRequest_post (fields : List Field) :
    (Head.post fields).toRequest = .ok (Head.posted fields) := rfl

end PipelinedHttp.Wire
