import PipelinedHttp.Proofs.Wire.Words

/-!
# Failures that are never seen

A head that has been read could still be refused for its version or its method.  Neither ever happens:
what the scan takes for a method is one, since the two classes of octets agree (`isToken_eq`), and it
takes no version but the two that are spoken.  A line with another word in either place is no head at
all.

* `method_eq_done_iff`      a word is read as a method exactly if it is one;
* `version_other`           behind another version than the two there is a flaw in the line;
* `RequestLine.bad_of_odd`  so a line of three words fails in its place, as a malformed head;
* `unseen_failures`         and no turn fails for its method or its version, nor for a number that is no
                            word.
-/

namespace PipelinedHttp

theorem Method.isSome_ofBytes?_iff {m : Bytes} :
    (Method.ofBytes? m).isSome = true ↔ m ≠ [] ∧ ∀ b ∈ m, Wire.isToken b = true := by
  constructor
  · intro some
    obtain ⟨method, read⟩ := Option.isSome_iff_exists.mp some
    unfold ofBytes? at read
    split at read
    · rename_i token
      refine ⟨token.1, fun b hb => ?_⟩
      rw [Wire.isToken_eq]
      exact List.all_eq_true.mp token.2 b hb
    · cases read
  · rintro ⟨ne, token⟩
    obtain ⟨method, read, -⟩ := Wire.ofBytes?_of_token ne token
    rw [read]
    rfl

namespace Wire
variable {s : Bytes} {flaw : Flaw}

/-! ## scans that stop too early -/

theorem run_within {p : UInt8 → Bool} {text : Bytes} {b : UInt8} (mem : b ∈ text) (stop : p b = false)
    (s : Bytes) : ∃ front c more, run p (text ++ s) = .done front (c :: more) ∧ c ∈ text := by
  induction text with
  | nil => cases mem
  | cons c text ih =>
    rw [List.cons_append, run_cons]
    by_cases inside : p c = true
    · have later : b ∈ text := by
        rcases List.mem_cons.mp mem with rfl | later
        · cases stop.symm.trans inside
        · exact later
      obtain ⟨front, d, more, read, here⟩ := ih later
      rw [if_pos inside, read]
      exact ⟨c :: front, d, more, rfl, List.mem_cons_of_mem c here⟩
    · rw [if_neg inside]
      exact ⟨[], c, text ++ s, rfl, List.mem_cons_self⟩

theorem literal_of_ne {b c : UInt8} {text : Bytes} (ne : b ≠ c) :
    literal flaw (c :: text) (b :: s) = .bad flaw := if_neg ne

/-- a text that is to stand on a line is there, or not all of the line is right -/
theorem literal_line (flaw : Flaw) {text : Bytes} (line : Bytes.cr ∉ text ∧ Bytes.lf ∉ text)
    (v : Bytes) (e : LineEnd) :
    (∃ w, v = text ++ w) ∨ ∀ s, literal flaw text (v ++ (e.octets ++ s)) = .bad flaw := by
  induction text generalizing v with
  | nil => exact .inl ⟨v, rfl⟩
  | cons c text ih =>
    cases v with
    | nil =>
      refine .inr fun s => ?_
      obtain ⟨b, more, cons, first⟩ := e.exists_cons s
      rw [List.nil_append, cons]
      rcases first with rfl | rfl
      · exact literal_of_ne (List.ne_of_not_mem_cons line.1)
      · exact literal_of_ne (List.ne_of_not_mem_cons line.2)
    | cons b v =>
      by_cases same : b = c
      · subst same
        have inner := line.imp List.not_mem_of_not_mem_cons List.not_mem_of_not_mem_cons
        rcases ih inner v with ⟨w, rfl⟩ | bad
        · exact .inl ⟨w, rfl⟩
        · exact .inr fun s => (if_pos rfl).trans (bad s)
      · exact .inr fun s => literal_of_ne same

/-! ## the words of a request line -/

theorem method_of_none {m : Bytes} (other : Method.ofBytes? m = none) (word : Bytes.space ∉ m)
    (s : Bytes) : method (m ++ Bytes.space :: s) = .bad .token := by
  unfold method
  by_cases nil : m = []
  · subst nil
    rfl
  · have odd : ¬ ∀ b ∈ m, isToken b = true := fun token => by
      have some := Method.isSome_ofBytes?_iff.mpr ⟨nil, token⟩
      rw [other] at some
      cases some
    obtain ⟨b, mem, stop⟩ : ∃ b ∈ m, isToken b = false := by simpa using odd
    obtain ⟨front, c, more, read, here⟩ := run_within mem stop (Bytes.space :: s)
    rw [read, Scan.bind_done]
    split
    · rfl
    · have ne : c ≠ Bytes.space := fun same => word (same ▸ here)
      rw [literal_of_ne ne]
      rfl

theorem method_eq_done_iff {m : Bytes} :
    method (m ++ Bytes.space :: s) = .done m s ↔ (Method.ofBytes? m).isSome = true := by
  rw [Method.isSome_ofBytes?_iff]
  constructor
  · exact fun read => (method_eq_done read).2
  · exact fun token => method_append token.1 token.2 s

theorem target_of_word {t : Bytes} (word : Bytes.space ∉ t) :
    (∀ s, target (t ++ Bytes.space :: s) = .done t s)
      ∨ ∀ s, target (t ++ Bytes.space :: s) = .bad .token := by
  by_cases octets : ∀ b ∈ t, isTarget b = true
  · by_cases text : t = [] ∨ Utf8.decode? t = none
    · refine .inr fun s => ?_
      unfold target
      rw [run_append octets (by decide), Scan.bind_done]
      exact if_pos text
    · obtain ⟨ne, text⟩ := not_or.mp text
      exact .inl (target_append ne octets text)
  · obtain ⟨b, mem, stop⟩ : ∃ b ∈ t, isTarget b = false := by simpa using octets
    refine .inr fun s => ?_
    obtain ⟨front, c, more, read, here⟩ := run_within mem stop (Bytes.space :: s)
    unfold target
    have ne : c ≠ Bytes.space := fun same => word (same ▸ here)
    rw [read, Scan.bind_done, literal_of_ne ne]
    rfl

theorem lineEnd_of_ne {b : UInt8} (cr : b ≠ Bytes.cr) (lf : b ≠ Bytes.lf) :
    lineEnd flaw (b :: s) = .bad flaw := (if_neg lf).trans (if_neg cr)

theorem version_other {v : Bytes} (line : Bytes.cr ∉ v ∧ Bytes.lf ∉ v)
    (other : v ≠ Bytes.ofAscii "HTTP/1.0" ∧ v ≠ Bytes.ofAscii "HTTP/1.1") (e : LineEnd) :
    (∀ s, version (v ++ (e.octets ++ s)) = .bad .version)
      ∨ ∃ minor, ∀ s, ∃ rest, version (v ++ (e.octets ++ s)) = .done minor rest
        ∧ lineEnd .newLine rest = .bad .newLine := by
  have plain : Bytes.cr ∉ Bytes.ofAscii "HTTP/1." ∧ Bytes.lf ∉ Bytes.ofAscii "HTTP/1." := by decide
  rcases literal_line .version plain v e with ⟨w, rfl⟩ | bad
  · -- the word begins as it should, and what stands behind is not just one of the two digits
    have begun (s : Bytes) : version (Bytes.ofAscii "HTTP/1." ++ w ++ (e.octets ++ s))
        = (next (w ++ (e.octets ++ s))).bind fun b rest =>
          if b = 48 then .done 0 rest else if b = 49 then .done 1 rest else .bad .version := by
      unfold version
      rw [List.append_assoc, literal_append]
      rfl
    cases w with
    | nil =>
      refine .inl fun s => ?_
      rw [begun]
      cases e <;> rfl
    | cons b w =>
      by_cases digit : b = 48 ∨ b = 49
      · have longer : w ≠ [] := by
          rintro rfl
          rcases digit with rfl | rfl
          · exact other.1 rfl
          · exact other.2 rfl
        obtain ⟨c, w, rfl⟩ := List.exists_cons_of_ne_nil longer
        have inside : c ∈ Bytes.ofAscii "HTTP/1." ++ b :: c :: w := by simp
        have bad (s : Bytes) : lineEnd .newLine (c :: s) = .bad .newLine :=
          lineEnd_of_ne (fun same => line.1 (same ▸ inside)) fun same => line.2 (same ▸ inside)
        rcases digit with rfl | rfl
        · exact .inr ⟨0, fun s => ⟨_, begun s, bad _⟩⟩
        · exact .inr ⟨1, fun s => ⟨_, begun s, bad _⟩⟩
      · obtain ⟨zero, one⟩ := not_or.mp digit
        refine .inl fun s => (begun s).trans ?_
        exact (if_neg zero).trans (if_neg one)
  · refine .inl fun s => ?_
    unfold version
    rw [bad]
    rfl

/-! ## lines of three words -/

/-- a line of three words, with empty lines in front -/
structure RequestLine where
  leading : List LineEnd
  method : Bytes
  target : Bytes
  version : Bytes
  ending : LineEnd
  method_word : Bytes.space ∉ method
  target_word : Bytes.space ∉ target
  method_first : ∀ b ∈ method.head?, b ≠ Bytes.cr ∧ b ≠ Bytes.lf
  version_line : Bytes.cr ∉ version ∧ Bytes.lf ∉ version

namespace RequestLine
variable {l : RequestLine}

def octets (l : RequestLine) : Bytes :=
  l.leading.flatMap LineEnd.octets ++ (l.method ++ Bytes.space :: (l.target ++ Bytes.space ::
    (l.version ++ l.ending.octets)))

/-- the first word is no method, or the last is neither of the two versions -/
def Odd (l : RequestLine) : Prop :=
  Method.ofBytes? l.method = none
    ∨ l.version ≠ Bytes.ofAscii "HTTP/1.0" ∧ l.version ≠ Bytes.ofAscii "HTTP/1.1"

theorem blankLines_octets (l : RequestLine) (s : Bytes) :
    blankLines (l.octets ++ s) = .done () (l.method ++ Bytes.space :: (l.target ++ Bytes.space ::
      (l.version ++ (l.ending.octets ++ s)))) := by
  have split : l.octets ++ s = l.leading.flatMap LineEnd.octets ++ (l.method ++ Bytes.space ::
      (l.target ++ Bytes.space :: (l.version ++ (l.ending.octets ++ s)))) := by
    simp only [octets, List.append_assoc, List.cons_append]
  rw [split, Wire.blankLines_octets]
  have first := l.method_first
  cases method : l.method with
  | nil => exact blankLines_of_ne _ (by decide) (by decide)
  | cons b m =>
    obtain ⟨cr, lf⟩ := first b (by rw [method]; rfl)
    exact blankLines_of_ne _ lf cr

theorem bad_of_odd (odd : l.Odd) :
    ∃ flaw : Flaw, flaw ≠ .tooManyFields ∧ ∀ s, head (l.octets ++ s) = .bad flaw := by
  cases method : Method.ofBytes? l.method with
  | none =>
    refine ⟨.token, nofun, fun s => ?_⟩
    unfold head
    rw [l.blankLines_octets, Scan.bind_done, method_of_none method l.method_word]
    rfl
  | some m =>
    have read (s : Bytes) : Wire.method (l.method ++ Bytes.space :: s) = .done l.method s :=
      method_eq_done_iff.mpr (by rw [method]; rfl)
    have other := odd.resolve_left (by rw [method]; exact nofun)
    have front (s : Bytes) : head (l.octets ++ s) = (Wire.target (l.target ++ Bytes.space ::
        (l.version ++ (l.ending.octets ++ s)))).bind fun target s => (Wire.version s).bind fun minor s =>
          (lineEnd .newLine s).bind fun _ s =>
            (Wire.fields maxFields s).map fun fields => ⟨l.method, target, minor, fields⟩ := by
      unfold head
      rw [l.blankLines_octets, Scan.bind_done, read, Scan.bind_done]
    rcases target_of_word l.target_word with target | bad
    · rcases version_other l.version_line other l.ending with bad | ⟨minor, version⟩
      · refine ⟨.version, nofun, fun s => ?_⟩
        rw [front, target, Scan.bind_done, bad]
        rfl
      · refine ⟨.newLine, nofun, fun s => ?_⟩
        obtain ⟨rest, version, bad⟩ := version s
        rw [front, target, Scan.bind_done, version, Scan.bind_done, bad]
        rfl
    · refine ⟨.token, nofun, fun s => ?_⟩
      rw [front, bad]
      rfl

end RequestLine

theorem readHead_of_bad (other : flaw ≠ .tooManyFields) (bad : head s = .bad flaw) :
    readHead s = if s.length < minHead then .more else .failed (.malformedHead flaw.message) s := by
  unfold readHead scanHead
  rw [bad]
  cases flaw with
  | tooManyFields => exact absurd rfl other
  | token | version | newLine | fieldName | fieldValue => rfl

namespace Decoder
variable {d : Decoder} {e : ReadError}

theorem decode_of_odd {l : RequestLine} (odd : l.Odd) :
    ∃ flaw : Flaw, flaw ≠ .tooManyFields ∧ ∀ (d : Decoder) s, d.pending = none →
      d.decode (l.octets ++ s) = ⟨if (l.octets ++ s).length < minHead then .more
        else .failed (.malformedHead flaw.message), d, l.octets ++ s⟩ := by
  obtain ⟨flaw, other, bad⟩ := RequestLine.bad_of_odd odd
  refine ⟨flaw, other, fun d s idle => ?_⟩
  have read := readHead_of_bad other (bad s)
  by_cases short : (l.octets ++ s).length < minHead
  · rw [if_pos short] at read ⊢
    exact decode_of_more idle read
  · rw [if_neg short] at read ⊢
    exact decode_of_failed idle read

/-- the end of a stream fails as the turn does, or since octets are left -/
theorem failed_of_finish (failed : (d.finish s).outcome = .failed e) :
    (d.decode s).outcome = .failed e ∨ ∃ why, e = .transport why := by
  unfold finish at failed
  dsimp only at failed
  split at failed
  · rename_i more
    split at failed
    · exact .inl failed
    · cases failed
      exact .inr ⟨_, rfl⟩
  · exact .inl failed

end Decoder

/-! ## what cannot fail -/

/-- what cannot fail in a turn -/
structure Unfailing (d : Decoder) (s : Bytes) : Prop where
  /-- a turn, at the end of the stream or not, does not fail for the version or the method -/
  kinds : ∀ e, (d.decode s).outcome = .failed e ∨ (d.finish s).outcome = .failed e →
    e ≠ .invalidMethod ∧ ∀ minor, e ≠ .unsupportedVersion minor
  /-- a head that is complete has one of the two versions, and a method -/
  heads : ∀ h rest, head s = .done h rest → ∃ version method,
    versionOfMinor? h.minor = some version ∧ (version = .http10 ∨ version = .http11)
      ∧ Method.ofBytes? h.method = some method ∧ method.name = h.method
  methods : ∀ m, method (m ++ Bytes.space :: s) = .done m s ↔ (Method.ofBytes? m).isSome = true
  /-- a line that has another version, or no method, is a malformed head -/
  lines : ∀ l : RequestLine, l.Odd → d.pending = none → ∃ flaw : Flaw, flaw ≠ .tooManyFields
    ∧ d.decode (l.octets ++ s) = ⟨if (l.octets ++ s).length < minHead then .more
      else .failed (.malformedHead flaw.message), d, l.octets ++ s⟩

theorem Unfailing.of_turn (d : Decoder) (s : Bytes) : Unfailing d s where
  kinds e failed := by
    have kind : (e.LeavesHead ∨ e.TakesHead) ∨ ∃ why, e = .transport why := by
      have exact_ := (d.effect_decode s).2.exact.failed e
      rcases failed with failed | failed
      · exact .inl (exact_ failed)
      · exact (Decoder.failed_of_finish failed).imp_left exact_
    constructor
    · rintro rfl
      rcases kind with (kind | kind) | ⟨why, ⟨⟩⟩ <;> exact kind
    · rintro minor rfl
      rcases kind with (kind | kind) | ⟨why, ⟨⟩⟩ <;> exact kind
  heads h rest read := by
    obtain ⟨l, -, rfl⟩ := head_eq_done read
    obtain ⟨version, spoken, one⟩ := l.plain.exists_version
    obtain ⟨method, token, name⟩ := ofBytes?_of_token l.plain.method_ne_nil l.plain.method_token
    exact ⟨version, method, spoken, one, token, name⟩
  methods m := method_eq_done_iff
  lines l odd idle := by
    obtain ⟨flaw, other, turn⟩ := Decoder.decode_of_odd odd
    exact ⟨flaw, other, turn d s idle⟩

/-- **Failures that are never seen.**  In every state and on every buffer, no turn fails for the version
or the method of its head; a line with an odd one is a malformed head.  A length that has been read is a
word, and a turn in words, in every state of words, gives what the turn gives, without an overflow. -/
theorem unseen_failures :
    (∀ d s, Unfailing d s)
      ∧ (∀ h n, bodyLength h = .ok n → toWord n = .ok (.ofNat n) ∧ (UInt64.ofNat n).toNat = n)
      ∧ (∀ (d : WordDecoder) s, Computes (d.decode s) (d.toDecoder.decode s))
      ∧ ∀ (maxBody : UInt64) uses, ((Session.ofMaxBody maxBody.toNat).run uses).InWords :=
  ⟨Unfailing.of_turn, fun _ _ => toWord_of_bodyLength, WordDecoder.computes_decode,
    Session.inWords_run⟩

/-- a first word that is no method, a version that is not spoken, and a body of which two octets are
there -/
theorem unseen_failures_of_odd_lines :
    let d := Decoder.ofMaxBody 16
    let odd := Bytes.ofAscii "\nG@T / HTTP/1.1\r\n"
    let new := Bytes.ofAscii "GET / HTTP/2.0\n"
    (∃ flaw : Flaw, d.decode odd = ⟨.failed (.malformedHead flaw.message), d, odd⟩)
      ∧ (∃ flaw : Flaw, d.decode new = ⟨.failed (.malformedHead flaw.message), d, new⟩)
      ∧ ∃ t, WordDecoder.decode ⟨16, some (Head.posted [], 5)⟩ (Bytes.ofAscii "he") = .ok t
        ∧ t.outcome = .more ∧ 2 + t.room.toNat = 5 := by
  intro d odd new
  obtain ⟨turns, -, words, -⟩ := unseen_failures
  refine ⟨?_, ?_, ?_⟩
  · let l : RequestLine := ⟨[.lf], Bytes.ofAscii "G@T", Bytes.ofAscii "/", Bytes.ofAscii "HTTP/1.1",
      .crlf, by decide, by decide, by rintro b ⟨⟩; decide, by decide⟩
    obtain ⟨flaw, -, turn⟩ := (turns d []).lines l (.inl (by decide)) rfl
    exact ⟨flaw, turn⟩
  · let l : RequestLine := ⟨[], Bytes.ofAscii "GET", Bytes.ofAscii "/", Bytes.ofAscii "HTTP/2.0",
      .lf, by decide, by decide, by rintro b ⟨⟩; decide, by decide⟩
    obtain ⟨flaw, -, turn⟩ := (turns d []).lines l (.inr (by decide)) rfl
    exact ⟨flaw, turn⟩
  · obtain ⟨t, ok, -, room⟩ := words ⟨16, some (Head.posted [], 5)⟩ (Bytes.ofAscii "he")
    refine ⟨t, ok, ?_⟩
    have result : WordDecoder.decode ⟨16, some (Head.posted [], 5)⟩ (Bytes.ofAscii "he")
        = .ok ⟨.more, ⟨16, some (Head.posted [], 5)⟩, Bytes.ofAscii "he", 3⟩ := rfl
    cases ok.symm.trans result
    exact ⟨rfl, room _ _ rfl rfl⟩

end Wire

end PipelinedHttp
