import PipelinedHttp.Proofs.Wire.Message

/-!
# The framing of bodies

A `Content-Length` field is to be decimal digits, and all such fields of a head are to be the same
(`Headers.Announces`).  The decoder goes by the first of them, and reads it as a number in a lenient
way (`Headers.Reads`): a plus sign is let pass, and so is white space beyond ASCII.

* `announcedLength_eq_ok_iff`   the lenient reading is the strict one, on ASCII without a plus sign;
* `printable_of_head`           and there are no controls in a head;
* `Heading.refused_iff`         a head is refused, or it is read leniently;
* `Decoder.framed_of_request`   a request that is given out has the body that its head has been read
                                to announce;
* `framing`                     so the bodies are framed as they should be, if all lengths of the head
                                are the same and are ASCII without a plus sign.
-/

namespace PipelinedHttp

/-! ## lengths in octets and in characters -/

namespace Text

theorem dropWhile_congr {p q : Char → Bool} {s : List Char} (h : ∀ c ∈ s, p c = q c) :
    s.dropWhile p = s.dropWhile q := by
  induction s with
  | nil => rfl
  | cons c s ih =>
    obtain ⟨first, others⟩ := List.forall_mem_cons.mp h
    rw [List.dropWhile_cons, List.dropWhile_cons, first, ih others]

theorem forall_ascii {P : Char → Prop} (h : ∀ n < 128, P (Char.ofNat n)) {c : Char}
    (ascii : c.toNat < 128) : P c := by
  have holds := h c.toNat ascii
  rwa [Char.ofNat_toNat] at holds

end Text

namespace Bytes

/-- the octets of a text of ASCII -/
def ofChars (s : List Char) : Bytes := s.map fun c => c.toNat.toUInt8

theorem exists_ofChars {s : Bytes} (ascii : ∀ b ∈ s, b < 0x80) :
    ∃ cs, ofChars cs = s ∧ ∀ c ∈ cs, c.toNat < 128 := by
  induction s with
  | nil => exact ⟨[], rfl, nofun⟩
  | cons b s ih =>
    obtain ⟨small, others⟩ := List.forall_mem_cons.mp ascii
    obtain ⟨cs, rfl, low⟩ := ih others
    have small : b.toNat < 128 := UInt8.lt_iff_toNat_lt.mp small
    have code : (Char.ofNat b.toNat).toNat = b.toNat := by
      unfold Char.ofNat
      rw [dif_pos (.inl (by omega))]
      rfl
    refine ⟨Char.ofNat b.toNat :: cs, ?_, List.forall_mem_cons.mpr ⟨by omega, low⟩⟩
    show (Char.ofNat b.toNat).toNat.toUInt8 :: ofChars cs = b :: ofChars cs
    rw [code, Nat.toUInt8_eq, UInt8.ofNat_toNat]

theorem isDigit_ofChar {c : Char} (ascii : c.toNat < 128) :
    isDigit c.toNat.toUInt8 = c.isDigit :=
  Text.forall_ascii (P := fun c => isDigit c.toNat.toUInt8 = c.isDigit) (by decide) ascii

theorem all_isDigit_ofChars {cs : List Char} (ascii : ∀ c ∈ cs, c.toNat < 128) :
    (ofChars cs).all isDigit = cs.all Char.isDigit := by
  unfold ofChars
  rw [List.all_map, Bool.eq_iff_iff, List.all_eq_true, List.all_eq_true]
  refine forall₂_congr fun c hc => ?_
  rw [Function.comp_apply, isDigit_ofChar (ascii c hc)]

/-- blanks are the only white space of a field value of ASCII -/
theorem isBlank_ofChar {c : Char} (ascii : c.toNat < 128)
    (value : Wire.isValue c.toNat.toUInt8 = true) : isBlank c.toNat.toUInt8 = Text.isBlank c :=
  Text.forall_ascii (P := fun c => Wire.isValue c.toNat.toUInt8 = true →
    isBlank c.toNat.toUInt8 = Text.isBlank c) (by decide) ascii value

theorem trim_ofChars {cs : List Char} (ascii : ∀ c ∈ cs, c.toNat < 128)
    (value : ∀ b ∈ ofChars cs, Wire.isValue b = true) :
    trim isBlank (ofChars cs) = ofChars (Text.trim cs) := by
  have same : ∀ c ∈ cs, (isBlank ∘ fun c : Char => c.toNat.toUInt8) c = Text.isBlank c :=
    fun c hc => isBlank_ofChar (ascii c hc) (value _ (List.mem_map_of_mem hc))
  unfold trim dropEndWhile Text.trim ofChars
  rw [List.dropWhile_map, ← List.map_reverse, List.dropWhile_map, ← List.map_reverse,
    Text.dropWhile_congr same, Text.dropWhile_congr]
  intro c hc
  exact same c ((List.dropWhile_suffix _).mem (List.mem_reverse.mp hc))

end Bytes

namespace Wire

theorem parseLength?_of_unsigned {cs : List Char} (unsigned : '+' ∉ cs) :
    parseLength? cs = if cs ≠ [] ∧ cs.all Char.isDigit = true ∧ ofDigits cs < lengthBound then
      some (ofDigits cs) else none := by
  unfold parseLength?
  dsimp only
  split
  · exact absurd List.mem_cons_self unsigned
  · rfl

theorem ofDecimal?_ofChars {cs : List Char} (ascii : ∀ c ∈ cs, c.toNat < 128) :
    Bytes.ofDecimal? (Bytes.ofChars cs)
      = if cs ≠ [] ∧ cs.all Char.isDigit = true then some (ofDigits cs) else none := by
  unfold Bytes.ofDecimal?
  rw [Bytes.all_isDigit_ofChars ascii]
  have same : Bytes.ofChars cs ≠ [] ↔ cs ≠ [] := not_congr List.map_eq_nil_iff
  by_cases good : cs ≠ [] ∧ cs.all Char.isDigit = true
  · rw [if_pos ⟨same.mpr good.1, good.2⟩, if_pos good]
    exact congrArg some (Bytes.foldl_digits cs (List.all_eq_true.mp good.2) 0)
  · rw [if_neg fun all => good ⟨same.mp all.1, all.2⟩, if_neg good]

theorem parseLength?_eq_some_iff {cs : List Char} {n : Nat} (ascii : ∀ c ∈ cs, c.toNat < 128)
    (unsigned : '+' ∉ cs) :
    parseLength? cs = some n ↔ Bytes.ofDecimal? (Bytes.ofChars cs) = some n ∧ n < lengthBound := by
  rw [parseLength?_of_unsigned unsigned, ofDecimal?_ofChars ascii, Option.ite_none_right_eq_some,
    Option.ite_none_right_eq_some]
  constructor
  · rintro ⟨⟨some, digits, lt⟩, ⟨⟩⟩
    exact ⟨⟨⟨some, digits⟩, rfl⟩, lt⟩
  · rintro ⟨⟨⟨some, digits⟩, ⟨⟩⟩, lt⟩
    exact ⟨⟨some, digits, lt⟩, rfl⟩

/-- the lenient reading is the strict one, on ASCII without a plus sign -/
theorem announcedLength_eq_ok_iff {value : Bytes} {n : Nat} (plain : ∀ b ∈ value, isValue b = true)
    (ascii : ∀ b ∈ value, b < 0x80) (unsigned : 43 ∉ value) :
    announcedLength value = .ok n
      ↔ Bytes.ofDecimal? (Bytes.trim Bytes.isBlank value) = some n ∧ n < lengthBound := by
  obtain ⟨cs, rfl, low⟩ := Bytes.exists_ofChars ascii
  have inner : ∀ c ∈ Text.trim cs, c ∈ cs := by
    intro c hc
    have front := (List.dropWhile_suffix _).mem (List.mem_reverse.mp hc)
    exact (List.dropWhile_suffix _).mem (List.mem_reverse.mp front)
  have sign : '+' ∉ Text.trim cs := fun plus => unsigned (List.mem_map_of_mem (inner _ plus))
  have text : Utf8.decode? (Bytes.ofChars cs) = some (String.ofList cs) := by
    unfold Utf8.decode? Bytes.ofChars
    rw [Utf8.decodeFrom_ascii cs low]
    rfl
  rw [Bytes.trim_ofChars low plain,
    ← parseLength?_eq_some_iff (fun c hc => low c (inner c hc)) sign]
  unfold announcedLength
  rw [text]
  simp only [String.toList_ofList]
  cases parseLength? (Text.trim cs) with
  | none => exact ⟨nofun, nofun⟩
  | some m => exact ⟨fun h => by cases h; rfl, fun h => by cases h; rfl⟩

/-! ## what a scan gives -/

section
variable {α β : Type} {P : β → Prop} {Q : α → Prop}

/-- whatever a scan gives has a property -/
structure Gives (P : β → Prop) (scan : Bytes → Scan β) : Prop where
  holds : ∀ {s b rest}, scan s = .done b rest → P b

theorem Gives.done {b : β} (h : P b) : Gives P (Scan.done b) where
  holds e := by
    cases e
    exact h

theorem Gives.bad (flaw : Flaw) : Gives P fun _ => (Scan.bad flaw : Scan β) where
  holds := nofun

theorem Gives.bind {scan : Bytes → Scan α} {f : α → Bytes → Scan β} (h : Gives Q scan)
    (k : ∀ a, Q a → Gives P (f a)) : Gives P fun s => (scan s).bind f where
  holds {s b rest} e := by
    cases e' : scan s with
    | done a middle =>
      rw [e'] at e
      exact (k a (h.holds e')).holds e
    | short => rw [e'] at e; cases e
    | bad flaw => rw [e'] at e; cases e

theorem Gives.seq {f : α → Bytes → Scan β} (scan : Bytes → Scan α) (k : ∀ a, Gives P (f a)) :
    Gives P fun s => (scan s).bind f :=
  have any : Gives (fun _ => True) scan := ⟨fun _ => trivial⟩
  any.bind fun a _ => k a

theorem Gives.map {scan : Bytes → Scan α} (f : α → β) (h : Gives (fun a => P (f a)) scan) :
    Gives P fun s => (scan s).map f := h.bind fun _ ha => .done ha

theorem Gives.ite {p : Prop} [Decidable p] {x y : Bytes → Scan β} (h : Gives P x) (k : Gives P y) :
    Gives P fun s => if p then x s else y s := by
  by_cases e : p
  · simpa only [e, if_true] using h
  · simpa only [e, if_false] using k

end

theorem gives_run (p : UInt8 → Bool) : Gives (fun text => ∀ b ∈ text, p b = true) (run p) where
  holds {s text rest} e := by
    unfold run at e
    split at e
    · cases e
    · cases e
      exact List.all_eq_true.mp List.all_takeWhile

/-- a field without controls -/
def Printable (f : Field) : Prop := ∀ b ∈ f.value, isValue b = true

theorem gives_field : Gives Printable field := by
  refine .seq _ fun name => .ite (.bad _) (.seq _ fun _ => .seq _ fun _ => ?_)
  refine (gives_run isValue).bind fun value plain => .map _ ⟨fun _ b hb => ?_⟩
  exact plain b (List.mem_reverse.mp ((List.dropWhile_suffix _).mem (List.mem_reverse.mp hb)))

theorem gives_fields (room : Nat) : Gives (fun fs => ∀ f ∈ fs, Printable f) (fields room) := by
  induction room with
  | zero =>
    rw [fields_zero]
    exact .seq _ fun _ => .ite (.map _ ⟨fun _ => nofun⟩) (.seq _ fun _ => .bad _)
  | succ room ih =>
    rw [fields_succ]
    refine .seq _ fun _ => .ite (.map _ ⟨fun _ => nofun⟩)
      (gives_field.bind fun f first => .map _ ⟨fun e => ?_⟩)
    exact List.forall_mem_cons.mpr ⟨first, ih.holds e⟩

theorem printable_of_head {s rest : Bytes} {h : Head} (e : head s = .done h rest) :
    ∀ f ∈ h.fields, Printable f := by
  have gives : Gives (fun h : Head => ∀ f ∈ h.fields, Printable f) head :=
    .seq _ fun _ => .seq _ fun _ => .seq _ fun _ => .seq _ fun _ => .seq _ fun _ =>
      .map _ ⟨(gives_fields maxFields).holds⟩
  exact gives.holds e

end Wire

/-! ## what a head announces -/

namespace Headers

/-- a length as it is to be announced: by one value, in decimal digits -/
structure Announces (h : Headers) (n : Nat) : Prop where
  alike : ∀ v ∈ h.values FieldName.contentLength, ∀ u ∈ h.values FieldName.contentLength, u = v
  decimal : ∀ v ∈ h.values FieldName.contentLength,
    Bytes.ofDecimal? (Bytes.trim Bytes.isBlank v) = some n
  lt : n < Wire.lengthBound

/-- a length as it is read: from the first value, leniently -/
def Reads (h : Headers) (n : Nat) : Prop :=
  ∃ v, h.get? FieldName.contentLength = some v ∧ Wire.announcedLength v = .ok n

/-- lengths that can be read in no other way -/
structure Plain (h : Headers) : Prop where
  alike : ∀ v ∈ h.values FieldName.contentLength, ∀ u ∈ h.values FieldName.contentLength, u = v
  ascii : ∀ v ∈ h.values FieldName.contentLength, ∀ b ∈ v, b < 0x80
  unsigned : ∀ v ∈ h.values FieldName.contentLength, 43 ∉ v

variable {h : Headers} {n : Nat}

theorem values_of_contains {name : Bytes} (present : h.contains name = true) :
    ∃ v more, h.values name = v :: more ∧ h.get? name = some v := by
  unfold contains at present
  rw [get?_eq_head?_values] at present ⊢
  cases values : h.values name with
  | nil => rw [values] at present; cases present
  | cons v more => exact ⟨v, more, rfl, rfl⟩

/-- plain lengths are read as they are announced -/
theorem Plain.reads_iff (plain : h.Plain) (printable : ∀ f ∈ h.fields, Wire.Printable f)
    (present : h.contains FieldName.contentLength = true) : h.Reads n ↔ h.Announces n := by
  obtain ⟨v, more, values, first⟩ := values_of_contains present
  have mem : v ∈ h.values FieldName.contentLength := values ▸ List.mem_cons_self
  have clear : ∀ b ∈ v, Wire.isValue b = true := by
    obtain ⟨f, hf, rfl⟩ := List.mem_map.mp mem
    exact printable f (List.mem_filter.mp hf).1
  have strict := Wire.announcedLength_eq_ok_iff (n := n) clear (plain.ascii v mem)
    (plain.unsigned v mem)
  constructor
  · rintro ⟨u, same, read⟩
    rw [first] at same
    cases same
    obtain ⟨decimal, lt⟩ := strict.mp read
    exact ⟨plain.alike, fun u hu => by rw [plain.alike v mem u hu, decimal], lt⟩
  · intro announced
    exact ⟨v, first, strict.mpr ⟨announced.decimal v mem, announced.lt⟩⟩

end Headers

namespace Wire

theorem bodyLength_eq_ok_iff {h : Headers} (present : h.contains FieldName.contentLength = true)
    {n : Nat} :
    bodyLength h = .ok n ↔ h.contains FieldName.transferEncoding = false ∧ h.Reads n := by
  obtain ⟨v, more, values, first⟩ := Headers.values_of_contains present
  unfold bodyLength Headers.Reads Headers.contains
  rw [first]
  cases h.get? FieldName.transferEncoding with
  | some coding => exact ⟨nofun, fun sound => nomatch sound.1⟩
  | none =>
    refine ⟨fun read => ⟨rfl, v, rfl, read⟩, ?_⟩
    rintro ⟨-, u, ⟨⟩, read⟩
    exact read

theorem reads_of_bodyLength {h : Headers} {n : Nat} (length : bodyLength h = .ok n) (pos : 0 < n) :
    h.Reads n := by
  unfold bodyLength at length
  split at length
  · cases length
    exact absurd pos (Nat.lt_irrefl 0)
  · split at length <;> cases length
    exact absurd pos (Nat.lt_irrefl 0)
  · rename_i value _ first
    exact ⟨value, first, length⟩
  · cases length

theorem announcedLength_error {value : Bytes} {e : ReadError}
    (h : announcedLength value = .error e) : ∃ why, e = .invalidContentLength why := by
  unfold announcedLength at h
  split at h
  · cases h
    exact ⟨_, rfl⟩
  · split at h <;> cases h
    exact ⟨_, rfl⟩

theorem bodyLength_error {h : Headers} (present : h.contains FieldName.contentLength = true)
    {e : ReadError} (refused : bodyLength h = .error e) :
    ∃ why, e = .invalidContentLength why := by
  obtain ⟨v, more, values, first⟩ := Headers.values_of_contains present
  unfold bodyLength at refused
  rw [first] at refused
  cases coding : h.get? FieldName.transferEncoding with
  | some coding' =>
    rw [coding] at refused
    cases refused
    exact ⟨_, rfl⟩
  | none =>
    rw [coding] at refused
    exact announcedLength_error refused

/-- the length is refused, for what it says or since it is above the limit -/
def Outcome.Refuses (maxBody : Nat) (o : Outcome) : Prop :=
  (∃ why, o = .failed (.invalidContentLength why)) ∨ ∃ n, o = .failed (.bodyTooLarge n maxBody)

theorem Decoder.not_refuses_takeBody (d : Decoder) (request : Request) (length : Nat) (s : Bytes)
    (maxBody : Nat) : ¬ (d.takeBody request length s).outcome.Refuses maxBody := by
  unfold takeBody
  split <;> rintro (⟨why, e⟩ | ⟨n, e⟩) <;> cases e

/-- a head is refused, or its length can be read and is within the limit -/
theorem Heading.refused_iff {g : Heading} (small : g.opening.length ≤ maxHead) {said : Request}
    (target : g.head.toRequest = .ok said)
    (present : said.headers.contains FieldName.contentLength = true) (maxBody : Nat) (s : Bytes) :
    ((Decoder.ofMaxBody maxBody).decode (g.opening ++ s)).outcome.Refuses maxBody
      ↔ ¬ (said.headers.contains FieldName.transferEncoding = false
        ∧ ∃ n ≤ maxBody, said.headers.Reads n) := by
  rw [decode_append small target _ rfl]
  cases length : bodyLength said.headers with
  | error e =>
    obtain ⟨why, rfl⟩ := bodyLength_error present length
    refine iff_of_true (.inl ⟨why, rfl⟩) ?_
    rintro ⟨alone, n, -, read⟩
    rw [(bodyLength_eq_ok_iff present).mpr ⟨alone, read⟩] at length
    cases length
  | ok n =>
    obtain ⟨alone, read⟩ := (bodyLength_eq_ok_iff present).mp length
    have same {m : Nat} (other : said.headers.Reads m) : m = n := by
      rw [(bodyLength_eq_ok_iff present).mpr ⟨alone, other⟩] at length
      cases length
      rfl
    show ((Decoder.ofMaxBody maxBody).afterHead said n s).outcome.Refuses maxBody ↔ _
    unfold Decoder.afterHead
    by_cases zero : n = 0
    · rw [if_pos zero]
      refine iff_of_false ?_ fun no => no ⟨alone, n, zero ▸ Nat.zero_le _, read⟩
      rintro (⟨why, e⟩ | ⟨m, e⟩) <;> cases e
    · rw [if_neg zero]
      by_cases large : maxBody < n
      · rw [if_pos (show (Decoder.ofMaxBody maxBody).maxBody < n from large)]
        refine iff_of_true (.inr ⟨n, rfl⟩) ?_
        rintro ⟨-, m, le, other⟩
        have := same other
        omega
      · rw [if_neg (show ¬ (Decoder.ofMaxBody maxBody).maxBody < n from large)]
        exact iff_of_false (Decoder.not_refuses_takeBody _ _ _ _ _)
          fun no => no ⟨alone, n, Nat.not_lt.mp large, read⟩

theorem Decoder.framed_of_request {maxBody : Nat} {s : Bytes} {r : Request}
    (turn : ((ofMaxBody maxBody).decode s).outcome = .request r) :
    ∃ (h : Head) (rest : Bytes) (n : Nat), Wire.head s = .done h rest ∧ r.headers = ⟨h.fields⟩
      ∧ bodyLength ⟨h.fields⟩ = .ok n ∧ n ≤ maxBody ∧ (r.body.getD []).length = n := by
  unfold decode at turn
  simp only [ofMaxBody] at turn
  split at turn
  · cases turn
  · cases turn
  · rename_i said n rest read
    obtain ⟨h, head, -, target, length⟩ := scanHead_done (readHead_done read)
    obtain ⟨headers, bare⟩ := bare_of_toRequest target
    rw [headers] at length
    refine ⟨h, rest, n, head, ?_⟩
    unfold afterHead at turn
    split at turn
    · rename_i zero
      cases turn
      refine ⟨headers, length, zero ▸ Nat.zero_le _, ?_⟩
      rw [bare, zero]
      rfl
    · split at turn
      · cases turn
      · rename_i fits
        unfold takeBody at turn
        split at turn
        · cases turn
        · rename_i all
          cases turn
          refine ⟨headers, length, Nat.not_lt.mp fits, ?_⟩
          show (rest.take n).length = n
          rw [List.length_take, Nat.min_eq_left (Nat.not_lt.mp all)]

/-- **The framing of bodies.**  Whatever comes in, a request with a length has a body of the length
that is read from its head, and this is within the limit; it is the length that the head announces,
if all lengths of the head are the same and are ASCII without a plus sign.  And a head with a length
is refused if no length within the limit can be read from it, or a transfer coding stands beside it,
and only then. -/
theorem framing (maxBody : Nat) :
    (∀ pieces, ∀ r ∈ ((Intake.ofMaxBody maxBody).feedAll pieces).requests,
        r.headers.contains FieldName.contentLength = true →
        ∃ n ≤ maxBody, r.headers.Reads n ∧ (r.body.getD []).length = n
          ∧ (r.headers.Plain → r.headers.Announces n))
      ∧ ∀ (g : Heading) (said : Request) (s : Bytes), g.opening.length ≤ maxHead →
          g.head.toRequest = .ok said →
          said.headers.contains FieldName.contentLength = true →
          let refused := ((Decoder.ofMaxBody maxBody).decode (g.opening ++ s)).outcome.Refuses maxBody
          let sound (length : Nat → Prop) :=
            said.headers.contains FieldName.transferEncoding = false ∧ ∃ n ≤ maxBody, length n
          (refused ↔ ¬ sound said.headers.Reads)
            ∧ (said.headers.Plain → (refused ↔ ¬ sound said.headers.Announces)) := by
  refine ⟨fun pieces => ?_, fun g said s small target present => ?_⟩
  · rw [(Intake.feedAll_ofMaxBody maxBody pieces).requests]
    refine Decoder.requests_forall (fun turn present => ?_) pieces.flatten
    obtain ⟨h, rest, n, head, headers, length, le, body⟩ := Decoder.framed_of_request turn
    rw [headers] at present ⊢
    have read := ((bodyLength_eq_ok_iff present).mp length).2
    exact ⟨n, le, read, body, fun plain => (plain.reads_iff (printable_of_head head) present).mp read⟩
  · intro refused sound
    have lenient := Heading.refused_iff small target present maxBody s
    refine ⟨lenient, fun plain => lenient.trans ?_⟩
    have printable : ∀ f ∈ said.headers.fields, Printable f := by
      rw [headers_of_toRequest target]
      exact printable_of_head g.read
    have same : said.headers.Reads = said.headers.Announces :=
      funext fun n => propext (plain.reads_iff printable present)
    rw [same]

/-- two lengths that are the same: the body is of that length, and refused if it is above the limit -/
theorem framing_of_two_lengths :
    let opening := Bytes.ofAscii
      "POST / HTTP/1.1\r\nContent-Length: 05\r\nContent-Length: 05\r\n\r\n"
    let i := (Intake.ofMaxBody 16).feedAll [opening ++ Bytes.ofAscii "hel", Bytes.ofAscii "lo"]
    (∃ r ∈ i.requests, r.headers.Announces 5 ∧ (r.body.getD []).length = 5)
      ∧ ((Decoder.ofMaxBody 4).decode (opening ++ Bytes.ofAscii "hello")).outcome.Refuses 4 := by
  intro opening i
  let field : Field := ⟨FieldName.contentLength, [48, 53]⟩
  let w : Whole :=
    { opening
      body := Bytes.ofAscii "hello"
      head := .post [field, field]
      said := Head.posted [field, field]
      read := by decide +kernel
      target := Head.toRequest_post _
      length := rfl }
  have fit : ∀ w' ∈ [w], w'.Fits 16 := by
    intro w' hw'
    rw [List.mem_singleton.mp hw']
    exact ⟨by decide, by decide⟩
  have plain : w.said.headers.Plain :=
    ⟨by decide +kernel, by decide +kernel, by decide +kernel⟩
  have only {n : Nat} (announced : w.said.headers.Announces n) : n = 5 :=
    (Option.some.inj (announced.decimal [48, 53] (by decide))).symm
  constructor
  · have mem : w.request ∈ i.requests := by
      rw [show i.requests = _ from Intake.requests_feedAll (s := []) fit rfl]
      exact List.mem_cons_self
    obtain ⟨n, -, -, length, announced⟩ := (framing 16).1 _ w.request mem rfl
    have announced := announced plain
    obtain rfl := only announced
    exact ⟨w.request, mem, announced, length⟩
  · refine (((framing 4).2 w.toHeading w.said _ (by decide) w.target rfl).2 plain).mpr ?_
    rintro ⟨-, n, le, announced⟩
    have := only announced
    omega

/-- **Lengths that are read in a lenient way.**  Of two lengths that differ the first one counts, a
plus sign is let pass, and so is a no-break space. -/
theorem lenient_lengths :
    let body := Bytes.ofAscii "hello"
    let lenient (lines : Bytes) := ∃ (g : Heading) (said : Request),
      g.opening = Bytes.ofAscii "POST / HTTP/1.1\r\n" ++ lines ++ Bytes.crlf
        ∧ g.head.toRequest = .ok said ∧ (∀ n, ¬ said.headers.Announces n)
        ∧ ((Decoder.ofMaxBody 16).decode (g.opening ++ body)).outcome
          = .request (said.withBody body)
    lenient (Bytes.ofAscii "Content-Length: 5\r\nContent-Length: 6\r\n")
      ∧ lenient (Bytes.ofAscii "Content-Length: +5\r\n")
      ∧ lenient (Bytes.ofAscii "Content-Length: " ++ [0xC2, 0xA0, 53] ++ Bytes.crlf) := by
  intro body lenient
  let fields (values : List Bytes) : List Field := values.map (⟨FieldName.contentLength, ·⟩)
  have taken {lines : Bytes} (values : List Bytes)
      (read : Wire.head (Bytes.ofAscii "POST / HTTP/1.1\r\n" ++ lines ++ Bytes.crlf)
        = .done (.post (fields values)) [])
      (small : (Bytes.ofAscii "POST / HTTP/1.1\r\n" ++ lines ++ Bytes.crlf).length ≤ maxHead)
      (length : bodyLength ⟨fields values⟩ = .ok 5)
      (ambiguous : ∀ n, ¬ (Headers.mk (fields values)).Announces n) : lenient lines := by
    have target := Head.toRequest_post (fields values)
    refine ⟨⟨_, .post (fields values), read⟩, Head.posted (fields values), rfl, target, ambiguous, ?_⟩
    rw [Heading.decode_append (by exact small) target _ rfl,
      show bodyLength (Head.posted (fields values)).headers = .ok 5 from length]
    rfl
  refine ⟨taken [[53], [54]] ?_ ?_ rfl ?_, taken [[43, 53]] ?_ ?_ rfl ?_,
    taken [[0xC2, 0xA0, 53]] ?_ ?_ rfl ?_⟩
  · decide +kernel
  · decide
  · intro n announced
    exact absurd (announced.alike [53] (by decide) [54] (by decide)) (by decide)
  · decide +kernel
  · decide
  · intro n announced
    have none := announced.decimal [43, 53] (by decide)
    cases none
  · decide +kernel
  · decide
  · intro n announced
    have none := announced.decimal [0xC2, 0xA0, 53] (by decide)
    cases none

end Wire

end PipelinedHttp
