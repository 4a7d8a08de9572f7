import PipelinedHttp.Proofs.Wire.Cutting

/-!
# What is written reads back

The parts of a request as a client writes them are read by the scans: a length in decimal digits, and the
pieces of a head, each in front of whatever follows.  A head is `Plain` if all its parts are such that
they read back; how it may be spelled is the matter of `Proofs/Wire/Spelling`.

* `announcedLength_decimal`, `bodyLength_of_announced`   the announced length;
* `run_append`, `method_append`, `target_append`, `version_append`   the pieces of a head.
-/

namespace PipelinedHttp

/-! ## lengths in decimal digits -/

namespace Utf8

theorem lead_of_ascii {c : Char} (h : c.toNat < 128) :
    lead c.toNat.toUInt8 = .complete c := by
  have e : c.toNat.toUInt8.toNat = c.toNat := Nat.mod_eq_of_lt (by omega)
  have small : c.toNat.toUInt8 < 0x80 := by
    rw [UInt8.lt_iff_toNat_lt, e]
    exact h
  unfold lead
  rw [if_pos small, e, Char.ofNat_toNat]

theorem decodeFrom_ascii (s : List Char) (h : ∀ c ∈ s, c.toNat < 128) :
    decodeFrom none (s.map fun c => c.toNat.toUInt8) = some s := by
  induction s with
  | nil => rfl
  | cons c s ih =>
    rw [List.map_cons, decodeFrom, octet, lead_of_ascii (h c List.mem_cons_self)]
    show (decodeFrom none (s.map fun c => c.toNat.toUInt8)).map (c :: ·) = some (c :: s)
    rw [ih fun d hd => h d (List.mem_cons_of_mem c hd)]
    rfl

end Utf8

namespace Text

theorem not_isBlank_of_isDigit {c : Char} (h : c.isDigit = true) : isBlank c = false := by
  obtain ⟨low, high⟩ := Bytes.bounds_of_isDigit h
  unfold isBlank
  simp only [Bool.or_eq_false_iff, Bool.and_eq_false_iff, decide_eq_false_iff_not,
    beq_eq_false_iff_ne]
  omega

theorem dropWhile_isBlank_of_digits {s : List Char} (h : ∀ c ∈ s, c.isDigit = true) :
    s.dropWhile isBlank = s := by
  cases s with
  | nil => rfl
  | cons c s =>
    rw [List.dropWhile_cons, not_isBlank_of_isDigit (h c List.mem_cons_self)]
    rfl

theorem trim_of_digits {s : List Char} (h : ∀ c ∈ s, c.isDigit = true) : trim s = s := by
  unfold trim
  rw [dropWhile_isBlank_of_digits h,
    dropWhile_isBlank_of_digits fun c hc => h c (List.mem_reverse.mp hc), List.reverse_reverse]

end Text

namespace Wire

theorem parseLength?_of_digits {s : List Char} (ne : s ≠ []) (digit : ∀ c ∈ s, c.isDigit = true)
    (lt : ofDigits s < lengthBound) : parseLength? s = some (ofDigits s) := by
  unfold parseLength?
  dsimp only
  split
  · have plus := digit '+' List.mem_cons_self
    exact absurd plus (by decide)
  · rw [if_pos ⟨ne, List.all_eq_true.mpr digit, lt⟩]

/-- a length below the bound reads back from its decimal digits -/
theorem announcedLength_decimal {n : Nat} (h : n < lengthBound) :
    announcedLength (Bytes.decimal n) = .ok n := by
  have digit : ∀ c ∈ Nat.toDigits 10 n, c.isDigit = true := fun c hc =>
    Nat.isDigit_of_mem_toDigits (by decide) (by decide) hc
  have text : Utf8.decode? (Bytes.decimal n) = some (String.ofList (Nat.toDigits 10 n)) := by
    unfold Utf8.decode? Bytes.decimal
    rw [Utf8.decodeFrom_ascii _ fun c hc => by
      have := Bytes.bounds_of_isDigit (digit c hc)
      omega]
    rfl
  have value : ofDigits (Nat.toDigits 10 n) = n := Nat.ofDigitChars_toDigits (by decide) (by decide)
  have read : parseLength? (Nat.toDigits 10 n) = some n := by
    rw [parseLength?_of_digits Nat.toDigits_ne_nil digit (by rw [value]; exact h), value]
  unfold announcedLength
  rw [text]
  simp only [String.toList_ofList, Text.trim_of_digits digit, read]

theorem bodyLength_of_announced {h : Headers} {n : Nat}
    (coding : h.get? FieldName.transferEncoding = none)
    (length : h.get? FieldName.contentLength = some (Bytes.decimal n)) (lt : n < lengthBound) :
    bodyLength h = .ok n := by
  unfold bodyLength
  rw [coding, length]
  exact announcedLength_decimal lt

theorem bodyLength_of_absent {h : Headers} (coding : h.get? FieldName.transferEncoding = none)
    (length : h.get? FieldName.contentLength = none) : bodyLength h = .ok 0 := by
  unfold bodyLength
  rw [coding, length]

/-! ## pieces of a head -/

theorem Scan.bind_done {α β : Type} (a : α) (rest : Bytes) (f : α → Bytes → Scan β) :
    (Scan.done a rest).bind f = f a rest := rfl

theorem Scan.map_done {α β : Type} (f : α → β) (a : α) (rest : Bytes) :
    (Scan.done a rest).map f = .done (f a) rest := rfl

theorem run_append {p : UInt8 → Bool} {text : Bytes} (h : ∀ b ∈ text, p b = true) {b : UInt8}
    (stop : p b = false) (s : Bytes) : run p (text ++ b :: s) = .done text (b :: s) := by
  induction text with
  | nil =>
    rw [List.nil_append, run_cons, stop]
    rfl
  | cons c text ih =>
    rw [List.cons_append, run_cons, if_pos (h c List.mem_cons_self),
      ih fun d hd => h d (List.mem_cons_of_mem c hd)]
    rfl

theorem literal_append (flaw : Flaw) (text s : Bytes) :
    literal flaw text (text ++ s) = .done () s := by
  induction text with
  | nil => rfl
  | cons b text ih =>
    rw [List.cons_append, literal, if_pos rfl]
    exact ih

theorem method_append {m : Bytes} (ne : m ≠ []) (token : ∀ b ∈ m, isToken b = true) (s : Bytes) :
    method (m ++ Bytes.space :: s) = .done m s := by
  unfold method
  rw [run_append token (by decide), Scan.bind_done, if_neg ne]
  rfl

theorem target_append {t : Bytes} (ne : t ≠ []) (octets : ∀ b ∈ t, isTarget b = true)
    (text : Utf8.decode? t ≠ none) (s : Bytes) : target (t ++ Bytes.space :: s) = .done t s := by
  unfold target
  rw [run_append octets (by decide), Scan.bind_done]
  show (if t = [] ∨ Utf8.decode? t = none then Scan.bad .token else .done t s) = _
  rw [if_neg (not_or.mpr ⟨ne, text⟩)]

theorem version_append {minor : Nat} (le : minor ≤ 1) (s : Bytes) :
    version (Bytes.ofAscii "HTTP/1." ++ (Bytes.decimal minor ++ s)) = .done minor s := by
  unfold version
  rw [literal_append, Scan.bind_done]
  rcases Nat.le_one_iff_eq_zero_or_eq_one.mp le with rfl | rfl <;> rfl

theorem blankLines_append {m : Bytes} (ne : m ≠ []) (token : ∀ b ∈ m, isToken b = true)
    (s : Bytes) : blankLines (m ++ s) = .done () (m ++ s) := by
  cases m with
  | nil => exact absurd rfl ne
  | cons b m =>
    have hb := token b List.mem_cons_self
    have lf : b ≠ Bytes.lf := fun e => absurd (e ▸ hb) (by decide)
    have cr : b ≠ Bytes.cr := fun e => absurd (e ▸ hb) (by decide)
    exact blankLines_of_ne (m ++ s) lf cr

end Wire

/-! ## fields -/

/-- a field that reads back from its line: a token for a name, and a value without controls and
without blanks at its ends -/
structure Field.Plain (f : Field) : Prop where
  name_ne_nil : f.name ≠ []
  name_token : ∀ b ∈ f.name, Wire.isToken b = true
  value : ∀ b ∈ f.value, Wire.isValue b = true
  first : ∀ b ∈ f.value.head?, Bytes.isBlank b = false
  last : ∀ b ∈ f.value.getLast?, Bytes.isBlank b = false

theorem Bytes.dropEndWhile_of_last {p : UInt8 → Bool} {s : Bytes}
    (h : ∀ b ∈ s.getLast?, p b = false) : dropEndWhile p s = s := by
  unfold dropEndWhile
  cases e : s.reverse with
  | nil => rw [List.dropWhile_nil, ← e, List.reverse_reverse]
  | cons b r =>
    have last : s.getLast? = some b := by rw [← List.head?_reverse, e]; rfl
    rw [List.dropWhile_cons, h b last, ← e]
    exact List.reverse_reverse s

namespace Wire

/-- `name: value\r\n` -/
def printField (f : Field) : Bytes :=
  f.name ++ Bytes.colon :: Bytes.space :: f.value ++ Bytes.crlf

/-! ## heads -/

/-- a head that reads back from its written form -/
structure Head.Plain (h : Head) : Prop where
  method_ne_nil : h.method ≠ []
  method_token : ∀ b ∈ h.method, isToken b = true
  target_ne_nil : h.target ≠ []
  target_octet : ∀ b ∈ h.target, isTarget b = true
  target_text : Utf8.decode? h.target ≠ none
  minor_le : h.minor ≤ 1
  field : ∀ f ∈ h.fields, f.Plain
  fields_le : h.fields.length ≤ maxFields

end Wire

end PipelinedHttp
