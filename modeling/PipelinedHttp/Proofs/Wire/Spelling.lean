import PipelinedHttp.Proofs.Bytes
import PipelinedHttp.Proofs.Wire.RoundTrip
import PipelinedHttp.Proofs.Wire.Whole

/-!
# Spellings of heads

A head can be written in many ways: with empty lines in front, with either of the two line ends, and
with blanks around the values.  A `Spelling` is a head with these choices made.  The scan of a head
reads spellings, whatever follows them, and it reads nothing else (`head_eq_done_iff`).

* `field_octets`, `fields_octets`, `head_octets`   a spelling is read, and `head_print` the one that is
                                                  written;
* `field_eq_done`, `fields_eq_done`, `head_eq_done`   what is read has been a spelling;
* `Head.Plain.toRequest_error`   a head that is read can only be refused for its target.
-/

namespace PipelinedHttp

namespace Bytes
variable {p : UInt8 → Bool} {s t : Bytes}

theorem dropEndWhile_append (h : ∀ b ∈ t, p b = true) :
    dropEndWhile p (s ++ t) = dropEndWhile p s := by
  unfold dropEndWhile
  rw [List.reverse_append, List.dropWhile_append_of_pos fun b hb => h b (List.mem_reverse.mp hb)]

/-- what is dropped has stood at the end, and is of the class -/
theorem exists_dropEndWhile_append (p : UInt8 → Bool) (s : Bytes) :
    ∃ t, s = dropEndWhile p s ++ t ∧ ∀ b ∈ t, p b = true := by
  refine ⟨(s.reverse.takeWhile p).reverse, ?_, ?_⟩
  · unfold dropEndWhile
    rw [← List.reverse_append, List.takeWhile_append_dropWhile, List.reverse_reverse]
  · intro b hb
    exact List.all_eq_true.mp List.all_takeWhile b (List.mem_reverse.mp hb)

theorem getLast?_dropEndWhile : ∀ b ∈ (dropEndWhile p s).getLast?, p b = false := by
  intro b hb
  unfold dropEndWhile at hb
  rw [List.getLast?_reverse] at hb
  have kept := List.head?_dropWhile_not p s.reverse
  rw [Option.mem_def.mp hb] at kept
  simpa using kept

end Bytes

namespace Wire

/-! ## the choices -/

inductive LineEnd where
  | lf
  | crlf
  deriving DecidableEq

def LineEnd.octets : LineEnd → Bytes
  | .lf => [Bytes.lf]
  | .crlf => Bytes.crlf

/-- a field on its line, with the blanks before and after its value -/
structure FieldLine where
  field : Field
  before : Bytes
  after : Bytes
  ending : LineEnd
  before_blank : ∀ b ∈ before, Bytes.isBlank b = true
  after_blank : ∀ b ∈ after, Bytes.isBlank b = true

def FieldLine.octets (l : FieldLine) : Bytes :=
  l.field.name ++ Bytes.colon :: (l.before ++ (l.field.value ++ (l.after ++ l.ending.octets)))

/-- a head as it is written -/
structure Spelling where
  /-- the empty lines in front -/
  leading : List LineEnd
  head : Head
  /-- the end of the request line -/
  ending : LineEnd
  lines : List FieldLine
  /-- the empty line behind the head -/
  last : LineEnd
  plain : head.Plain
  fields : lines.map FieldLine.field = head.fields

def Spelling.requestLine (l : Spelling) : Bytes :=
  l.head.method ++ Bytes.space :: (l.head.target ++ Bytes.space ::
    (Bytes.ofAscii "HTTP/1." ++ (Bytes.decimal l.head.minor ++ l.ending.octets)))

def Spelling.octets (l : Spelling) : Bytes :=
  l.leading.flatMap LineEnd.octets ++ (l.requestLine
    ++ (l.lines.flatMap FieldLine.octets ++ l.last.octets))

variable {s rest : Bytes} {flaw : Flaw}

/-! ## spellings are read -/

theorem lineEnd_octets (flaw : Flaw) (e : LineEnd) (s : Bytes) :
    lineEnd flaw (e.octets ++ s) = .done () s := by
  cases e <;> rfl

theorem LineEnd.exists_cons (e : LineEnd) (s : Bytes) :
    ∃ b more, e.octets ++ s = b :: more ∧ (b = Bytes.cr ∨ b = Bytes.lf) := by
  cases e with
  | lf => exact ⟨Bytes.lf, s, rfl, .inr rfl⟩
  | crlf => exact ⟨Bytes.cr, Bytes.lf :: s, rfl, .inl rfl⟩

theorem blankLines_octets (leading : List LineEnd) (s : Bytes) :
    blankLines (leading.flatMap LineEnd.octets ++ s) = blankLines s := by
  induction leading with
  | nil => rfl
  | cons e leading ih =>
    rw [List.flatMap_cons, List.append_assoc]
    cases e with
    | lf => exact (blankLines_lf _).trans ih
    | crlf => exact (blankLines_crlf _).trans ih

theorem run_lineEnd {p : UInt8 → Bool} {text : Bytes} (h : ∀ b ∈ text, p b = true)
    (cr : p Bytes.cr = false) (lf : p Bytes.lf = false) (e : LineEnd) (s : Bytes) :
    run p (text ++ (e.octets ++ s)) = .done text (e.octets ++ s) := by
  obtain ⟨b, more, cons, first⟩ := e.exists_cons s
  rw [cons]
  apply run_append h
  rcases first with rfl | rfl
  · exact cr
  · exact lf

theorem isValue_of_isBlank {b : UInt8} (h : Bytes.isBlank b = true) : isValue b = true := by
  unfold Bytes.isBlank at h
  rcases Bool.or_eq_true_iff.mp h with e | e <;> rw [eq_of_beq e] <;> decide

/-- the blanks in front of a value, and the value with those behind it; without a value all the blanks
are in front -/
theorem FieldLine.exists_blanks (l : FieldLine) (plain : l.field.Plain) :
    ∃ blanks text, l.before ++ (l.field.value ++ l.after) = blanks ++ text
      ∧ (∀ b ∈ blanks, Bytes.isBlank b = true) ∧ (∀ b ∈ text, isValue b = true)
      ∧ (∀ b ∈ text.head?, Bytes.isBlank b = false)
      ∧ Bytes.dropEndWhile Bytes.isBlank text = l.field.value := by
  cases value : l.field.value with
  | nil =>
    refine ⟨l.before ++ l.after, [], by simp, ?_, nofun, nofun, rfl⟩
    intro b hb
    exact (List.mem_append.mp hb).elim (l.before_blank b) (l.after_blank b)
  | cons c v =>
    have first := plain.first
    have last := plain.last
    have inner := plain.value
    rw [value] at first last inner
    refine ⟨l.before, (c :: v) ++ l.after, rfl, l.before_blank, ?_, first, ?_⟩
    · intro b hb
      rcases List.mem_append.mp hb with hb | hb
      · exact inner b hb
      · exact isValue_of_isBlank (l.after_blank b hb)
    · rw [Bytes.dropEndWhile_append l.after_blank, Bytes.dropEndWhile_of_last last]

theorem field_octets (l : FieldLine) (plain : l.field.Plain) (s : Bytes) :
    field (l.octets ++ s) = .done l.field s := by
  obtain ⟨blanks, text, split, blank, value, first, dropped⟩ := l.exists_blanks plain
  have octets : l.octets ++ s = l.field.name ++ Bytes.colon :: (blanks ++ (text ++ (l.ending.octets ++ s))) := by
    rw [← List.append_assoc blanks, ← split]
    simp [FieldLine.octets]
  have skip : run Bytes.isBlank (blanks ++ (text ++ (l.ending.octets ++ s)))
      = .done blanks (text ++ (l.ending.octets ++ s)) := by
    cases text with
    | nil => exact run_lineEnd blank rfl rfl l.ending s
    | cons b text => exact run_append blank (first b rfl) _
  have take : run isValue (text ++ (l.ending.octets ++ s)) = .done text (l.ending.octets ++ s) :=
    run_lineEnd value (by decide) (by decide) l.ending s
  rw [octets]
  unfold field
  rw [run_append plain.name_token (by decide), Scan.bind_done, if_neg plain.name_ne_nil]
  show (run Bytes.isBlank (blanks ++ (text ++ (l.ending.octets ++ s)))).bind _ = _
  rw [skip, Scan.bind_done, take, Scan.bind_done, lineEnd_octets, Scan.map_done, dropped]

theorem fields_last (room : Nat) (e : LineEnd) (s : Bytes) :
    fields room (e.octets ++ s) = .done [] s := by
  cases room with
  | zero =>
    rw [fields_zero]
    cases e <;> rfl
  | succ room =>
    rw [fields_succ]
    cases e <;> rfl

theorem fields_line (l : FieldLine) (plain : l.field.Plain) (room : Nat) (s : Bytes) :
    fields (room + 1) (l.octets ++ s) = (fields room s).map (l.field :: ·) := by
  obtain ⟨b, name, e⟩ := List.exists_cons_of_ne_nil plain.name_ne_nil
  have token : isToken b = true := plain.name_token b (by rw [e]; exact List.mem_cons_self)
  have notEnd : ¬ (b = Bytes.cr ∨ b = Bytes.lf) := by
    rintro (rfl | rfl) <;> exact absurd token (by decide)
  have peek : peek (l.octets ++ s) = .done b (l.octets ++ s) := by
    unfold FieldLine.octets
    rw [e]
    rfl
  rw [fields_succ]
  dsimp only
  rw [peek, Scan.bind_done, if_neg notEnd, field_octets l plain, Scan.bind_done]

theorem fields_octets {lines : List FieldLine} {room : Nat} (plain : ∀ l ∈ lines, l.field.Plain)
    (le : lines.length ≤ room) (last : LineEnd) (s : Bytes) :
    fields room (lines.flatMap FieldLine.octets ++ (last.octets ++ s))
      = .done (lines.map FieldLine.field) s := by
  induction lines generalizing room with
  | nil => exact fields_last room last s
  | cons l lines ih =>
    obtain ⟨first, others⟩ := List.forall_mem_cons.mp plain
    obtain ⟨room, rfl⟩ : ∃ n, room = n + 1 := by
      rw [List.length_cons] at le
      exact ⟨room - 1, by omega⟩
    rw [List.flatMap_cons, List.append_assoc, fields_line l first,
      ih others (Nat.le_of_succ_le_succ le)]
    rfl

namespace Spelling

theorem plain_line (l : Spelling) : ∀ line ∈ l.lines, line.field.Plain := by
  intro line hl
  apply l.plain.field
  rw [← l.fields]
  exact List.mem_map_of_mem hl

theorem length_lines_le (l : Spelling) : l.lines.length ≤ maxFields := by
  have le := l.plain.fields_le
  rwa [← l.fields, List.length_map] at le

end Spelling

/-- a spelling is read, whatever follows it -/
theorem head_octets (l : Spelling) (s : Bytes) : head (l.octets ++ s) = .done l.head s := by
  have split : l.octets ++ s = l.leading.flatMap LineEnd.octets ++ (l.head.method ++ Bytes.space ::
      (l.head.target ++ Bytes.space :: (Bytes.ofAscii "HTTP/1." ++ (Bytes.decimal l.head.minor
        ++ (l.ending.octets ++ (l.lines.flatMap FieldLine.octets ++ (l.last.octets ++ s))))))) := by
    simp only [Spelling.octets, Spelling.requestLine, List.append_assoc, List.cons_append]
  have plain := l.plain
  rw [split]
  unfold head
  rw [blankLines_octets, blankLines_append plain.method_ne_nil plain.method_token, Scan.bind_done,
    method_append plain.method_ne_nil plain.method_token, Scan.bind_done,
    target_append plain.target_ne_nil plain.target_octet plain.target_text, Scan.bind_done,
    version_append plain.minor_le, Scan.bind_done, lineEnd_octets, Scan.bind_done,
    fields_octets l.plain_line l.length_lines_le, Scan.map_done, l.fields]

/-! ## the spelling of a client -/

def FieldLine.ofField (f : Field) : FieldLine :=
  ⟨f, [Bytes.space], [], .crlf, List.forall_mem_singleton.mpr rfl, nofun⟩

theorem FieldLine.octets_ofField (f : Field) : (ofField f).octets = printField f := by
  simp [octets, ofField, printField, LineEnd.octets]

/-- the one spelling that is written -/
def Head.Plain.spelling {h : Head} (p : h.Plain) : Spelling where
  leading := []
  head := h
  ending := .crlf
  lines := h.fields.map FieldLine.ofField
  last := .crlf
  plain := p
  fields := by
    rw [List.map_map]
    exact List.map_id _

theorem octets_spelling {h : Head} (p : h.Plain) : p.spelling.octets = h.print := by
  have lines : p.spelling.lines.flatMap FieldLine.octets = h.fields.flatMap printField := by
    show (h.fields.map FieldLine.ofField).flatMap FieldLine.octets = _
    rw [List.flatMap_map]
    exact congrArg h.fields.flatMap (funext FieldLine.octets_ofField)
  have print : h.print = h.method ++ Bytes.space :: h.target ++ Bytes.space :: Bytes.ofAscii "HTTP/1."
      ++ Bytes.decimal h.minor ++ Bytes.crlf ++ h.fields.flatMap printField ++ Bytes.crlf := rfl
  rw [Spelling.octets, lines, print]
  simp [Spelling.requestLine, Head.Plain.spelling, LineEnd.octets]

/-- a head reads back from its written form, whatever follows -/
theorem head_print {h : Head} (p : h.Plain) (s : Bytes) : head (h.print ++ s) = .done h s := by
  rw [← octets_spelling p]
  exact head_octets p.spelling s

/-! ## what is read has been a spelling -/

section
variable {α β : Type} {x : Scan α} {b : β}

theorem Scan.bind_eq_done {f : α → Bytes → Scan β} (h : x.bind f = .done b rest) :
    ∃ a middle, x = .done a middle ∧ f a middle = .done b rest := by
  cases x with
  | done a middle => exact ⟨a, middle, rfl, h⟩
  | short => cases h
  | bad flaw => cases h

theorem Scan.map_eq_done {f : α → β} (h : x.map f = .done b rest) :
    ∃ a, x = .done a rest ∧ f a = b := by
  obtain ⟨a, middle, e, done⟩ := Scan.bind_eq_done h
  cases done
  exact ⟨a, e, rfl⟩

end

theorem run_eq_done {p : UInt8 → Bool} {text : Bytes} (h : run p s = .done text rest) :
    s = text ++ rest ∧ (∀ b ∈ text, p b = true) ∧ ∀ b ∈ rest.head?, p b = false := by
  unfold run at h
  cases stop : s.dropWhile p with
  | nil =>
    rw [stop] at h
    cases h
  | cons b more =>
    rw [stop] at h
    cases h
    refine ⟨?_, List.all_eq_true.mp List.all_takeWhile, ?_⟩
    · rw [← stop, List.takeWhile_append_dropWhile]
    · intro c hc
      have kept := List.head?_dropWhile_not p s
      rw [stop] at kept
      cases hc
      simpa using kept

theorem literal_eq_done {text : Bytes} (h : literal flaw text s = .done () rest) :
    s = text ++ rest := by
  induction text generalizing s with
  | nil =>
    cases h
    rfl
  | cons e text ih =>
    cases s with
    | nil => cases h
    | cons b s =>
      unfold literal at h
      split at h
      · rename_i same
        rw [same, ih h]
        rfl
      · cases h

theorem lineEnd_eq_done (h : lineEnd flaw s = .done () rest) :
    ∃ e : LineEnd, s = e.octets ++ rest := by
  cases s with
  | nil => cases h
  | cons b s =>
    change (if b = Bytes.lf then Scan.done () s
      else if b = Bytes.cr then literal flaw [Bytes.lf] s else .bad flaw) = _ at h
    split at h
    · rename_i lf
      cases h
      exact ⟨.lf, by rw [lf]; rfl⟩
    · split at h
      · rename_i cr
        rw [cr, literal_eq_done h]
        exact ⟨.crlf, rfl⟩
      · cases h

theorem blankLines_eq_done (h : blankLines s = .done () rest) :
    ∃ leading : List LineEnd, s = leading.flatMap LineEnd.octets ++ rest := by
  fun_induction blankLines s with
  | case1 => cases h
  | case2 s ih =>
    obtain ⟨leading, rfl⟩ := ih h
    exact ⟨.lf :: leading, rfl⟩
  | case3 => cases h
  | case4 s _ ih =>
    obtain ⟨leading, rfl⟩ := ih h
    exact ⟨.crlf :: leading, rfl⟩
  | case5 => cases h
  | case6 =>
    cases h
    exact ⟨[], rfl⟩

theorem method_eq_done {m : Bytes} (h : method s = .done m rest) :
    s = m ++ Bytes.space :: rest ∧ m ≠ [] ∧ ∀ b ∈ m, isToken b = true := by
  obtain ⟨m', middle, read, more⟩ := Scan.bind_eq_done h
  obtain ⟨split, token, -⟩ := run_eq_done read
  split at more
  · cases more
  · rename_i ne
    obtain ⟨u, blank, rfl⟩ := Scan.map_eq_done more
    rw [split, literal_eq_done blank]
    exact ⟨rfl, ne, token⟩

theorem target_eq_done {t : Bytes} (h : target s = .done t rest) :
    s = t ++ Bytes.space :: rest ∧ t ≠ [] ∧ (∀ b ∈ t, isTarget b = true)
      ∧ Utf8.decode? t ≠ none := by
  obtain ⟨t', middle, read, more⟩ := Scan.bind_eq_done h
  obtain ⟨split, octets, -⟩ := run_eq_done read
  obtain ⟨u, middle', blank, end_⟩ := Scan.bind_eq_done more
  split at end_
  · cases end_
  · rename_i sound
    cases end_
    obtain ⟨ne, text⟩ := not_or.mp sound
    rw [split, literal_eq_done blank]
    exact ⟨rfl, ne, octets, text⟩

theorem version_eq_done {minor : Nat} (h : version s = .done minor rest) :
    s = Bytes.ofAscii "HTTP/1." ++ (Bytes.decimal minor ++ rest) ∧ minor ≤ 1 := by
  obtain ⟨u, middle, text, more⟩ := Scan.bind_eq_done h
  obtain ⟨b, middle', digit, end_⟩ := Scan.bind_eq_done more
  rw [literal_eq_done text]
  cases middle with
  | nil => cases digit
  | cons c after =>
    cases digit
    split at end_
    · rename_i zero
      cases end_
      exact ⟨by rw [zero]; rfl, Nat.zero_le 1⟩
    · split at end_
      · rename_i one
        cases end_
        exact ⟨by rw [one]; rfl, Nat.le_refl 1⟩
      · cases end_

theorem head?_dropEndWhile {p : UInt8 → Bool} {v : Bytes}
    (first : ∀ b ∈ (v ++ s).head?, p b = false) :
    ∀ b ∈ (Bytes.dropEndWhile p v).head?, p b = false := by
  intro b hb
  obtain ⟨t, split, -⟩ := Bytes.exists_dropEndWhile_append p v
  apply first
  rw [split, List.append_assoc, List.head?_append, Option.mem_def.mp hb]
  rfl

theorem field_eq_done {f : Field} (h : field s = .done f rest) :
    ∃ l : FieldLine, s = l.octets ++ rest ∧ l.field = f ∧ f.Plain := by
  obtain ⟨name, s₁, read, more⟩ := Scan.bind_eq_done h
  split at more
  · cases more
  · rename_i ne
    obtain ⟨u, s₂, colon, more₂⟩ := Scan.bind_eq_done more
    obtain ⟨blanks, s₃, skipped, more₃⟩ := Scan.bind_eq_done more₂
    obtain ⟨value, s₄, taken, more₄⟩ := Scan.bind_eq_done more₃
    obtain ⟨u', line, rfl⟩ := Scan.map_eq_done more₄
    obtain ⟨nameSplit, token, -⟩ := run_eq_done read
    obtain ⟨blankSplit, before_blank, first⟩ := run_eq_done skipped
    obtain ⟨valueSplit, octets, -⟩ := run_eq_done taken
    obtain ⟨ending, lineSplit⟩ := lineEnd_eq_done line
    obtain ⟨after, dropped, after_blank⟩ := Bytes.exists_dropEndWhile_append Bytes.isBlank value
    rw [valueSplit] at first
    refine ⟨⟨_, blanks, after, ending, before_blank, after_blank⟩, ?_, rfl, ne, token, ?_,
      head?_dropEndWhile first, Bytes.getLast?_dropEndWhile⟩
    · have line : s₃ = Bytes.dropEndWhile Bytes.isBlank value ++ (after ++ (ending.octets ++ rest)) :=
        calc s₃ = value ++ s₄ := valueSplit
          _ = (Bytes.dropEndWhile Bytes.isBlank value ++ after) ++ s₄ := by rw [← dropped]
          _ = _ := by rw [lineSplit, List.append_assoc]
      rw [nameSplit, literal_eq_done colon, blankSplit, line]
      simp [FieldLine.octets]
    · intro b hb
      apply octets
      rw [dropped]
      exact List.mem_append_left after hb

theorem peek_eq_done {b : UInt8} (h : peek s = .done b rest) : rest = s := by
  cases s with
  | nil => cases h
  | cons c s =>
    cases h
    rfl

/-- the empty line behind the fields -/
theorem last_eq_done {fs : List Field}
    (h : ((lineEnd flaw s).map fun _ => ([] : List Field)) = .done fs rest) :
    ∃ last : LineEnd, s = last.octets ++ rest ∧ fs = [] := by
  obtain ⟨u, read, rfl⟩ := Scan.map_eq_done h
  obtain ⟨last, rfl⟩ := lineEnd_eq_done read
  exact ⟨last, rfl, rfl⟩

theorem fields_eq_done {room : Nat} {fs : List Field} (h : fields room s = .done fs rest) :
    ∃ (lines : List FieldLine) (last : LineEnd),
      s = lines.flatMap FieldLine.octets ++ (last.octets ++ rest)
        ∧ lines.map FieldLine.field = fs ∧ (∀ f ∈ fs, f.Plain) ∧ fs.length ≤ room := by
  induction room generalizing s fs with
  | zero =>
    rw [fields_zero] at h
    obtain ⟨b, s₁, first, more⟩ := Scan.bind_eq_done h
    rw [peek_eq_done first] at more
    split at more
    · obtain ⟨last, rfl, rfl⟩ := last_eq_done more
      exact ⟨[], last, rfl, rfl, nofun, Nat.le_refl 0⟩
    · obtain ⟨f, s₂, -, end_⟩ := Scan.bind_eq_done more
      cases end_
  | succ room ih =>
    rw [fields_succ] at h
    obtain ⟨b, s₁, first, more⟩ := Scan.bind_eq_done h
    rw [peek_eq_done first] at more
    split at more
    · obtain ⟨last, rfl, rfl⟩ := last_eq_done more
      exact ⟨[], last, rfl, rfl, nofun, Nat.zero_le _⟩
    · obtain ⟨f, s₂, read, end_⟩ := Scan.bind_eq_done more
      obtain ⟨fs', later, rfl⟩ := Scan.map_eq_done end_
      obtain ⟨l, rfl, rfl, plain⟩ := field_eq_done read
      obtain ⟨lines, last, rfl, rfl, plains, le⟩ := ih later
      refine ⟨l :: lines, last, by simp, rfl, ?_, Nat.succ_le_succ le⟩
      exact List.forall_mem_cons.mpr ⟨plain, plains⟩

theorem head_eq_done {h : Head} (read : head s = .done h rest) :
    ∃ l : Spelling, s = l.octets ++ rest ∧ l.head = h := by
  obtain ⟨u, s₁, blank, read⟩ := Scan.bind_eq_done read
  obtain ⟨m, s₂, method, read⟩ := Scan.bind_eq_done read
  obtain ⟨t, s₃, target, read⟩ := Scan.bind_eq_done read
  obtain ⟨minor, s₄, version, read⟩ := Scan.bind_eq_done read
  obtain ⟨u', s₅, lineEnd, read⟩ := Scan.bind_eq_done read
  obtain ⟨fs, fields, rfl⟩ := Scan.map_eq_done read
  obtain ⟨leading, rfl⟩ := blankLines_eq_done blank
  obtain ⟨rfl, method_ne_nil, method_token⟩ := method_eq_done method
  obtain ⟨rfl, target_ne_nil, target_octet, target_text⟩ := target_eq_done target
  obtain ⟨rfl, minor_le⟩ := version_eq_done version
  obtain ⟨ending, rfl⟩ := lineEnd_eq_done lineEnd
  obtain ⟨lines, last, rfl, map, field, fields_le⟩ := fields_eq_done fields
  exact ⟨⟨leading, ⟨m, t, minor, fs⟩, ending, lines, last, ⟨method_ne_nil, method_token,
    target_ne_nil, target_octet, target_text, minor_le, field, fields_le⟩, map⟩,
    by simp [Spelling.octets, Spelling.requestLine], rfl⟩

/-- **The grammar of heads.**  The scan reads spellings, and nothing else. -/
theorem head_eq_done_iff {h : Head} :
    head s = .done h rest ↔ ∃ l : Spelling, s = l.octets ++ rest ∧ l.head = h := by
  constructor
  · exact head_eq_done
  · rintro ⟨l, rfl, rfl⟩
    exact head_octets l rest

/-! ## what a spelling says -/

/-- the octets of a token are those of a method -/
theorem isToken_eq (b : UInt8) : isToken b = Method.alphabet.contains b :=
  forall_octet (P := fun b => isToken b = Method.alphabet.contains b) (by decide +kernel) b

theorem ofBytes?_of_token {m : Bytes} (ne : m ≠ []) (token : ∀ b ∈ m, isToken b = true) :
    ∃ method, Method.ofBytes? m = some method ∧ method.name = m := by
  have all : m.all Method.alphabet.contains = true :=
    List.all_eq_true.mpr fun b hb => (isToken_eq b).symm.trans (token b hb)
  exact ⟨⟨m, ne, List.all_eq_true.mp all⟩, dif_pos ⟨ne, all⟩, rfl⟩

namespace Head.Plain
variable {h : Head} (plain : h.Plain)
include plain

theorem exists_version :
    ∃ version, versionOfMinor? h.minor = some version ∧ (version = .http10 ∨ version = .http11) := by
  rcases Nat.le_one_iff_eq_zero_or_eq_one.mp plain.minor_le with e | e <;> rw [e]
  · exact ⟨.http10, rfl, .inl rfl⟩
  · exact ⟨.http11, rfl, .inr rfl⟩

/-- a head that is read can only be refused for its target -/
theorem toRequest_error {e : ReadError} (refused : h.toRequest = .error e) : e = .invalidTarget := by
  obtain ⟨version, read, -⟩ := plain.exists_version
  obtain ⟨method, token, -⟩ := ofBytes?_of_token plain.method_ne_nil plain.method_token
  unfold Head.toRequest at refused
  rw [read, token] at refused
  dsimp only at refused
  split at refused
  · cases refused
    rfl
  · cases refused

theorem toRequest_ok {r : Request} (said : h.toRequest = .ok r) :
    (r.version = .http10 ∨ r.version = .http11) ∧ r.method.name = h.method
      ∧ r.headers = ⟨h.fields⟩ ∧ r.body = none := by
  obtain ⟨version, read, one⟩ := plain.exists_version
  obtain ⟨method, token, name⟩ := ofBytes?_of_token plain.method_ne_nil plain.method_token
  obtain ⟨headers, body⟩ := bare_of_toRequest said
  unfold Head.toRequest at said
  rw [read, token] at said
  dsimp only at said
  split at said
  · cases said
  · cases said
    exact ⟨one, name, headers, body⟩

end Head.Plain

/-- the octets of a spelling are a head on the wire -/
def Spelling.heading (l : Spelling) : Heading where
  opening := l.octets
  head := l.head
  read := by
    have read := head_octets l []
    rwa [List.append_nil] at read

end Wire

end PipelinedHttp
