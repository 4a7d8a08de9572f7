import Mathlib.Data.List.Forall2
import PipelinedHttp.Proofs.Bytes
import PipelinedHttp.Proofs.Text.Repair
import PipelinedHttp.Request

/-!
# Query parameters

* `Unescaped`, `Stands`   the octets behind a name or value, and its text;
* `Lists`                 the pairs of a query: one for each piece that is not empty, in order;
* `decode_eq_iff`         all octets are read, and in this one way;
* `lists_encode`          a query that is written lists the pairs it is written for;
* `Uri.ofBytes?_encode`   and can stand in a target, behind any path;
* `query_params`          so no query of a request is lost.
-/

namespace PipelinedHttp

namespace Query
variable {s t : Bytes} {b : UInt8}

/-! ## escapes -/

/-- a digit is read in either case -/
theorem hexValue?_eq_some_iff {d v : UInt8} :
    hexValue? d = some v ↔ v < 16 ∧ (d = hexDigit v ∨ d = Bytes.lower (hexDigit v)) := by
  constructor
  · intro h
    have digit := forall_octet (P := fun d => (hexValue? d).all (fun v =>
      decide (v < 16 ∧ (d = hexDigit v ∨ d = Bytes.lower (hexDigit v)))) = true) (by decide +kernel) d
    rw [h] at digit
    exact of_decide_eq_true digit
  · have read : ∀ v : UInt8, v < 16 →
        hexValue? (hexDigit v) = some v ∧ hexValue? (Bytes.lower (hexDigit v)) = some v :=
      forall_octet (by decide +kernel)
    rintro ⟨small, rfl | rfl⟩
    · exact (read v small).1
    · exact (read v small).2

/-- `s` is `%`, two digits of the octet `b`, and `rest` -/
inductive Escape : Bytes → UInt8 → Bytes → Prop
  | mk {h l x y : UInt8} {rest : Bytes} : hexValue? h = some x → hexValue? l = some y →
      Escape (37 :: h :: l :: rest) (x * 16 + y) rest

/-- the octets that a name or value is written for: `+` is a space, and what is no escape stands for
itself -/
inductive Unescaped : Bytes → Bytes → Prop
  | nil : Unescaped [] []
  | space {s t : Bytes} : Unescaped s t → Unescaped (43 :: s) (32 :: t)
  | escape {s rest t : Bytes} {b : UInt8} : Escape s b rest → Unescaped rest t →
      Unescaped s (b :: t)
  | plain {s t : Bytes} {b : UInt8} : b ≠ 43 → (∀ o rest, ¬ Escape (b :: s) o rest) →
      Unescaped s t → Unescaped (b :: s) (b :: t)

theorem unescape_cons (no_escape : ∀ o rest, ¬ Escape (b :: s) o rest) :
    unescape (b :: s) = (if b = 43 then 32 else b) :: unescape s := by
  match s with
  | [] => rfl
  | [c] => rfl
  | h :: l :: rest =>
    rw [unescape]
    by_cases percent : b = 37
    · subst percent
      rw [if_pos rfl, if_neg (by decide)]
      cases high : hexValue? h with
      | none => rfl
      | some x =>
        cases low : hexValue? l with
        | none => rfl
        | some y => exact absurd (.mk high low) (no_escape _ _)
    · rw [if_neg percent]

theorem unescape_of_escape {rest : Bytes} (h : Escape s b rest) :
    unescape s = b :: unescape rest := by
  cases h with
  | mk high low => rw [unescape, if_pos rfl, high, low]

theorem Escape.length_lt {rest : Bytes} (h : Escape s b rest) : rest.length < s.length := by
  cases h with
  | mk _ _ =>
    simp only [List.length_cons]
    omega

theorem not_escape_of_ne {o : UInt8} {rest : Bytes} (ne : b ≠ 37) : ¬ Escape (b :: s) o rest := by
  intro h
  cases h
  exact ne rfl

theorem unescaped (s : Bytes) : Unescaped s (unescape s) := by
  match s with
  | [] => exact .nil
  | b :: s =>
    by_cases escaped : ∃ o rest, Escape (b :: s) o rest
    · obtain ⟨o, rest, escape⟩ := escaped
      have shorter : rest.length ≤ s.length := Nat.le_of_lt_succ escape.length_lt
      rw [unescape_of_escape escape]
      exact .escape escape (unescaped rest)
    · have no_escape : ∀ o rest, ¬ Escape (b :: s) o rest := fun o rest escape =>
        escaped ⟨o, rest, escape⟩
      rw [unescape_cons no_escape]
      by_cases plus : b = 43
      · subst plus
        exact .space (unescaped s)
      · rw [if_neg plus]
        exact .plain plus no_escape (unescaped s)
termination_by s.length

theorem unescape_eq_iff : unescape s = t ↔ Unescaped s t := by
  constructor
  · rintro rfl
    exact unescaped s
  · intro h
    induction h with
    | nil => rfl
    | space _ ih => rw [unescape_cons fun _ _ => not_escape_of_ne (by decide), ih, if_pos rfl]
    | escape escape _ ih => rw [unescape_of_escape escape, ih]
    | plain other no_escape _ ih => rw [unescape_cons no_escape, ih, if_neg other]

/-! ## pairs -/

/-- the text that a name or value is written for -/
def Stands (s : Bytes) (text : String) : Prop :=
  ∃ octets, Unescaped s octets ∧ Utf8.Repaired octets text.toList

/-- the first `=` of a piece is between its name and its value -/
def StandsPair (piece : Bytes) (pair : String × String) : Prop :=
  ∃ name value, Bytes.Parts 61 piece name value ∧ Stands name pair.1 ∧ Stands value pair.2

/-- a query is pieces with `&` between them; those that are not empty are the pairs, in order -/
def Lists (query : Bytes) (pairs : List (String × String)) : Prop :=
  ∃ pieces, Bytes.Pieces 38 query pieces
    ∧ List.Forall₂ StandsPair (pieces.filter (· ≠ [])) pairs

theorem decodeText_eq_iff {text : String} : decodeText s = text ↔ Stands s text := by
  unfold decodeText
  rw [Utf8.repair_eq_iff]
  constructor
  · exact fun h => ⟨unescape s, unescaped s, h⟩
  · rintro ⟨octets, escaped, repaired⟩
    rwa [unescape_eq_iff.mpr escaped]

theorem decodePair_eq_iff {pair : String × String} : decodePair s = pair ↔ StandsPair s pair := by
  constructor
  · rintro rfl
    exact ⟨_, _, Bytes.splitFirst_eq_iff.mp rfl, decodeText_eq_iff.mp rfl, decodeText_eq_iff.mp rfl⟩
  · rintro ⟨name, value, parts, text, text'⟩
    unfold decodePair
    rw [Bytes.splitFirst_eq_iff.mpr parts]
    exact Prod.ext (decodeText_eq_iff.mpr text) (decodeText_eq_iff.mpr text')

theorem map_decodePair_eq_iff {pieces : List Bytes} {pairs : List (String × String)} :
    pieces.map decodePair = pairs ↔ List.Forall₂ StandsPair pieces pairs := by
  have same : (fun piece pair => decodePair piece = pair) = StandsPair := by
    funext piece pair
    exact propext decodePair_eq_iff
  rw [← same, ← List.forall₂_map_left_iff, List.forall₂_eq_eq_eq]

theorem decode_eq_iff {pairs : List (String × String)} : decode s = pairs ↔ Lists s pairs := by
  unfold decode
  rw [map_decodePair_eq_iff]
  constructor
  · exact fun h => ⟨Bytes.splitOn 38 s, Bytes.splitOn_eq_iff.mp rfl, h⟩
  · rintro ⟨pieces, split, stand⟩
    rwa [Bytes.splitOn_eq_iff.mpr split]

example : decode (Bytes.ofAscii "a=b=c&&d&%4z+%FF")
    = [("a", "b=c"), ("d", ""), ("%4z \uFFFD", "")] := by decide +kernel

/-! ## what is written -/

theorem unescaped_escapeByte (b : UInt8) (h : Unescaped s t) :
    Unescaped (escapeByte b ++ s) (b :: t) := by
  unfold escapeByte
  by_cases plain : isPlain b = true
  · have other : b ≠ 43 ∧ b ≠ 37 :=
      forall_octet (P := fun b => isPlain b = true → b ≠ 43 ∧ b ≠ 37) (by decide +kernel) b plain
    rw [if_pos plain]
    exact .plain other.1 (fun _ _ => not_escape_of_ne other.2) h
  rw [if_neg plain]
  by_cases space : b = 32
  · rw [if_pos space, space]
    exact .space h
  rw [if_neg space]
  obtain ⟨high, low, value⟩ : b / 16 < 16 ∧ b % 16 < 16 ∧ b / 16 * 16 + b % 16 = b :=
    forall_octet (P := fun b => b / 16 < 16 ∧ b % 16 < 16 ∧ b / 16 * 16 + b % 16 = b)
      (by decide +kernel) b
  have escape : Escape ([37, hexDigit (b / 16), hexDigit (b % 16)] ++ s) (b / 16 * 16 + b % 16) s :=
    .mk (hexValue?_eq_some_iff.mpr ⟨high, .inl rfl⟩) (hexValue?_eq_some_iff.mpr ⟨low, .inl rfl⟩)
  rw [value] at escape
  exact .escape escape h

theorem stands_encodeText (text : String) : Stands (encodeText text) text := by
  refine ⟨Utf8.encode text, ?_, Utf8.repaired_encode text⟩
  unfold encodeText
  induction Utf8.encode text with
  | nil => exact .nil
  | cons b octets ih => exact unescaped_escapeByte b ih

/-- the octets of which names and values are written -/
def isWritten (b : UInt8) : Bool := isPlain b || b == 43 || b == 37

theorem encodeText_octet {text : String} (mem : b ∈ encodeText text) : isWritten b = true := by
  obtain ⟨o, _, there⟩ := List.mem_flatMap.mp mem
  have written : (escapeByte o).all isWritten = true :=
    forall_octet (P := fun o => (escapeByte o).all isWritten = true) (by decide +kernel) o
  exact List.all_eq_true.mp written b there

theorem encodePair_octet {pair : String × String} (mem : b ∈ encodePair pair) :
    isWritten b = true ∨ b = 61 := by
  rcases List.mem_append.mp mem with name | value
  · exact .inl (encodeText_octet name)
  · rcases List.mem_cons.mp value with sep | value
    · exact .inr sep
    · exact .inl (encodeText_octet value)

theorem encode_octet {pairs : List (String × String)} (mem : b ∈ encode pairs) :
    isWritten b = true ∨ b = 61 ∨ b = 38 := by
  match pairs with
  | [] => cases mem
  | [pair] =>
    have there : b ∈ encodePair pair := by simpa [encode] using mem
    exact (encodePair_octet there).imp_right .inl
  | pair :: pair' :: pairs =>
    have there : b ∈ encodePair pair ∨ b = 38 ∨ b ∈ encode (pair' :: pairs) := by
      simpa [encode, List.intercalate_cons_cons] using mem
    rcases there with first | sep | rest
    · exact (encodePair_octet first).imp_right .inl
    · exact .inr (.inr sep)
    · exact encode_octet rest

theorem standsPair_encodePair (pair : String × String) : StandsPair (encodePair pair) pair := by
  have clean : 61 ∉ encodeText pair.1 := fun mem => absurd (encodeText_octet mem) (by decide)
  exact ⟨_, _, .cut clean, stands_encodeText pair.1, stands_encodeText pair.2⟩

theorem encodePair_ne_nil (pair : String × String) : encodePair pair ≠ [] := by
  unfold encodePair
  simp

theorem lists_encode (pairs : List (String × String)) : Lists (encode pairs) pairs := by
  match pairs with
  | [] =>
    -- the empty query is one empty piece
    exact ⟨[[]], ⟨by simp, rfl, by simp⟩, .nil⟩
  | pair :: pairs =>
    have clean : ∀ piece ∈ (pair :: pairs).map encodePair, 38 ∉ piece := by
      intro piece mem sep
      obtain ⟨p, _, rfl⟩ := List.mem_map.mp mem
      exact absurd (encodePair_octet sep) (by decide)
    have filled : ((pair :: pairs).map encodePair).filter (· ≠ [])
        = (pair :: pairs).map encodePair := by
      refine List.filter_eq_self.mpr fun piece mem => ?_
      obtain ⟨p, _, rfl⟩ := List.mem_map.mp mem
      exact decide_eq_true (encodePair_ne_nil p)
    refine ⟨(pair :: pairs).map encodePair, ⟨List.cons_ne_nil _ _, rfl, clean⟩, ?_⟩
    rw [filled, List.forall₂_map_left_iff, List.forall₂_same]
    exact fun p _ => standsPair_encodePair p

theorem decode_encode (pairs : List (String × String)) : decode (encode pairs) = pairs :=
  decode_eq_iff.mpr (lists_encode pairs)

end Query

/-! ## in a target -/

namespace Uri

theorem pathAndQuery?_append {path query : Bytes} {text : String} (some : path ≠ [])
    (inPath : ∀ b ∈ path, isPathByte b = true) (inQuery : ∀ b ∈ query, isQueryByte b = true)
    (utf8 : Utf8.decode? (path ++ 63 :: query) = .some text) :
    pathAndQuery? (path ++ 63 :: query) = .some (path, .some query) := by
  have ends : ∀ b, isPathByte b = true → b ≠ 35 ∧ (b != 63) = true :=
    forall_octet (by decide +kernel)
  have hash : ∀ b, isQueryByte b = true → b ≠ 35 := forall_octet (by decide +kernel)
  have clean : 35 ∉ path ++ 63 :: query := by
    intro mem
    rcases List.mem_append.mp mem with mem | mem
    · exact (ends 35 (inPath 35 mem)).1 rfl
    · rcases List.mem_cons.mp mem with same | mem
      · cases same
      · exact hash 35 (inQuery 35 mem) rfl
  have kept : (path ++ 63 :: query).takeWhile (· != 35) = path ++ 63 :: query :=
    congrArg Prod.fst (Bytes.splitFirst_of_parts (.whole clean))
  have before : ∀ b ∈ path, (b != 63) = true := fun b mem => (ends b (inPath b mem)).2
  have octets : path.all isPathByte = true ∧ query.all isQueryByte = true :=
    ⟨List.all_eq_true.mpr inPath, List.all_eq_true.mpr inQuery⟩
  unfold pathAndQuery?
  simp only [kept, List.takeWhile_append_of_pos before, List.dropWhile_append_of_pos before, utf8]
  simp [octets, some]

/-- a query that is written is read behind any path -/
theorem ofBytes?_encode {path : Bytes} {text : String} (root : path.head? = some Bytes.slash)
    (inPath : ∀ b ∈ path, isPathByte b = true) (utf8 : Utf8.decode? path = some text)
    (pairs : List (String × String))
    (fits : (path ++ 63 :: Query.encode pairs).length ≤ maxLength) :
    ofBytes? (path ++ 63 :: Query.encode pairs)
      = some ⟨none, none, path, some (Query.encode pairs)⟩ := by
  have written : ∀ b ∈ Query.encode pairs, isQueryByte b = true ∧ b.toNat < 0x80 := fun b mem =>
    forall_octet (P := fun b => Query.isWritten b = true ∨ b = 61 ∨ b = 38 →
      isQueryByte b = true ∧ b.toNat < 0x80) (by decide +kernel) b (Query.encode_octet mem)
  have ascii : ∀ b ∈ 63 :: Query.encode pairs, b.toNat < 0x80 := by
    intro b mem
    rcases List.mem_cons.mp mem with rfl | mem
    · decide
    · exact (written b mem).2
  obtain ⟨_, read⟩ := Utf8.exists_decode?_append utf8 ascii
  match path with
  | [] => cases root
  | b :: path =>
    have slash : b = Bytes.slash := Option.some.inj root
    have cut := pathAndQuery?_append (List.cons_ne_nil b path) inPath
      (fun b mem => (written b mem).1) read
    unfold ofBytes?
    rw [if_neg (Nat.not_lt.mpr fits)]
    show (if b = Bytes.slash then _ else _) = _
    rw [if_pos slash, cut]
    rfl

end Uri

/-! ## in a request -/

namespace Request

/-- what is made of the query of a request -/
structure ReadsQuery (r : Request) (query : Bytes) : Prop where
  params : ∀ pairs, r.queryParams = pairs ↔ Query.Lists query pairs
  written : ∀ pairs, query = Query.encode pairs → r.queryParams = pairs
  /-- the value of a name is the first one -/
  first : ∀ name value, r.queryParam? name = some value ↔
    ∃ before after, r.queryParams = before ++ (name, value) :: after
      ∧ ∀ pair ∈ before, pair.1 ≠ name

/-- **No query is lost.**  The parameters of a request are the pairs of its query, whatever octets
that is made of, and those that have been written are read back. -/
theorem query_params (r : Request) {query : Bytes} (has : r.query = some query) :
    r.ReadsQuery query := by
  have read : r.queryParams = Query.decode query := by
    unfold queryParams
    rw [has]
  refine ⟨fun pairs => ?_, ?_, fun name value => ?_⟩
  · rw [read]
    exact Query.decode_eq_iff
  · rintro pairs rfl
    rw [read]
    exact Query.decode_encode pairs
  · unfold queryParam?
    rw [List.lookup_eq_some_iff]
    simp [ne_comm]

/-- names may come again, and names and values may be empty -/
theorem query_params_written :
    let query := Bytes.ofAscii "q=%C3%A9+%26%3D%25&=&q="
    let r := ofTarget .get ⟨none, none, [Bytes.slash], some query⟩ .http11
    r.ReadsQuery query ∧ r.queryParams = [("q", "é &=%"), ("", ""), ("q", "")] :=
  ⟨query_params _ rfl, (query_params _ rfl).written _ (by decide +kernel)⟩

end Request

end PipelinedHttp
