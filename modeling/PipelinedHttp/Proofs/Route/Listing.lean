import Mathlib.Data.List.TakeWhile
import PipelinedHttp.Route.Tree

/-!
# Listings of routes

What a table of routes means, without its tree.  A listing is the set of its routes, each known by
the shape of its pattern: octets, parameters, and possibly a rest.

* `Takes`     a route takes a path if the path is its shape with values in the place of the
              parameters, and each value is as short as the listing allows: among the segment ends
              that stand behind this parameter in any route, the longest that fits is the one that
              counts, and a route with another end there has lost;
* `Prefers`   of two routes the one counts for more that has text where the other has a parameter;
* `Outcome`   what a lookup has to give: of the routes that take the path the one that counts for
              most, and nothing only if there is none (`Outcome.unique`).

The other lemmas say what becomes of all this behind a text (`takes_literal_iff`) and behind a
parameter (`takes_param_iff`), and how outcomes are put together (`Outcome.front`,
`Outcome.orElse`).
-/

namespace PipelinedHttp.Route
variable {α : Type}

/-! ## shapes -/

/-- a piece of a pattern without the name that a parameter is given -/
inductive Step where
  | byte (b : UInt8)
  | param
  | rest
  deriving DecidableEq

abbrev Shape := List Step

def Piece.step : Piece → Step
  | .byte c => .byte c.byte
  | .param _ _ => .param
  | .rest _ => .rest

def Pattern.shape (p : Pattern) : Shape := p.map Piece.step

@[simp]
theorem Pattern.shape_nil : Pattern.shape [] = [] := rfl

@[simp]
theorem Pattern.shape_cons (q : Piece) (p : Pattern) :
    Pattern.shape (q :: p) = q.step :: p.shape := rfl

/-- the shape of a text -/
def literal (s : Bytes) : Shape := s.map .byte

theorem literal_append (s t : Bytes) : literal (s ++ t) = literal s ++ literal t :=
  List.map_append

theorem literal_inj {s t : Bytes} : literal s = literal t ↔ s = t := by
  refine List.map_inj_right fun a b h => ?_
  cases h
  rfl

/-- the first shape has text where the two part, and the second has not -/
def Prefers : Shape → Shape → Prop
  | .byte _ :: _, .param :: _ => True
  | .byte _ :: _, .rest :: _ => True
  | a :: s, b :: t => a = b ∧ Prefers s t
  | _, _ => False

theorem prefers_cons {a : Step} {s t : Shape} : Prefers (a :: s) (a :: t) ↔ Prefers s t := by
  cases a <;> simp [Prefers]

theorem prefers_append {front s t : Shape} : Prefers (front ++ s) (front ++ t) ↔ Prefers s t := by
  induction front with
  | nil => exact Iff.rfl
  | cons a front ih => exact prefers_cons.trans ih

theorem prefers_of_ne {a b : Step} {s t : Shape} (ne : a ≠ b) :
    Prefers (a :: s) (b :: t) ↔ (∃ c, a = .byte c) ∧ ¬ ∃ c, b = .byte c := by
  cases a <;> cases b <;> simp_all [Prefers]

theorem Prefers.asymm {s t : Shape} (h : Prefers s t) : ¬ Prefers t s := by
  induction s generalizing t with
  | nil => exact False.elim h
  | cons a s ih =>
    cases t with
    | nil => exact id
    | cons b t =>
      by_cases same : a = b
      · subst same
        rw [prefers_cons] at h ⊢
        exact ih h
      · intro back
        exact ((prefers_of_ne same).mp h).2 ((prefers_of_ne (Ne.symm same)).mp back).1

/-! ## listings -/

/-- which shapes there are, and the routes that they belong to -/
abbrev Listing (α : Type) := Shape → Leaf α → Prop

namespace Listing

def empty : Listing α := fun _ _ => False

/-- what is left of the routes that begin with the given shape -/
def after (H : Listing α) (front : Shape) : Listing α := fun s l => H (front ++ s) l

/-- the routes with the given shape in front of them -/
def behind (front : Shape) (H : Listing α) : Listing α := fun s l => ∃ t, s = front ++ t ∧ H t l

def or (H K : Listing α) : Listing α := fun s l => H s l ∨ K s l

/-- the route that has no more pieces, if there is one -/
def ofEnd (leaf : Option (Leaf α)) : Listing α := fun s l => s = [] ∧ leaf = some l

/-- the listing with one more route -/
def plus (H : Listing α) (shape : Shape) (leaf : Leaf α) : Listing α :=
  fun s l => (s = shape ∧ l = leaf) ∨ H s l

section
variable {H K : Listing α} {shape s t : Shape} {leaf : Leaf α}

theorem ext (h : ∀ s l, H s l ↔ K s l) : H = K := by
  funext s l
  exact propext (h s l)

theorem after_append : H.after (s ++ t) = (H.after s).after t :=
  ext fun u l => by rw [after, after, after, List.append_assoc]

theorem after_behind : (H.behind s).after s = H := by
  refine ext fun u l => ⟨?_, fun h => ⟨u, rfl, h⟩⟩
  rintro ⟨u', e, h⟩
  rw [List.append_cancel_left e]
  exact h

@[simp]
theorem behind_nil : H.behind [] = H :=
  ext fun _ _ => ⟨fun ⟨_, e, h⟩ => e ▸ h, fun h => ⟨_, rfl, h⟩⟩

theorem behind_append : H.behind (s ++ t) = (H.behind t).behind s := by
  refine ext fun u l => ⟨?_, ?_⟩
  · rintro ⟨v, rfl, h⟩
    exact ⟨t ++ v, List.append_assoc s t v, v, rfl, h⟩
  · rintro ⟨_, rfl, v, rfl, h⟩
    exact ⟨v, (List.append_assoc s t v).symm, h⟩

@[simp]
theorem behind_empty : (empty : Listing α).behind s = empty :=
  ext fun _ _ => ⟨fun ⟨_, _, h⟩ => h, False.elim⟩

theorem or_comm : H.or K = K.or H := ext fun _ _ => Or.comm

@[simp]
theorem empty_or : empty.or H = H := ext fun _ _ => or_iff_right id

@[simp]
theorem or_empty : H.or empty = H := ext fun _ _ => or_iff_left id

@[simp]
theorem ofEnd_none : ofEnd none = (empty : Listing α) := ext fun _ _ => ⟨nofun, False.elim⟩

@[simp]
theorem ofEnd_some : ofEnd (some leaf) = empty.plus [] leaf := by
  refine ext fun s l => Iff.trans ?_ (or_iff_left id).symm
  rw [ofEnd, Option.some_inj, eq_comm (a := leaf)]

@[simp]
theorem plus_behind : (H.plus shape leaf).behind s = (H.behind s).plus (s ++ shape) leaf := by
  refine ext fun u l => ⟨?_, ?_⟩
  · rintro ⟨t, rfl, ⟨rfl, rfl⟩ | h⟩
    · exact .inl ⟨rfl, rfl⟩
    · exact .inr ⟨t, rfl, h⟩
  · rintro (⟨rfl, rfl⟩ | ⟨t, rfl, h⟩)
    · exact ⟨shape, rfl, .inl ⟨rfl, rfl⟩⟩
    · exact ⟨t, rfl, .inr h⟩

@[simp]
theorem plus_or : (H.plus shape leaf).or K = (H.or K).plus shape leaf :=
  ext fun _ _ => or_assoc

@[simp]
theorem or_plus : H.or (K.plus shape leaf) = (H.or K).plus shape leaf := by
  rw [or_comm, plus_or, or_comm]

end

end Listing

/-- The text that ends the segment of a parameter, and the others behind it: the text reaches
through the next slash, or there is no slash, and nothing comes behind it. -/
def Stops (stop : Bytes) (others : Shape) : Prop :=
  ∃ text, Bytes.slash ∉ text ∧ (stop = text ++ [Bytes.slash] ∨ stop = text ∧ others = [])

namespace Listing

/-- a route has this end behind a parameter -/
def IsStop (H : Listing α) (stop : Bytes) : Prop :=
  ∃ s l, Stops stop s ∧ H (.param :: (literal stop ++ s)) l

/-- no end of a route that fits has more octets -/
def Longest (H : Listing α) (segment stop : Bytes) : Prop :=
  ∀ value other, H.IsStop other → value ≠ [] → value ++ other = segment →
    other.length ≤ stop.length

end Listing

/-- the path is the shape with the values in the place of its parameters, and each value ends where
the longest end begins that fits -/
inductive Takes : Listing α → Shape → Bytes → List Bytes → Prop
  | nil {H} : Takes H [] [] []
  | byte {H} {b : UInt8} {s path values} : Takes (H.after [.byte b]) s path values →
      Takes H (.byte b :: s) (b :: path) values
  | param {H} {value stop : Bytes} {s path values} : value ≠ [] → Bytes.slash ∉ value →
      Stops stop s → H.Longest (value ++ stop) stop →
      Takes (H.after (.param :: literal stop)) s path values →
      Takes H (.param :: (literal stop ++ s)) (value ++ stop ++ path) (value :: values)
  | rest {H} {value : Bytes} : value ≠ [] → Takes H [.rest] value [value]

section
variable {H H' : Listing α} {s : Shape} {path : Bytes} {values : List Bytes}

theorem takes_nil_iff : Takes H [] path values ↔ path = [] ∧ values = [] := by
  constructor
  · rintro ⟨⟩
    exact ⟨rfl, rfl⟩
  · rintro ⟨rfl, rfl⟩
    exact .nil

/-- nothing but an end takes the empty path -/
theorem Takes.shape_nil (h : Takes H s path values) (none : path = []) : s = [] ∧ values = [] := by
  cases h with
  | nil => exact ⟨rfl, rfl⟩
  | byte => cases none
  | param some =>
    rw [List.append_assoc] at none
    exact absurd (List.append_eq_nil_iff.mp none).1 some
  | rest some => exact absurd none some

theorem takes_byte_iff {b c : UInt8} :
    Takes H (.byte b :: s) (c :: path) values
      ↔ b = c ∧ Takes (H.after [.byte b]) s path values := by
  constructor
  · rintro (_ | h)
    exact ⟨rfl, h⟩
  · rintro ⟨rfl, h⟩
    exact .byte h

theorem takes_rest_iff :
    Takes H (.rest :: s) path values ↔ s = [] ∧ path ≠ [] ∧ values = [path] := by
  constructor
  · rintro (_ | _ | _ | some)
    exact ⟨rfl, some, rfl⟩
  · rintro ⟨rfl, some, rfl⟩
    exact .rest some

/-- behind a text it is the routes behind that text that matter -/
theorem takes_literal_iff {text : Bytes} : Takes H (literal text ++ s) path values
    ↔ ∃ rest, path = text ++ rest ∧ Takes (H.after (literal text)) s rest values := by
  induction text generalizing H path with
  | nil => exact ⟨fun h => ⟨path, rfl, h⟩, fun ⟨_, e, h⟩ => e ▸ h⟩
  | cons b text ih =>
    have split : H.after (literal (b :: text)) = (H.after [.byte b]).after (literal text) :=
      Listing.after_append (s := [.byte b]) (t := literal text)
    rw [split, show literal (b :: text) ++ s = .byte b :: (literal text ++ s) from rfl]
    cases path with
    | nil => exact iff_of_false (fun h => nomatch (h.shape_nil rfl).1) fun ⟨_, e, _⟩ => nomatch e
    | cons c path =>
      rw [takes_byte_iff, ih]
      constructor
      · rintro ⟨rfl, rest, rfl, h⟩
        exact ⟨rest, rfl, h⟩
      · rintro ⟨rest, e, h⟩
        obtain ⟨rfl, rfl⟩ := List.cons_eq_cons.mp e
        exact ⟨rfl, rest, rfl, h⟩

/-- only the routes that begin alike matter -/
theorem Takes.congr {a : Step} (h : Takes H (a :: s) path values)
    (same : ∀ s l, H (a :: s) l ↔ H' (a :: s) l) : Takes H' (a :: s) path values := by
  have after (front : Shape) : H.after (a :: front) = H'.after (a :: front) := by
    funext s l
    exact propext (same (front ++ s) l)
  have stops (e : a = .param) (stop : Bytes) : H'.IsStop stop → H.IsStop stop := by
    subst e
    rintro ⟨s, l, stops, there⟩
    exact ⟨s, l, stops, (same _ l).mpr there⟩
  cases h with
  | byte h => exact .byte (after [] ▸ h)
  | param some one ends longest h =>
    refine .param some one ends (fun value other there => ?_) (after _ ▸ h)
    exact longest value other (stops rfl other there)
  | rest some => exact .rest some

end

/-! ## segments -/

/-- the octets up to the next slash -/
def segment (path : Bytes) : Bytes := path.takeWhile (· != Bytes.slash)

/-- the slash and what follows it -/
def behindSegment (path : Bytes) : Bytes := path.dropWhile (· != Bytes.slash)

/-- the segment with the slash that closes it, if there is one -/
def closed (path : Bytes) : Bytes := segment path ++ (behindSegment path).take 1

def behindClosed (path : Bytes) : Bytes := (behindSegment path).drop 1

theorem closed_append_behindClosed (path : Bytes) : closed path ++ behindClosed path = path := by
  rw [closed, behindClosed, List.append_assoc, List.take_append_drop]
  exact List.takeWhile_append_dropWhile

theorem ne_slash_of_notMem {text : Bytes} (none : Bytes.slash ∉ text) :
    ∀ b ∈ text, (b != Bytes.slash) = true :=
  fun _ mem => bne_iff_ne.mpr fun e => none (e ▸ mem)

theorem segment_of_slash {text : Bytes} (none : Bytes.slash ∉ text) (path : Bytes) :
    segment (text ++ Bytes.slash :: path) = text
      ∧ behindSegment (text ++ Bytes.slash :: path) = Bytes.slash :: path := by
  have all := ne_slash_of_notMem none
  constructor
  · show List.takeWhile _ _ = _
    rw [List.takeWhile_append_of_pos all, List.takeWhile_cons_of_neg (by simp), List.append_nil]
  · show List.dropWhile _ _ = _
    rw [List.dropWhile_append_of_pos all, List.dropWhile_cons_of_neg (by simp)]

theorem segment_of_notMem {text : Bytes} (none : Bytes.slash ∉ text) :
    segment text = text ∧ behindSegment text = [] := by
  have all := ne_slash_of_notMem none
  exact ⟨List.takeWhile_eq_self_iff.mpr all, List.dropWhile_eq_nil_iff.mpr all⟩

/-- a value and the end behind it make up a segment -/
theorem closed_append {value stop path : Bytes} {s : Shape} (one : Bytes.slash ∉ value)
    (stops : Stops stop s) (last : s = [] → path = []) :
    closed (value ++ stop ++ path) = value ++ stop
      ∧ behindClosed (value ++ stop ++ path) = path := by
  obtain ⟨text, none, rfl | ⟨rfl, rfl⟩⟩ := stops
  · have both : Bytes.slash ∉ value ++ text := fun mem => (List.mem_append.mp mem).elim one none
    have whole : value ++ (text ++ [Bytes.slash]) ++ path
        = value ++ text ++ Bytes.slash :: path := by simp
    obtain ⟨front, behind⟩ := segment_of_slash both path
    rw [whole, closed, behindClosed, front, behind, List.append_assoc]
    exact ⟨rfl, rfl⟩
  · have both : Bytes.slash ∉ value ++ stop := fun mem => (List.mem_append.mp mem).elim one none
    obtain ⟨front, behind⟩ := segment_of_notMem both
    rw [last rfl, List.append_nil, closed, behindClosed, front, behind, List.take_nil,
      List.append_nil]
    exact ⟨rfl, rfl⟩

/-- a parameter takes the front of a segment, and an end the rest of it -/
theorem takes_param_iff {H : Listing α} {t : Shape} {path : Bytes} {params : List Bytes} :
    Takes H (.param :: t) path params ↔ ∃ value stop s values, t = literal stop ++ s
      ∧ params = value :: values ∧ value ≠ [] ∧ Bytes.slash ∉ value ∧ Stops stop s
      ∧ closed path = value ++ stop ∧ H.Longest (closed path) stop
      ∧ Takes (H.after (.param :: literal stop)) s (behindClosed path) values := by
  constructor
  · intro h
    cases h with
    | @param _ value stop s path values some one stops longest h =>
      have last : s = [] → path = [] := fun e => (takes_nil_iff.mp (e ▸ h)).1
      obtain ⟨front, behind⟩ := closed_append one stops last
      exact ⟨value, stop, s, values, rfl, rfl, some, one, stops, front, front.symm ▸ longest,
        behind.symm ▸ h⟩
  · rintro ⟨value, stop, s, values, rfl, rfl, some, one, stops, front, longest, h⟩
    rw [front] at longest
    have whole := closed_append_behindClosed path
    rw [front] at whole
    rw [← whole]
    exact .param some one stops longest (whole.symm ▸ h)

/-! ## outcomes -/

/-- the routes that take a path, with the values of their parameters -/
def Listing.candidates (H : Listing α) (path : Bytes) (s : Shape) (l : Leaf α)
    (values : List Bytes) : Prop :=
  H s l ∧ Takes H s path values

/-- of the candidates the one that counts for most, and nothing only if there is none -/
def Outcome (C : Shape → Leaf α → List Bytes → Prop) : Option (Leaf α × List Bytes) → Prop
  | none => ∀ s l values, ¬ C s l values
  | some (l, values) => ∃ s, C s l values
    ∧ ∀ s' l' values', C s' l' values' → s' = s ∧ l' = l ∧ values' = values ∨ Prefers s s'

section
variable {C C' : Shape → Leaf α → List Bytes → Prop} {o o' : Option (Leaf α × List Bytes)}

theorem Outcome.unique (h : Outcome C o) (h' : Outcome C o') : o = o' := by
  cases o with
  | none =>
    cases o' with
    | none => rfl
    | some found =>
      obtain ⟨s, here, -⟩ := h'
      exact absurd here (h _ _ _)
  | some found =>
    obtain ⟨s, here, most⟩ := h
    cases o' with
    | none => exact absurd here (h' _ _ _)
    | some found' =>
      obtain ⟨s', here', most'⟩ := h'
      rcases most _ _ _ here' with ⟨-, leaf, values⟩ | before
      · exact congrArg some (Prod.ext leaf.symm values.symm)
      · rcases most' _ _ _ here with ⟨-, leaf, values⟩ | behind
        · exact congrArg some (Prod.ext leaf values)
        · exact absurd behind before.asymm

theorem Outcome.congr (h : Outcome C o) (same : ∀ s l values, C s l values ↔ C' s l values) :
    Outcome C' o := by
  have e : C = C' := by
    funext s l values
    exact propext (same s l values)
  exact e ▸ h

/-- all candidates have the same front, and what is behind it decides -/
theorem Outcome.front {front : Shape} {f : List Bytes → List Bytes} (h : Outcome C o)
    (same : ∀ s l values, C' s l values
      ↔ ∃ s' values', s = front ++ s' ∧ values = f values' ∧ C s' l values') :
    Outcome C' (o.map fun (l, values) => (l, f values)) := by
  cases o with
  | none =>
    intro s l values there
    obtain ⟨s', values', -, -, there⟩ := (same s l values).mp there
    exact h s' l values' there
  | some found =>
    obtain ⟨s, here, most⟩ := h
    refine ⟨front ++ s, (same _ _ _).mpr ⟨s, _, rfl, rfl, here⟩, fun s' l' values' there => ?_⟩
    obtain ⟨t, others, rfl, rfl, inner⟩ := (same _ _ _).mp there
    rcases most t l' others inner with ⟨rfl, rfl, rfl⟩ | before
    · exact .inl ⟨rfl, rfl, rfl⟩
    · exact .inr (prefers_append.mpr before)

/-- candidates that begin with text come before those that do not -/
theorem Outcome.orElse {D : Shape → Leaf α → List Bytes → Prop} (h : Outcome C o)
    (h' : Outcome C' o') (either : ∀ s l values, D s l values ↔ C s l values ∨ C' s l values)
    (text : ∀ s l values, C s l values → ∃ b t, s = .byte b :: t)
    (wild : ∀ s l values, C' s l values → ∃ t, s = .param :: t ∨ s = .rest :: t) :
    Outcome D (o <|> o') := by
  cases o with
  | none =>
    refine h'.congr fun s l values => ?_
    rw [either]
    exact (or_iff_right (h s l values)).symm
  | some found =>
    obtain ⟨s, here, most⟩ := h
    refine ⟨s, (either _ _ _).mpr (.inl here), fun s' l' values' there => ?_⟩
    rcases (either _ _ _).mp there with first | second
    · exact most s' l' values' first
    · obtain ⟨b, t, rfl⟩ := text _ _ _ here
      obtain ⟨t', rfl | rfl⟩ := wild _ _ _ second <;> exact .inr trivial

end

end PipelinedHttp.Route
