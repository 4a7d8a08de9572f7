import Mathlib.Data.List.Nodup
import PipelinedHttp.Proofs.Route.Listing

/-!
# Looking up in a tree

A tree of routes lists its routes by where they stand in it.  In a sound tree, `find` gives what the
listing says.

* `Tree.Has`        the routes of a tree;
* `Tree.Sound`      the branches of a node begin with different octets, and the segment ends below a
                    parameter are different texts, longer ones first;
* `Listing.candidates_or`   routes that part at once do not get in each other's way;
* `Forest.outcome_branches`, `Wild.outcome_param`   so a node looks in one of its branches, and a
                    parameter behind one of its ends;
* `Tree.outcome`    the route that is found is the one that counts for most.
-/

namespace PipelinedHttp.Route
variable {α : Type}

/-! ## the routes of a tree -/

mutual

def Tree.Has : Tree α → Listing α
  | .node _ text leaf branches wild =>
    ((Listing.ofEnd leaf).or (branches.Has.or wild.Has)).behind (literal (plain text))

def Forest.Has : Forest α → Listing α
  | .nil => Listing.empty
  | .cons t others => t.Has.or others.Has

def Wild.Has : Wild α → Listing α
  | .none => Listing.empty
  | .rest leaf => (Listing.ofEnd (some leaf)).behind [.rest]
  | .param _ leaf ends => ((Listing.ofEnd leaf).or ends.Has).behind [.param]

end

def Forest.trees : Forest α → List (Tree α)
  | .nil => []
  | .cons t others => t :: others.trees

theorem Forest.has_iff {f : Forest α} {s : Shape} {l : Leaf α} :
    f.Has s l ↔ ∃ t ∈ f.trees, t.Has s l := by
  induction f using Forest.trees.induct with
  | case1 => simp [Forest.Has, Forest.trees, Listing.empty]
  | case2 t others ih => simp [Forest.Has, Forest.trees, Listing.or, ih]

theorem Tree.text_of_has {t : Tree α} {s : Shape} {l : Leaf α} (h : t.Has s l) :
    ∃ s', s = literal t.text ++ s' := by
  cases t with
  | node =>
    rw [Tree.Has] at h
    obtain ⟨s', e, -⟩ := h
    exact ⟨s', e⟩

/-! ## sound trees -/

/-- a brace that is meant as text, and nothing else, has been written twice -/
def Cell.Clean (c : Cell) : Prop := c.escaped = (c.byte == openBrace || c.byte == closeBrace)

/-- the branches of a node begin with different octets -/
structure Forest.Branching (f : Forest α) : Prop where
  some : ∀ t ∈ f.trees, t.text ≠ []
  apart : (f.trees.map fun t => t.text.head?).Nodup

/-- the text ends a segment, and routes end behind it -/
structure Tree.Ending (t : Tree α) : Prop where
  some : t.text ≠ []
  has : ∃ s l, t.Has s l
  stops : ∀ s l, t.Has (literal t.text ++ s) l → Stops t.text s

/-- the ends of a segment are different texts, longer ones first -/
structure Forest.Ending (f : Forest α) : Prop where
  ending : ∀ t ∈ f.trees, t.Ending
  apart : (f.trees.map Tree.text).Nodup
  longer : f.trees.Pairwise fun t u => u.text.length ≤ t.text.length

mutual

def Tree.Sound : Tree α → Prop
  | .node _ text _ branches wild =>
    (∀ c ∈ text, c.Clean) ∧ branches.Sound ∧ branches.Branching ∧ wild.Sound

def Forest.Sound : Forest α → Prop
  | .nil => True
  | .cons t others => t.Sound ∧ others.Sound

def Wild.Sound : Wild α → Prop
  | .none => True
  | .rest _ => True
  | .param within _ ends => ends.Sound ∧ ends.Ending
    ∧ (within = false → ∀ t ∈ ends.trees, t.text = [Bytes.slash])

end

theorem Forest.sound_iff {f : Forest α} : f.Sound ↔ ∀ t ∈ f.trees, t.Sound := by
  induction f using Forest.trees.induct with
  | case1 => simp [Forest.Sound, Forest.trees]
  | case2 t others ih => simp [Forest.Sound, Forest.trees, ih]

/-! ## routes that part at once -/

/-- no route of the one begins like a route of the other -/
def Listing.Apart (H K : Listing α) : Prop :=
  ∀ a s s' l l', H (a :: s) l → ¬ K (a :: s') l'

theorem Listing.Apart.symm {H K : Listing α} (h : H.Apart K) : K.Apart H :=
  fun a s s' l l' second first => h a s' s l' l first second

theorem Listing.Apart.takes_iff {H K : Listing α} (apart : H.Apart K) {s : Shape} {l : Leaf α}
    (here : H s l) {path : Bytes} {values : List Bytes} :
    Takes (H.or K) s path values ↔ Takes H s path values := by
  cases s with
  | nil => rw [takes_nil_iff, takes_nil_iff]
  | cons a s =>
    have same (t : Shape) (m : Leaf α) : H.or K (a :: t) m ↔ H (a :: t) m :=
      or_iff_left (apart a s t l m here)
    exact ⟨fun h => h.congr same, fun h => h.congr fun t m => (same t m).symm⟩

/-- routes that part at once do not get in each other's way -/
theorem Listing.candidates_or {H K : Listing α} (apart : H.Apart K) (path : Bytes) (s : Shape)
    (l : Leaf α) (values : List Bytes) : (H.or K).candidates path s l values
      ↔ H.candidates path s l values ∨ K.candidates path s l values := by
  constructor
  · rintro ⟨here | here, takes⟩
    · exact .inl ⟨here, (apart.takes_iff here).mp takes⟩
    · exact .inr ⟨here, (apart.symm.takes_iff here).mp (or_comm ▸ takes)⟩
  · rintro (⟨here, takes⟩ | ⟨here, takes⟩)
    · exact ⟨.inl here, (apart.takes_iff here).mpr takes⟩
    · exact ⟨.inr here, or_comm (H := K) ▸ (apart.symm.takes_iff here).mpr takes⟩

/-- behind a text it is as without it -/
theorem Listing.candidates_behind {H : Listing α} {text path : Bytes} {s : Shape} {l : Leaf α}
    {values : List Bytes} : (H.behind (literal text)).candidates path s l values
      ↔ ∃ s' rest, s = literal text ++ s' ∧ path = text ++ rest
        ∧ H.candidates rest s' l values := by
  constructor
  · rintro ⟨⟨s', rfl, here⟩, takes⟩
    obtain ⟨rest, rfl, inner⟩ := takes_literal_iff.mp takes
    exact ⟨s', rest, rfl, rfl, here, after_behind (H := H) ▸ inner⟩
  · rintro ⟨s', rest, rfl, rfl, here, takes⟩
    refine ⟨⟨s', rfl, here⟩, takes_literal_iff.mpr ⟨rest, rfl, ?_⟩⟩
    exact (after_behind (H := H)).symm ▸ takes

theorem Outcome.behind {H : Listing α} {text rest : Bytes} {o : Option (Leaf α × List Bytes)}
    (h : Outcome (H.candidates rest) o) :
    Outcome ((H.behind (literal text)).candidates (text ++ rest)) o := by
  have same (s : Shape) (l : Leaf α) (values : List Bytes) :
      (H.behind (literal text)).candidates (text ++ rest) s l values
        ↔ ∃ s' values', s = literal text ++ s' ∧ values = id values'
          ∧ H.candidates rest s' l values' := by
    rw [Listing.candidates_behind]
    constructor
    · rintro ⟨s', rest', rfl, e, here⟩
      rw [← List.append_cancel_left e] at here
      exact ⟨s', values, rfl, rfl, here⟩
    · rintro ⟨s', _, rfl, rfl, here⟩
      exact ⟨s', rest, rfl, rfl, here⟩
  have front := h.front same
  have unchanged : o.map (fun r => (r.1, id r.2)) = o := Option.map_id_apply
  exact unchanged ▸ front

theorem Outcome.of_end {H : Listing α} {leaf : Option (Leaf α)}
    (same : ∀ l, H [] l ↔ leaf = some l) :
    Outcome (H.candidates []) (leaf.map fun l => (l, [])) := by
  have ends (s : Shape) (l : Leaf α) (values : List Bytes) (h : H.candidates [] s l values) :
      s = [] ∧ leaf = some l ∧ values = [] := by
    obtain ⟨here, takes⟩ := h
    obtain ⟨rfl, none⟩ := takes.shape_nil rfl
    exact ⟨rfl, (same l).mp here, none⟩
  cases leaf with
  | none =>
    intro s l values h
    cases (ends s l values h).2.1
  | some l =>
    refine ⟨[], ⟨(same l).mpr rfl, .nil⟩, fun s' l' values' h => ?_⟩
    obtain ⟨rfl, e, rfl⟩ := ends s' l' values' h
    exact .inl ⟨rfl, (Option.some.inj e).symm, rfl⟩

/-! ## branches -/

theorem Tree.head_of_has {t : Tree α} (some : t.text ≠ []) {s : Shape} {l : Leaf α}
    (h : t.Has s l) : ∃ b s', s = .byte b :: s' ∧ t.startsWith b = true := by
  obtain ⟨s', rfl⟩ := Tree.text_of_has h
  obtain ⟨b, text, e⟩ := List.exists_cons_of_ne_nil some
  refine ⟨b, literal text ++ s', ?_, ?_⟩
  · rw [e]
    rfl
  · rw [startsWith, e]
    exact beq_self_eq_true _

theorem Tree.startsWith_iff {t : Tree α} {b : UInt8} :
    t.startsWith b = true ↔ t.text.head? = some b := beq_iff_eq

theorem Tree.startsWith_of_takes {t : Tree α} (some : t.text ≠ []) {s : Shape} {l : Leaf α}
    (here : t.Has s l) {H : Listing α} {b : UInt8} {path : Bytes} {values : List Bytes}
    (takes : Takes H s (b :: path) values) : t.startsWith b = true := by
  obtain ⟨c, s', rfl, starts⟩ := Tree.head_of_has some here
  rw [← (takes_byte_iff.mp takes).1]
  exact starts

theorem Forest.Branching.first {f : Forest α} (h : f.Branching) {s : Shape} {l : Leaf α}
    (there : f.Has s l) : ∃ b t, s = .byte b :: t := by
  obtain ⟨t, mem, has⟩ := Forest.has_iff.mp there
  obtain ⟨b, s', e, -⟩ := Tree.head_of_has (h.some t mem) has
  exact ⟨b, s', e⟩

theorem Wild.first {w : Wild α} {s : Shape} {l : Leaf α} (there : w.Has s l) :
    ∃ t, s = .param :: t ∨ s = .rest :: t := by
  cases w with
  | none => exact there.elim
  | rest =>
    obtain ⟨t, e, -⟩ := there
    exact ⟨t, .inr e⟩
  | param within leaf ends =>
    obtain ⟨t, e, -⟩ := there
    exact ⟨t, .inl e⟩

/-- the path can only go on in the branch that begins with its first octet -/
theorem Forest.outcome_branches {f : Forest α} (branching : f.Branching)
    (outcome : ∀ t ∈ f.trees, ∀ path, Outcome (t.Has.candidates path) (t.find path))
    (b : UInt8) (path : Bytes) :
    Outcome (f.Has.candidates (b :: path)) (f.find b (b :: path)) := by
  induction f using Forest.trees.induct with
  | case1 => exact fun s l values h => h.1
  | case2 t others ih =>
    obtain ⟨some, apart⟩ := branching
    rw [Forest.trees, List.forall_mem_cons] at some outcome
    rw [Forest.trees, List.map_cons, List.nodup_cons] at apart
    have rest := ih ⟨some.2, apart.2⟩ outcome.2
    have other (c : UInt8) (here : t.startsWith c = true) (u : Tree α) (mem : u ∈ others.trees)
        (there : u.startsWith c = true) : False := by
      refine apart.1 (List.mem_map.mpr ⟨u, mem, ?_⟩)
      exact (Tree.startsWith_iff.mp there).trans (Tree.startsWith_iff.mp here).symm
    have alone : t.Has.Apart others.Has := by
      intro a s s' l l' here there
      obtain ⟨u, mem, has⟩ := Forest.has_iff.mp there
      obtain ⟨c, _, e, starts⟩ := Tree.head_of_has some.1 here
      obtain ⟨d, _, e', starts'⟩ := Tree.head_of_has (some.2 u mem) has
      have same := (List.cons_eq_cons.mp e).1.symm.trans (List.cons_eq_cons.mp e').1
      obtain rfl := Step.byte.inj same
      exact other c starts u mem starts'
    have either := Listing.candidates_or alone (b :: path)
    unfold Forest.find
    by_cases starts : t.startsWith b = true
    · rw [if_pos starts]
      refine (outcome.1 (b :: path)).congr fun s l values => ?_
      rw [Forest.Has, either]
      refine (or_iff_left fun ⟨there, takes⟩ => ?_).symm
      obtain ⟨u, mem, has⟩ := Forest.has_iff.mp there
      exact other b starts u mem (Tree.startsWith_of_takes (some.2 u mem) has takes)
    · rw [if_neg starts]
      refine rest.congr fun s l values => ?_
      rw [Forest.Has, either]
      exact (or_iff_right fun ⟨here, takes⟩ =>
        starts (Tree.startsWith_of_takes some.1 here takes)).symm

/-! ## parameters -/

theorem Stops.nil_of_append {stop more : Bytes} {s : Shape} (first : Stops stop (literal more ++ s))
    (second : Stops (stop ++ more) s) : more = [] := by
  obtain ⟨text, none, rfl | ⟨rfl, last⟩⟩ := first
  · obtain ⟨text', none', e | ⟨e, -⟩⟩ := second
    · rcases List.eq_nil_or_concat more with rfl | ⟨more, b, rfl⟩
      · rfl
      · rw [List.concat_eq_append, ← List.append_assoc] at e
        have front := (List.append_inj' e rfl).1
        exact absurd (by rw [← front]; simp) none'
    · exact absurd (by rw [← e]; simp) none'
  · exact List.map_eq_nil_iff.mp (List.append_eq_nil_iff.mp last).1

/-- the end that a route has is read off its shape -/
theorem Stops.unique {stop stop' : Bytes} {s s' : Shape} (h : Stops stop s) (h' : Stops stop' s')
    (same : literal stop ++ s = literal stop' ++ s') : stop = stop' ∧ s = s' := by
  rcases List.append_eq_append_iff.mp same with ⟨more, e, behind⟩ | ⟨more, e, behind⟩
  · obtain ⟨front, more, rfl, front', rfl⟩ := List.map_eq_append_iff.mp e
    obtain rfl := literal_inj.mp front'
    obtain rfl := Stops.nil_of_append (behind ▸ h) h'
    exact ⟨(List.append_nil front).symm, behind⟩
  · obtain ⟨front, more, rfl, front', rfl⟩ := List.map_eq_append_iff.mp e
    obtain rfl := literal_inj.mp front'
    obtain rfl := Stops.nil_of_append (behind ▸ h') h
    exact ⟨List.append_nil front, behind.symm⟩

/-- what may come behind an end may be anything, if anything may come -/
theorem Stops.any {stop : Bytes} {s : Shape} (h : Stops stop s) (more : s ≠ []) (s' : Shape) :
    Stops stop s' := by
  obtain ⟨text, none, e | ⟨-, last⟩⟩ := h
  · exact ⟨text, none, .inl e⟩
  · exact absurd last more

theorem stops_nil_iff {s : Shape} : Stops [] s ↔ s = [] := by
  constructor
  · rintro ⟨text, none, e | ⟨rfl, last⟩⟩
    · exact absurd e.symm (by simp)
    · exact last
  · rintro rfl
    exact ⟨[], List.not_mem_nil, .inr ⟨rfl, rfl⟩⟩

/-- the end fits with something in front of it -/
def Fits (segment stop : Bytes) : Prop := ∃ value, value ≠ [] ∧ segment = value ++ stop

/-- what stands in front of an end that fits -/
def valueBefore (segment stop : Bytes) : Bytes := segment.take (segment.length - stop.length)

theorem valueBefore_append (value stop : Bytes) : valueBefore (value ++ stop) stop = value := by
  rw [valueBefore, List.length_append, Nat.add_sub_cancel, List.take_left]

theorem fits_iff {segment stop : Bytes} :
    valueBefore segment stop ≠ [] ∧ segment = valueBefore segment stop ++ stop
      ↔ Fits segment stop := by
  constructor
  · rintro ⟨some, e⟩
    exact ⟨_, some, e⟩
  · rintro ⟨value, some, rfl⟩
    rw [valueBefore_append]
    exact ⟨some, rfl⟩

instance (segment stop : Bytes) : Decidable (Fits segment stop) :=
  decidable_of_iff _ fits_iff

theorem slash_notMem_segment (path : Bytes) : Bytes.slash ∉ segment path := by
  intro mem
  have other := List.mem_takeWhile_imp (p := (· != Bytes.slash)) mem
  exact bne_iff_ne.mp other rfl

theorem behindSegment_cases (path : Bytes) :
    behindSegment path = [] ∨ ∃ rest, behindSegment path = Bytes.slash :: rest := by
  by_cases mem : Bytes.slash ∈ path
  · obtain ⟨text, rest, rfl, none⟩ := List.eq_append_cons_of_mem mem
    exact .inr ⟨rest, (segment_of_slash none rest).2⟩
  · exact .inl (segment_of_notMem mem).2

theorem slash_notMem_of_fits {path value stop : Bytes} (e : closed path = value ++ stop)
    (some : stop ≠ []) : Bytes.slash ∉ value := by
  have none := slash_notMem_segment path
  rw [closed] at e
  cases behind : behindSegment path with
  | nil =>
    rw [behind, List.take_nil, List.append_nil] at e
    rw [e] at none
    exact fun mem => none (List.mem_append_left stop mem)
  | cons b rest =>
    rw [behind] at e
    rcases List.eq_nil_or_concat stop with rfl | ⟨stop, c, rfl⟩
    · exact absurd rfl some
    · rw [List.concat_eq_append, ← List.append_assoc] at e
      rw [(List.append_inj' e rfl).1] at none
      exact fun mem => none (List.mem_append_left stop mem)

theorem Forest.findEnd_eq (f : Forest α) (path : Bytes) :
    f.findEnd (segment path) (behindSegment path)
      = (f.trees.find? fun t => Fits (closed path) t.text).map fun t =>
          (t.find (t.text ++ behindClosed path)).map fun (l, values) =>
            (l, valueBefore (closed path) t.text :: values) := by
  induction f using Forest.trees.induct with
  | case1 => rfl
  | case2 t others ih =>
    unfold Forest.findEnd
    rw [Forest.trees, List.find?_cons]
    by_cases fits : Fits (closed path) t.text
    · rw [decide_eq_true fits]
      exact if_pos (fits_iff.mpr fits)
    · rw [decide_eq_false fits]
      exact (if_neg fun h => fits (fits_iff.mp h)).trans ih

/-- the last segment as a whole, if there is a route for it -/
def whole (leaf : Option (Leaf α)) (path : Bytes) : Option (Leaf α × List Bytes) :=
  if behindSegment path = [] then leaf.map fun l => (l, [path]) else none

theorem Wild.find_param_eq (within : Bool) (leaf : Option (Leaf α)) (ends : Forest α)
    (path : Bytes) : (Wild.param within leaf ends).find path =
      if segment path = [] then Option.none
      else if within then
        (ends.findEnd (segment path) (behindSegment path)).getD (whole leaf path)
      else if behindSegment path = [] then whole leaf path
      else (ends.findOnly (behindSegment path)).map fun (l, values) =>
        (l, segment path :: values) := by
  rw [Wild.find]
  rfl

theorem Forest.findEnd_of_last {ends : Forest α} {path : Bytes}
    (slashes : ∀ t ∈ ends.trees, t.text = [Bytes.slash]) (last : behindSegment path = []) :
    ends.findEnd (segment path) (behindSegment path) = none := by
  have miss : ends.trees.find? (fun t => Fits (closed path) t.text) = none := by
    refine List.find?_eq_none.mpr fun t mem => ?_
    rw [decide_eq_true_eq, slashes t mem]
    rintro ⟨value, -, e⟩
    rw [closed, last, List.take_nil, List.append_nil] at e
    exact slash_notMem_segment path (by rw [e]; simp)
  rw [Forest.findEnd_eq, miss]
  rfl

theorem Forest.findEnd_of_slash {ends : Forest α} {path rest : Bytes} (ending : ends.Ending)
    (slashes : ∀ t ∈ ends.trees, t.text = [Bytes.slash]) (some : segment path ≠ [])
    (goes : behindSegment path = Bytes.slash :: rest) :
    (ends.findEnd (segment path) (behindSegment path)).getD none
      = (ends.findOnly (behindSegment path)).map fun (l, values) =>
          (l, segment path :: values) := by
  have front : closed path = segment path ++ [Bytes.slash] := by
    rw [closed, goes]
    rfl
  rw [Forest.findEnd_eq]
  rcases ends with _ | ⟨t, _ | ⟨u, more⟩⟩
  · rfl
  · have text : t.text = [Bytes.slash] := slashes t List.mem_cons_self
    have fits : Fits (closed path) t.text := ⟨segment path, some, text ▸ front⟩
    have behind : t.text ++ behindClosed path = behindSegment path := by
      rw [text, behindClosed, goes]
      rfl
    have value : valueBefore (closed path) t.text = segment path := by
      rw [front, text]
      exact valueBefore_append _ _
    rw [Forest.findOnly, Forest.trees, List.find?_cons, decide_eq_true fits]
    show (t.find (t.text ++ behindClosed path)).map _ = _
    rw [behind, value]
  · have same := (slashes t List.mem_cons_self).trans
      (slashes u (List.mem_cons_of_mem t List.mem_cons_self)).symm
    have apart := ending.apart
    rw [Forest.trees, Forest.trees, List.map_cons, List.map_cons, same] at apart
    exact absurd List.mem_cons_self (List.nodup_cons.mp apart).1

/-- a parameter takes the first end that fits, or else the whole of the last segment -/
theorem Wild.find_param {within : Bool} {leaf : Option (Leaf α)} {ends : Forest α}
    (sound : (Wild.param within leaf ends).Sound) (path : Bytes) :
    (Wild.param within leaf ends).find path = if segment path = [] then Option.none
      else (ends.findEnd (segment path) (behindSegment path)).getD (whole leaf path) := by
  obtain ⟨-, ending, only⟩ := sound
  rw [Wild.find_param_eq]
  by_cases empty : segment path = []
  · rw [if_pos empty, if_pos empty]
  · rw [if_neg empty, if_neg empty]
    cases within with
    | true => rfl
    | false =>
      rw [if_neg Bool.false_ne_true]
      rcases behindSegment_cases path with last | ⟨rest, goes⟩
      · rw [if_pos last, Forest.findEnd_of_last (only rfl) last]
        rfl
      · have some : behindSegment path ≠ [] := by
          rw [goes]
          exact List.cons_ne_nil _ _
        have none : whole leaf path = Option.none := if_neg some
        rw [if_neg some, none]
        exact (Forest.findEnd_of_slash ending (only rfl) empty goes).symm

section
variable {within : Bool} {leaf : Option (Leaf α)} {ends : Forest α} {path : Bytes}

theorem Forest.Ending.of_has (ending : ends.Ending) {stop : Bytes} {s : Shape} {l : Leaf α}
    (stops : Stops stop s) (there : ends.Has (literal stop ++ s) l) :
    ∃ t ∈ ends.trees, t.text = stop ∧ t.Has (literal stop ++ s) l := by
  obtain ⟨t, mem, has⟩ := Forest.has_iff.mp there
  obtain ⟨s', e⟩ := Tree.text_of_has has
  have stops' := (ending.ending t mem).stops s' l (e ▸ has)
  exact ⟨t, mem, (stops.unique stops' e).1.symm, has⟩

theorem Wild.of_has (ending : ends.Ending) {stop : Bytes} {s : Shape} {l : Leaf α}
    (stops : Stops stop s)
    (there : (Wild.param within leaf ends).Has (.param :: (literal stop ++ s)) l) :
    (stop = [] ∧ s = [] ∧ leaf = some l)
      ∨ ∃ t ∈ ends.trees, t.text = stop ∧ t.Has (literal stop ++ s) l := by
  obtain ⟨t, e, ⟨rfl, own⟩ | below⟩ := there
  · obtain ⟨stop, rfl⟩ := List.append_eq_nil_iff.mp (List.cons_eq_cons.mp e).2
    exact .inl ⟨List.map_eq_nil_iff.mp stop, rfl, own⟩
  · obtain rfl := (List.cons_eq_cons.mp e).2
    exact .inr (ending.of_has stops below)

theorem Wild.has_of_mem {t : Tree α} (mem : t ∈ ends.trees) {s : Shape} {l : Leaf α}
    (has : t.Has s l) : (Wild.param within leaf ends).Has (.param :: s) l :=
  ⟨s, rfl, .inr (Forest.has_iff.mpr ⟨t, mem, has⟩)⟩

theorem Wild.isStop_of_mem (ending : ends.Ending) {t : Tree α} (mem : t ∈ ends.trees) :
    (Wild.param within leaf ends).Has.IsStop t.text := by
  obtain ⟨s, l, has⟩ := (ending.ending t mem).has
  obtain ⟨s', rfl⟩ := Tree.text_of_has has
  exact ⟨s', l, (ending.ending t mem).stops s' l has, has_of_mem mem has⟩

theorem Wild.longest_of_mem (ending : ends.Ending) {t : Tree α}
    (longest : ∀ u ∈ ends.trees, Fits (closed path) u.text → u.text.length ≤ t.text.length) :
    (Wild.param within leaf ends).Has.Longest (closed path) t.text := by
  rintro value other ⟨s, l, stops, there⟩ some e
  rcases of_has ending stops there with ⟨rfl, -, -⟩ | ⟨u, mem, rfl, -⟩
  · exact Nat.zero_le _
  · exact longest u mem ⟨value, some, e.symm⟩

theorem Wild.has_end_iff (ending : ends.Ending) {t : Tree α} (mem : t ∈ ends.trees) {s : Shape}
    {l : Leaf α} (stops : Stops t.text s) :
    (Wild.param within leaf ends).Has (.param :: (literal t.text ++ s)) l
      ↔ t.Has (literal t.text ++ s) l := by
  refine ⟨fun there => ?_, has_of_mem mem⟩
  rcases of_has ending stops there with ⟨none, -, -⟩ | ⟨u, mem', same, has⟩
  · exact absurd none (ending.ending t mem).some
  · -- another tree has another text
    exact List.inj_on_of_nodup_map ending.apart mem' mem same ▸ has

theorem Wild.takes_end_iff (ending : ends.Ending) {t : Tree α} (mem : t ∈ ends.trees) {s : Shape}
    {rest : Bytes} {values : List Bytes} (stops : Stops t.text s) :
    Takes ((Wild.param within leaf ends).Has.after (.param :: literal t.text)) s rest values
      ↔ Takes (t.Has.after (literal t.text)) s rest values := by
  cases s with
  | nil => rw [takes_nil_iff, takes_nil_iff]
  | cons a s =>
    have same (s' : Shape) (l : Leaf α) :
        (Wild.param within leaf ends).Has (.param :: (literal t.text ++ a :: s')) l
          ↔ t.Has (literal t.text ++ a :: s') l :=
      has_end_iff ending mem (stops.any (List.cons_ne_nil a s) _)
    exact ⟨fun h => h.congr same, fun h => h.congr fun s' l => (same s' l).symm⟩

/-- the routes that take a path are those below the longest end that fits -/
theorem Wild.candidates_of_fits (ending : ends.Ending) {t : Tree α} (mem : t ∈ ends.trees)
    {value : Bytes} (some : value ≠ []) (front : closed path = value ++ t.text)
    (longest : ∀ u ∈ ends.trees, Fits (closed path) u.text → u.text.length ≤ t.text.length)
    (s : Shape) (l : Leaf α) (params : List Bytes) :
    (Wild.param within leaf ends).Has.candidates path s l params
      ↔ ∃ s' values, s = [.param] ++ s' ∧ params = value :: values
        ∧ t.Has.candidates (t.text ++ behindClosed path) s' l values := by
  have own := ending.ending t mem
  constructor
  · rintro ⟨there, takes⟩
    obtain ⟨t', rfl, -⟩ := id there
    obtain ⟨value', stop, s', values, rfl, rfl, some', -, stops, front', counts, h⟩ :=
      takes_param_iff.mp takes
    have le : t.text.length ≤ stop.length :=
      counts value t.text (isStop_of_mem ending mem) some front.symm
    have ge : stop.length ≤ t.text.length := by
      rcases of_has ending stops there with ⟨rfl, -, -⟩ | ⟨u, mem', rfl, -⟩
      · exact Nat.zero_le _
      · exact longest u mem' ⟨value', some', front'⟩
    obtain ⟨rfl, rfl⟩ := List.append_inj' (front'.symm.trans front) (Nat.le_antisymm ge le)
    refine ⟨literal t.text ++ s', values, rfl, rfl, (has_end_iff ending mem stops).mp there, ?_⟩
    exact takes_literal_iff.mpr ⟨behindClosed path, rfl, (takes_end_iff ending mem stops).mp h⟩
  · rintro ⟨s', values, rfl, rfl, has, takes⟩
    obtain ⟨s, rfl⟩ := Tree.text_of_has has
    have stops := own.stops s l has
    obtain ⟨rest, e, h⟩ := takes_literal_iff.mp takes
    obtain rfl := List.append_cancel_left e
    refine ⟨has_of_mem mem has, takes_param_iff.mpr ?_⟩
    exact ⟨value, t.text, s, values, rfl, rfl, some, slash_notMem_of_fits front own.some, stops,
      front, longest_of_mem ending longest, (takes_end_iff ending mem stops).mpr h⟩

/-- if no end fits, the route without an end takes the last segment -/
theorem Wild.candidates_of_misfit (ending : ends.Ending) (some : segment path ≠ [])
    (misfit : ∀ u ∈ ends.trees, ¬ Fits (closed path) u.text)
    (s : Shape) (l : Leaf α) (params : List Bytes) :
    (Wild.param within leaf ends).Has.candidates path s l params
      ↔ s = [.param] ∧ leaf = .some l ∧ behindSegment path = [] ∧ params = [path] := by
  constructor
  · rintro ⟨there, takes⟩
    obtain ⟨t', rfl, -⟩ := id there
    obtain ⟨value, stop, s', values, rfl, rfl, some', one, stops, front, -, h⟩ :=
      takes_param_iff.mp takes
    rcases of_has ending stops there with ⟨rfl, rfl, own⟩ | ⟨u, mem, rfl, -⟩
    · obtain ⟨none, rfl⟩ := takes_nil_iff.mp h
      rw [List.append_nil] at front
      have all := closed_append_behindClosed path
      rw [none, List.append_nil] at all
      have same : value = path := front.symm.trans all
      subst same
      exact ⟨rfl, own, (segment_of_notMem one).2, rfl⟩
    · exact absurd ⟨value, some', front⟩ (misfit u mem)
  · rintro ⟨rfl, own, last, rfl⟩
    have front : closed path = segment path := by
      rw [closed, last, List.take_nil, List.append_nil]
    have all : segment path = path := by
      have both := closed_append_behindClosed path
      rwa [front, behindClosed, last, List.drop_nil, List.append_nil] at both
    refine ⟨⟨[], rfl, .inl ⟨rfl, own⟩⟩, takes_param_iff.mpr ?_⟩
    refine ⟨path, [], [], [], rfl, rfl, all ▸ some, all ▸ slash_notMem_segment path,
      stops_nil_iff.mpr rfl, ?_, ?_, ?_⟩
    · rw [front, all, List.append_nil]
    · rintro value other ⟨s, l, stops, there⟩ some' e
      rcases of_has ending stops there with ⟨rfl, -, -⟩ | ⟨u, mem, rfl, -⟩
      · exact Nat.le_refl _
      · exact absurd ⟨value, some', e.symm⟩ (misfit u mem)
    · rw [behindClosed, last]
      exact .nil

theorem Wild.no_candidates (empty : segment path = []) (s : Shape) (l : Leaf α)
    (params : List Bytes) : ¬ (Wild.param within leaf ends).Has.candidates path s l params := by
  rintro ⟨⟨t, rfl, -⟩, takes⟩
  obtain ⟨value, stop, -, -, -, -, some, one, -, front, -, -⟩ := takes_param_iff.mp takes
  obtain ⟨b, value, rfl⟩ := List.exists_cons_of_ne_nil some
  rw [closed, empty] at front
  rcases behindSegment_cases path with none | ⟨rest, goes⟩
  · rw [none] at front
    cases front
  · rw [goes] at front
    exact one ((List.cons_eq_cons.mp front).1 ▸ List.mem_cons_self)

theorem Wild.outcome_whole (ending : ends.Ending) (some : segment path ≠ [])
    (misfit : ∀ u ∈ ends.trees, ¬ Fits (closed path) u.text) :
    Outcome ((Wild.param within leaf ends).Has.candidates path) (whole leaf path) := by
  have same (s : Shape) (l : Leaf α) (params : List Bytes) :
      (Wild.param within leaf ends).Has.candidates path s l params ↔ _ :=
    candidates_of_misfit ending some misfit s l params
  unfold whole
  by_cases last : behindSegment path = []
  · rw [if_pos last]
    cases leaf with
    | none =>
      intro s l params h
      cases ((same s l params).mp h).2.1
    | some l =>
      refine ⟨[.param], (same _ _ _).mpr ⟨rfl, rfl, last, rfl⟩, fun s' l' params h => ?_⟩
      obtain ⟨rfl, e, -, rfl⟩ := (same s' l' params).mp h
      exact .inl ⟨rfl, (Option.some.inj e).symm, rfl⟩
  · rw [if_neg last]
    intro s l params h
    exact last ((same s l params).mp h).2.2.1

/-- a parameter takes the front of a segment and commits itself to the longest end that fits -/
theorem Wild.outcome_param (sound : (Wild.param within leaf ends).Sound)
    (outcome : ∀ t ∈ ends.trees, ∀ path, Outcome (t.Has.candidates path) (t.find path))
    (path : Bytes) : Outcome ((Wild.param within leaf ends).Has.candidates path)
      ((Wild.param within leaf ends).find path) := by
  have ending := sound.2.1
  rw [Wild.find_param sound]
  by_cases empty : segment path = []
  · rw [if_pos empty]
    exact no_candidates empty
  · rw [if_neg empty, Forest.findEnd_eq]
    cases first : ends.trees.find? fun t => Fits (closed path) t.text with
    | none =>
      refine outcome_whole ending empty fun u mem fits => ?_
      exact List.find?_eq_none.mp first u mem (decide_eq_true fits)
    | some t =>
      obtain ⟨fits, before, after, order, earlier⟩ := List.find?_eq_some_iff_append.mp first
      have mem : t ∈ ends.trees := List.mem_of_find?_eq_some first
      -- longer ends have been tried before
      have longest : ∀ u ∈ ends.trees, Fits (closed path) u.text →
          u.text.length ≤ t.text.length := by
        intro u mem' fits'
        have longer := ending.longer
        rw [order] at longer mem'
        rcases List.mem_append.mp mem' with tried | here
        · exact absurd (decide_eq_true fits') (by simpa using earlier u tried)
        · rcases List.mem_cons.mp here with rfl | later
          · exact Nat.le_refl _
          · exact (List.pairwise_cons.mp (List.pairwise_append.mp longer).2.1).1 u later
      obtain ⟨some, front⟩ := fits_iff.mpr (of_decide_eq_true fits)
      have here := outcome t mem (t.text ++ behindClosed path)
      exact here.front (candidates_of_fits ending mem some front longest)

end

/-! ## trees -/

theorem Tree.outcome_node {weight : Nat} {text : List Cell} {leaf : Option (Leaf α)}
    {branches : Forest α} {wild : Wild α} (branching : branches.Branching)
    (outcome : ∀ t ∈ branches.trees, ∀ path, Outcome (t.Has.candidates path) (t.find path))
    (outcome' : ∀ path, path ≠ [] → Outcome (wild.Has.candidates path) (wild.find path))
    (path : Bytes) : Outcome ((Tree.node weight text leaf branches wild).Has.candidates path)
      ((Tree.node weight text leaf branches wild).find path) := by
  rw [Tree.Has, Tree.find]
  cases strip : Bytes.strip? (plain text) path with
  | none =>
    rintro s l values here
    obtain ⟨-, rest, -, rfl, -⟩ := Listing.candidates_behind.mp here
    rw [Bytes.strip?_eq_some_iff.mpr rfl] at strip
    cases strip
  | some rest =>
    obtain rfl := Bytes.strip?_eq_some_iff.mp strip
    refine Outcome.behind ?_
    have below : Listing.Apart branches.Has wild.Has := by
      intro a s s' l l' here there
      obtain ⟨b, t, e⟩ := branching.first here
      obtain ⟨t', e' | e'⟩ := Wild.first there <;> cases e <;> cases e'
    have here : (Listing.ofEnd leaf).Apart (branches.Has.or wild.Has) :=
      fun a s _ _ _ none => nomatch none.1
    cases rest with
    | nil =>
      refine Outcome.of_end fun l => ?_
      refine or_iff_left ?_ |>.trans (and_iff_right rfl)
      rintro (there | there)
      · obtain ⟨b, t, e⟩ := branching.first there
        cases e
      · obtain ⟨t, e | e⟩ := Wild.first there <;> cases e
    | cons b rest =>
      suffices either : Outcome _ (branches.find b (b :: rest) <|> wild.find (b :: rest)) by
        dsimp only
        cases found : branches.find b (b :: rest) <;> rw [found] at either <;> exact either
      refine (Forest.outcome_branches branching outcome b rest).orElse
        (outcome' (b :: rest) (List.cons_ne_nil b rest)) (fun s l values => ?_)
        (fun s l values h => branching.first h.1) fun s l values h => Wild.first h.1
      rw [Listing.candidates_or here, Listing.candidates_or below]
      refine or_iff_right ?_
      rintro ⟨⟨rfl, -⟩, takes⟩
      cases takes

mutual

/-- the route that is found is the one that counts for most -/
theorem Tree.outcome : ∀ (t : Tree α), t.Sound → ∀ path,
    Outcome (t.Has.candidates path) (t.find path)
  | .node _ _ _ branches wild, sound, path =>
    Tree.outcome_node sound.2.2.1 (Forest.outcome branches sound.2.1)
      (Wild.outcome wild sound.2.2.2) path

theorem Forest.outcome : ∀ (f : Forest α), f.Sound → ∀ t ∈ f.trees, ∀ path,
    Outcome (t.Has.candidates path) (t.find path)
  | .nil, _ => nofun
  | .cons t others, sound =>
    List.forall_mem_cons.mpr ⟨Tree.outcome t sound.1, Forest.outcome others sound.2⟩

theorem Wild.outcome : ∀ (w : Wild α), w.Sound → ∀ path, path ≠ [] →
    Outcome (w.Has.candidates path) (w.find path)
  | .none, _, _, _ => fun _ _ _ h => h.1.elim
  | .rest leaf, _, path, ne => by
    refine ⟨[.rest], ⟨⟨[], rfl, rfl, rfl⟩, .rest ne⟩, ?_⟩
    rintro s l values ⟨⟨_, rfl, rfl, e⟩, takes⟩
    obtain rfl := Option.some.inj e
    exact .inl ⟨rfl, rfl, (takes_rest_iff.mp takes).2.2⟩
  | .param _ _ ends, sound, path, _ =>
    Wild.outcome_param sound (Forest.outcome ends sound.1) path

end

end PipelinedHttp.Route
