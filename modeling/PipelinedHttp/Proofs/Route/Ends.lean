import PipelinedHttp.Proofs.Route.Lookup

/-!
# Segment ends

How a pattern is cut behind a parameter, and where a new end stands among those that are there.

* `Pattern.Clean`, `Pattern.Spaced`   the patterns that trees are built of: braces that are text
                have been written twice, and no segment has a second parameter;
* `Pattern.Cut` what is cut off behind a parameter is an end (`Pattern.cut_of_cutSegment`);
* `place_spec`  a new end stands behind those that are at least as long, and in front of the others,
                if these are in order (`Forest.Ending.insertEnd`).
-/

namespace PipelinedHttp.Route
variable {α : Type}

/-! ## patterns that trees are built of -/

/-- the braces that are meant as text have been written twice -/
def Pattern.Clean (p : Pattern) : Prop := ∀ c, .byte c ∈ p → c.Clean

/-- no segment has anything but text behind its parameter -/
def Pattern.Spaced : Pattern → Prop
  | [] => True
  | .param _ _ :: p => (∀ q ∈ (Pattern.cutSegment p).1, q.isByte = true) ∧ Pattern.Spaced p
  | _ :: p => Pattern.Spaced p

theorem Cell.Clean.ext {c d : Cell} (hc : c.Clean) (hd : d.Clean) (same : c.byte = d.byte) :
    c = d := by
  cases c
  cases d
  obtain rfl := same
  exact congrArg (Cell.mk _) (Eq.trans hc (Eq.symm hd))

theorem eq_of_plain_eq {s t : List Cell} (hs : ∀ c ∈ s, c.Clean) (ht : ∀ c ∈ t, c.Clean)
    (same : plain s = plain t) : s = t := by
  induction s generalizing t with
  | nil => exact (List.map_eq_nil_iff.mp same.symm).symm
  | cons c s ih =>
    cases t with
    | nil => cases same
    | cons d t =>
      obtain ⟨hc, hs⟩ := List.forall_mem_cons.mp hs
      obtain ⟨hd, ht⟩ := List.forall_mem_cons.mp ht
      obtain ⟨first, others⟩ := List.cons_eq_cons.mp same
      rw [hc.ext hd first, ih hs ht others]

namespace Pattern
variable {p q : Pattern}

theorem Clean.append (h : Clean (p ++ q)) : Clean p ∧ Clean q :=
  ⟨fun c mem => h c (List.mem_append_left q mem), fun c mem => h c (List.mem_append_right p mem)⟩

theorem Spaced.of_append (h : Spaced (p ++ q)) : Spaced q := by
  induction p with
  | nil => exact h
  | cons a p ih =>
    cases a with
    | byte | rest => exact ih h
    | param => exact ih h.2

/-- the octets of a text, as pieces -/
def ofText (text : List Cell) : Pattern := text.map .byte

theorem shape_append (p q : Pattern) : shape (p ++ q) = shape p ++ shape q := List.map_append

theorem shape_ofText (text : List Cell) : shape (ofText text) = literal (plain text) := by
  simp [shape, ofText, literal, plain, Piece.step]

theorem text_ofText_append (text : List Cell) (h : q.text = []) :
    (ofText text ++ q).text = text := by
  induction text with
  | nil => exact h
  | cons c text ih => exact congrArg (c :: ·) ih

theorem ofText_text_append_wild (p : Pattern) : ofText p.text ++ p.wild = p := by
  induction p with
  | nil => rfl
  | cons a p ih =>
    cases a with
    | byte c => exact congrArg (Piece.byte c :: ·) ih
    | param | rest => rfl

theorem Clean.text (h : Clean p) : ∀ c ∈ p.text, c.Clean := by
  rw [← ofText_text_append_wild p] at h
  exact fun c mem => h.append.1 c (List.mem_map_of_mem mem)

/-- what is not text begins with a parameter or a rest -/
theorem wild_cases (p : Pattern) : p.wild = [] ∨ ∃ w ws, p.wild = w :: ws ∧ w.isByte = false := by
  cases e : p.wild with
  | nil => exact .inl rfl
  | cons w ws =>
    have first := List.head?_dropWhile_not Piece.isByte p
    rw [show p.dropWhile Piece.isByte = w :: ws from e] at first
    exact .inr ⟨w, ws, rfl, first⟩

theorem literalText?_eq_some_iff {text : List Cell} :
    literalText? p = some text ↔ p = ofText text := by
  have whole := ofText_text_append_wild p
  unfold literalText?
  constructor
  · intro h
    split at h
    · rename_i none
      cases h
      rw [none, List.append_nil] at whole
      exact whole.symm
    · cases h
  · rintro rfl
    have none : Pattern.wild (ofText text) = [] := by
      refine List.dropWhile_eq_nil_iff.mpr fun q mem => ?_
      obtain ⟨c, -, rfl⟩ := List.mem_map.mp mem
      rfl
    have same := text_ofText_append text (q := []) rfl
    rw [List.append_nil] at same
    rw [if_pos none, same]

theorem exists_ofText (h : ∀ q ∈ p, q.isByte = true) : ∃ text, p = ofText text := by
  induction p with
  | nil => exact ⟨[], rfl⟩
  | cons a p ih =>
    obtain ⟨first, others⟩ := List.forall_mem_cons.mp h
    obtain ⟨text, rfl⟩ := ih others
    cases a with
    | byte c => exact ⟨c :: text, rfl⟩
    | param | rest => cases first

theorem normal_ofText (text : List Cell) : normal (ofText text) = plain text := by
  induction text with
  | nil => rfl
  | cons c text ih => exact congrArg (c.byte :: ·) ih

/-! ## cutting off a segment -/

theorem cutSegment_append (p : Pattern) : (cutSegment p).1 ++ (cutSegment p).2 = p := by
  induction p with
  | nil => rfl
  | cons a p ih =>
    unfold cutSegment
    split
    · rfl
    · exact congrArg (a :: ·) ih

theorem cutSegment_eq_nil (h : (cutSegment p).1 = []) : p = [] := by
  cases p with
  | nil => rfl
  | cons a p =>
    unfold cutSegment at h
    split at h <;> cases h

end Pattern

theorem Stops.cons {stop : Bytes} {s : Shape} (h : Stops stop s) {b : UInt8}
    (ne : b ≠ Bytes.slash) :
    Stops (b :: stop) s := by
  obtain ⟨text, none, e⟩ := h
  refine ⟨b :: text, ?_, e.imp (fun e => ?_) fun e => ⟨?_, e.2⟩⟩
  · simp [none, Ne.symm ne]
  · rw [e]
    rfl
  · rw [e.1]

theorem stops_cutSegment {p : Pattern} {text : List Cell}
    (h : (Pattern.cutSegment p).1 = Pattern.ofText text) :
    Stops (plain text) (Pattern.cutSegment p).2.shape := by
  induction p generalizing text with
  | nil =>
    cases text with
    | nil => exact stops_nil_iff.mpr rfl
    | cons => cases h
  | cons a p ih =>
    unfold Pattern.cutSegment at h ⊢
    by_cases slash : a.isSlash = true
    · rw [if_pos slash] at h ⊢
      cases text with
      | nil => cases h
      | cons c text =>
        obtain ⟨rfl, none⟩ := List.cons_eq_cons.mp h
        obtain rfl := List.map_eq_nil_iff.mp none.symm
        have closes : c.byte = Bytes.slash := beq_iff_eq.mp slash
        exact ⟨[], List.not_mem_nil, .inl (congrArg (fun b => [b]) closes)⟩
    · rw [if_neg slash] at h ⊢
      cases text with
      | nil => cases h
      | cons c text =>
        obtain ⟨rfl, others⟩ := List.cons_eq_cons.mp h
        exact (ih others).cons fun closes => slash (beq_iff_eq.mpr closes)

/-- a pattern behind a parameter is the text that ends its segment, and what follows -/
structure Pattern.Cut (p : Pattern) (text : List Cell) (others : Pattern) : Prop where
  whole : p = Pattern.ofText text ++ others
  stops : Stops (plain text) others.shape
  some : text = [] → p = []

theorem Pattern.cut_of_cutSegment {p others : Pattern} {text : List Cell}
    (h : Pattern.cutSegment p = (Pattern.ofText text, others)) : p.Cut text others := by
  have whole := Pattern.cutSegment_append p
  have stops := stops_cutSegment (congrArg Prod.fst h)
  have some := Pattern.cutSegment_eq_nil (p := p)
  rw [h] at whole stops some
  exact ⟨whole.symm, stops, fun none => some (none ▸ rfl)⟩

theorem Pattern.Cut.shape {p others : Pattern} {text : List Cell} (h : p.Cut text others) :
    p.shape = literal (plain text) ++ others.shape := by
  rw [h.whole, Pattern.shape_append, Pattern.shape_ofText]

theorem Pattern.Cut.clean {p others : Pattern} {text : List Cell} (h : p.Cut text others)
    (clean : p.Clean) : (∀ c ∈ text, c.Clean) ∧ others.Clean := by
  rw [h.whole] at clean
  exact ⟨fun c mem => clean.append.1 c (List.mem_map_of_mem mem), clean.append.2⟩

/-! ## places -/

section
variable {lengths : List Nat} {n : Nat}

/-- lengths in order are compared by their places -/
theorem getD_le_of_le (ordered : lengths.Pairwise (· ≥ ·)) {i j : Nat} (le : i ≤ j)
    (lt : j < lengths.length) : lengths.getD j 0 ≤ lengths.getD i 0 := by
  rw [← List.getElem_eq_getD (h := lt), ← List.getElem_eq_getD (h := Nat.lt_of_le_of_lt le lt)]
  rcases Nat.lt_or_eq_of_le le with before | rfl
  · exact List.pairwise_iff_getElem.mp ordered i j _ lt before
  · exact Nat.le_refl _

theorem halve_of_one_lt {fuel base size : Nat} (many : 1 < size) :
    halve lengths n (fuel + 1) base size
      = halve lengths n fuel
          (if n ≤ lengths.getD (base + size / 2) 0 then base + size / 2 else base)
          (size - size / 2) := by
  rw [halve, if_neg (Nat.not_le_of_lt many)]

/-- what the halving comes down to has all that is as long in front of it, and behind it nothing
that is -/
theorem halve_spec (ordered : lengths.Pairwise (· ≥ ·)) (fuel base size : Nat) (some : 0 < size)
    (enough : size ≤ fuel + 1) (front : ∀ j < base, n ≤ lengths.getD j 0)
    (behind : ∀ j, base + size ≤ j → j < lengths.length → lengths.getD j 0 < n)
    (within : base + size ≤ lengths.length) :
    halve lengths n fuel base size < lengths.length
      ∧ (∀ j < halve lengths n fuel base size, n ≤ lengths.getD j 0)
      ∧ ∀ j, halve lengths n fuel base size < j → j < lengths.length →
        lengths.getD j 0 < n := by
  induction fuel generalizing base size with
  | zero =>
    obtain rfl : size = 1 := by omega
    exact ⟨within, front, behind⟩
  | succ fuel ih =>
    by_cases one : size ≤ 1
    · obtain rfl : size = 1 := by omega
      rw [halve, if_pos one]
      exact ⟨within, front, behind⟩
    · rw [halve_of_one_lt (Nat.lt_of_not_le one)]
      by_cases le : n ≤ lengths.getD (base + size / 2) 0
      · rw [if_pos le]
        refine ih _ _ (by omega) (by omega) (fun j lt => ?_) (fun j past => ?_) (by omega)
        · exact le.trans (getD_le_of_le ordered (Nat.le_of_lt lt) (by omega))
        · exact behind j (by omega)
      · rw [if_neg le]
        refine ih _ _ (by omega) (by omega) front (fun j past lt => ?_) (by omega)
        exact Nat.lt_of_le_of_lt (getD_le_of_le ordered (by omega) lt) (Nat.lt_of_not_le le)

/-- a place that splits lengths by their numbers splits the list of them -/
theorem split_of_getD {k : Nat} (front : ∀ j < k, n ≤ lengths.getD j 0)
    (behind : ∀ j, k ≤ j → j < lengths.length → lengths.getD j 0 < n) :
    (∀ m ∈ lengths.take k, n ≤ m) ∧ ∀ m ∈ lengths.drop k, m ≤ n := by
  constructor
  · intro m mem
    obtain ⟨j, lt, rfl⟩ := List.mem_take_iff_getElem.mp mem
    rw [List.getElem_eq_getD 0]
    exact front j (by omega)
  · intro m mem
    obtain ⟨j, lt, rfl⟩ := List.mem_drop_iff_getElem.mp mem
    rw [List.getElem_eq_getD 0]
    exact Nat.le_of_lt (behind (k + j) (by omega) (by omega))

/-- a new length stands behind those that are at least as long, and in front of the others -/
theorem place_spec (ordered : lengths.Pairwise (· ≥ ·)) :
    (∀ m ∈ lengths.take (place lengths n), n ≤ m)
      ∧ ∀ m ∈ lengths.drop (place lengths n), m ≤ n := by
  rcases Nat.eq_zero_or_pos lengths.length with none | some
  · rw [List.eq_nil_of_length_eq_zero none]
    exact ⟨nofun, nofun⟩
  · obtain ⟨lt, front, behind⟩ : halve lengths n lengths.length 0 lengths.length < _ ∧ _ :=
      halve_spec ordered lengths.length 0 lengths.length some (by omega) nofun (by omega) (by omega)
    unfold place
    generalize halve lengths n lengths.length 0 lengths.length = last at lt front behind
    simp only [List.getElem?_eq_getElem lt]
    rw [List.getElem_eq_getD 0]
    by_cases le : n ≤ lengths.getD last 0
    · rw [if_pos le]
      refine split_of_getD (fun j within => ?_) fun j past => behind j past
      rcases Nat.lt_or_eq_of_le (Nat.le_of_lt_succ within) with before | rfl
      · exact front j before
      · exact le
    · rw [if_neg le]
      refine split_of_getD front fun j past inside => ?_
      rcases Nat.lt_or_eq_of_le past with beyond | rfl
      · exact behind j beyond inside
      · exact Nat.lt_of_not_le le

end

theorem Forest.lengths_eq (f : Forest α) : f.lengths = f.trees.map fun t => t.text.length := by
  induction f using Forest.trees.induct with
  | case1 => rfl
  | case2 t others ih => exact congrArg (t.text.length :: ·) ih

theorem Forest.trees_insertAt (t : Tree α) (k : Nat) (f : Forest α) :
    (f.insertAt t k).trees = f.trees.take k ++ t :: f.trees.drop k := by
  induction k generalizing f with
  | zero => rfl
  | succ k ih =>
    cases f with
    | nil => rfl
    | cons u others => exact congrArg (u :: ·) (ih others)

theorem Forest.trees_insertEnd (t : Tree α) (f : Forest α) :
    (f.insertEnd t).trees.Perm (t :: f.trees) := by
  rw [insertEnd, trees_insertAt]
  exact List.perm_middle.trans ((List.take_append_drop _ f.trees).symm ▸ List.Perm.refl _)

/-- a new end finds its place among the others -/
theorem Forest.Ending.insertEnd {f : Forest α} (h : f.Ending) {t : Tree α} (ending : t.Ending)
    (new : ∀ u ∈ f.trees, u.text ≠ t.text) : (f.insertEnd t).Ending := by
  have perm := Forest.trees_insertEnd t f
  refine ⟨fun u mem => ?_, ?_, ?_⟩
  · rcases List.mem_cons.mp (perm.mem_iff.mp mem) with rfl | old
    · exact ending
    · exact h.ending u old
  · refine (perm.map Tree.text).nodup_iff.mpr (List.nodup_cons.mpr ⟨fun mem => ?_, h.apart⟩)
    obtain ⟨u, old, same⟩ := List.mem_map.mp mem
    exact new u old same
  · have ordered : (f.trees.map fun t => t.text.length).Pairwise (· ≥ ·) :=
      List.pairwise_map.mpr h.longer
    rw [Forest.insertEnd, Forest.trees_insertAt, Forest.lengths_eq]
    obtain ⟨front, behind⟩ := place_spec ordered (n := t.text.length)
    rw [← List.map_take] at front
    rw [← List.map_drop] at behind
    have longer := h.longer
    rw [← List.take_append_drop (place (f.trees.map fun t => t.text.length) t.text.length) f.trees]
      at longer
    obtain ⟨first, last, across⟩ := List.pairwise_append.mp longer
    refine List.pairwise_append.mpr ⟨first, List.pairwise_cons.mpr ⟨fun u mem => ?_, last⟩, ?_⟩
    · exact behind _ (List.mem_map_of_mem mem)
    · intro u mem
      refine List.forall_mem_cons.mpr ⟨?_, across u mem⟩
      exact front _ (List.mem_map_of_mem mem)

end PipelinedHttp.Route
