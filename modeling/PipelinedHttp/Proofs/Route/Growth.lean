import PipelinedHttp.Proofs.Route.Ends

/-!
# Trees that grow

A route that is put into a sound tree leaves it sound and is one route more.

* `graft_spec`, `graftEnd_spec`   new branches and new ends have the one route;
* `Tree.cut`          where a text and a pattern part, the tree is cut in two;
* `Tree.insert_spec`  a route is put below the text that it has in common with a node, in a branch,
                      or below an end of a parameter.
-/

namespace PipelinedHttp.Route
variable {α : Type} {leaf : Leaf α} {p : Pattern}

theorem bind_eq_ok {ε β γ : Type} {x : Except ε β} {f : β → Except ε γ} {c : γ}
    (h : x >>= f = .ok c) : ∃ b, x = .ok b ∧ f b = .ok c := by
  cases x with
  | error => cases h
  | ok b => exact ⟨b, rfl, h⟩

/-! ## single trees -/

theorem Forest.has_single (t : Tree α) : (Forest.single t).Has = t.Has := Listing.or_empty

theorem Forest.branching_single {t : Tree α} (some : t.text ≠ []) : (Forest.single t).Branching :=
  ⟨List.forall_mem_singleton.mpr some, List.nodup_singleton _⟩

theorem Forest.ending_single {t : Tree α} (h : t.Ending) : (Forest.single t).Ending :=
  ⟨List.forall_mem_singleton.mpr h, List.nodup_singleton _, List.pairwise_singleton _ _⟩

theorem Forest.branching_nil : (Forest.nil : Forest α).Branching := ⟨nofun, List.nodup_nil⟩

theorem Forest.ending_nil : (Forest.nil : Forest α).Ending :=
  ⟨nofun, List.nodup_nil, List.Pairwise.nil⟩

/-- a tree with one route more that stops behind its text is an end still -/
theorem Tree.Ending.of_plus {t : Tree α} {H : Listing α} {s : Shape} (some : t.text ≠ [])
    (has : t.Has = H.plus (literal t.text ++ s) leaf) (stops : Stops t.text s)
    (old : ∀ s l, H (literal t.text ++ s) l → Stops t.text s) : t.Ending := by
  have here : t.Has (literal t.text ++ s) leaf := by
    rw [has]
    exact .inl ⟨rfl, rfl⟩
  refine ⟨some, ⟨_, leaf, here⟩, fun s' l there => ?_⟩
  rw [has] at there
  rcases there with ⟨e, -⟩ | there
  · exact List.append_cancel_left e ▸ stops
  · exact old s' l there

theorem endsWithin_eq_false {text : List Cell} (h : endsWithin text = false) :
    plain text = [Bytes.slash] := by
  simpa [endsWithin] using h

/-! ## new branches -/

mutual

theorem graft_spec : ∀ (n : Nat) {weight : Nat} {p : Pattern} {leaf : Leaf α} {t : Tree α},
    2 * p.length + 1 ≤ n → p.Clean → graft n weight none p leaf = .ok t →
    t.Sound ∧ t.Has = Listing.empty.plus p.shape leaf ∧ t.text = plain p.text
  | 0, _, _, _, _, enough, _, _ => by omega
  | n + 1, weight, p, leaf, t, enough, clean, h => by
    have whole := Pattern.ofText_text_append_wild p
    have shape : p.shape = literal (plain p.text) ++ Pattern.shape p.wild := by
      rw [← Pattern.shape_ofText, ← Pattern.shape_append, whole]
    rw [graft] at h
    rcases Pattern.wild_cases p with none | ⟨w, ws, wild, notByte⟩
    · rw [none] at h shape
      cases h
      refine ⟨⟨clean.text, trivial, Forest.branching_nil, trivial⟩, ?_, rfl⟩
      simp [Tree.Has, Forest.Has, Wild.Has, shape]
    · rw [wild] at h shape whole
      obtain ⟨u, grafted, e⟩ := bind_eq_ok h
      cases e
      have length : (w :: ws).length ≤ p.length := by
        rw [← whole, List.length_append]
        exact Nat.le_add_left _ _
      obtain ⟨sound, has⟩ := graftWild_spec n (by omega) (whole ▸ clean).append.2 notByte grafted
      refine ⟨⟨clean.text, trivial, Forest.branching_nil, sound⟩, ?_, rfl⟩
      simp [Tree.Has, Forest.Has, has, shape]

theorem graftWild_spec : ∀ (n : Nat) {q : Piece} {p : Pattern} {leaf : Leaf α} {w : Wild α},
    2 * (q :: p).length ≤ n → Pattern.Clean (q :: p) → q.isByte = false →
    graftWild n (q :: p) leaf = .ok w →
    w.Sound ∧ w.Has = Listing.empty.plus (Pattern.shape (q :: p)) leaf
  | 0, _, _, _, _, enough, _, _, _ => by
    rw [List.length_cons] at enough
    omega
  | n + 1, q, p, leaf, w, enough, clean, notByte, h => by
    cases q with
    | byte => cases notByte
    | rest name =>
      rw [graftWild] at h
      by_cases last : p = []
      · rw [if_pos last] at h
        cases h
        refine ⟨trivial, ?_⟩
        simp [Wild.Has, last, Piece.step]
      · rw [if_neg last] at h
        cases h
    | param index name =>
      rcases cut : Pattern.cutSegment p with ⟨segment, others⟩
      rw [graftWild, cut] at h
      cases literal : literalText? segment with
      | none =>
        simp only [literal] at h
        cases h
      | some text =>
        obtain rfl := Pattern.literalText?_eq_some_iff.mp literal
        have cut := Pattern.cut_of_cutSegment cut
        obtain ⟨cleanText, cleanOthers⟩ :=
          cut.clean fun c mem => clean c (List.mem_cons_of_mem _ mem)
        simp only [literal] at h
        cases text with
        | nil =>
          cases h
          obtain rfl := cut.some rfl
          refine ⟨⟨trivial, Forest.ending_nil, fun _ => nofun⟩, ?_⟩
          simp [Wild.Has, Forest.Has, Piece.step]
        | cons c text =>
          obtain ⟨u, grafted, e⟩ := bind_eq_ok h
          cases e
          have length : p.length = text.length + 1 + others.length := by
            rw [cut.whole, List.length_append, Pattern.ofText, List.length_map, List.length_cons]
          rw [List.length_cons] at enough
          obtain ⟨sound, has, same⟩ := graftEnd_spec n (by omega) cleanText cleanOthers grafted
          rw [← same] at has
          have some : u.text ≠ [] := same ▸ List.cons_ne_nil _ _
          have ending := Tree.Ending.of_plus some has (same ▸ cut.stops) nofun
          refine ⟨⟨⟨sound, trivial⟩, Forest.ending_single ending, fun only => ?_⟩, ?_⟩
          · exact List.forall_mem_singleton.mpr (same.trans (endsWithin_eq_false only))
          · simp [Wild.Has, Forest.has_single, has, same, cut.shape, Piece.step]

theorem graftEnd_spec : ∀ (n : Nat) {text : List Cell} {p : Pattern} {leaf : Leaf α} {t : Tree α},
    2 * p.length + 2 ≤ n → (∀ c ∈ text, c.Clean) → p.Clean → graftEnd n text p leaf = .ok t →
    t.Sound ∧ t.Has = Listing.empty.plus (literal (plain text) ++ p.shape) leaf
      ∧ t.text = plain text
  | 0, _, _, _, _, enough, _, _, _ => by omega
  | n + 1, text, p, leaf, t, enough, clean, clean', h => by
    cases p with
    | nil =>
      rw [graftEnd] at h
      cases h
      refine ⟨⟨clean, trivial, Forest.branching_nil, trivial⟩, ?_, rfl⟩
      simp [Tree.Has, Forest.Has, Wild.Has]
    | cons q p =>
      rw [List.length_cons] at enough
      cases q with
      | byte c =>
        rw [graftEnd] at h
        obtain ⟨u, grafted, e⟩ := bind_eq_ok h
        cases e
        obtain ⟨sound, has, first⟩ := graft_spec n (by rw [List.length_cons]; omega) clean' grafted
        have some : u.text ≠ [] := first ▸ List.cons_ne_nil _ _
        refine ⟨⟨clean, ⟨sound, trivial⟩, Forest.branching_single some, trivial⟩, ?_, rfl⟩
        simp [Tree.Has, Forest.has_single, Wild.Has, has]
      | param | rest =>
        rw [graftEnd] at h
        · obtain ⟨u, grafted, e⟩ := bind_eq_ok h
          cases e
          obtain ⟨sound, has⟩ :=
            graftWild_spec n (by rw [List.length_cons]; omega) clean' rfl grafted
          refine ⟨⟨clean, trivial, Forest.branching_nil, sound⟩, ?_, rfl⟩
          simp [Tree.Has, Forest.Has, has]
        · nofun

end

/-! ## common text -/

def Tree.cells : Tree α → List Cell
  | .node _ text _ _ _ => text

theorem Tree.text_eq (t : Tree α) : t.text = plain t.cells := by
  cases t
  rfl

theorem Tree.Sound.clean {t : Tree α} (h : t.Sound) : ∀ c ∈ t.cells, c.Clean := by
  cases t
  exact h.1

/-- a text and a pattern have a front in common, and part behind it -/
structure Parts (text : List Cell) (p : Pattern) (upper lower : List Cell) (q : Pattern) :
    Prop where
  whole : text = upper ++ lower
  pattern : p = Pattern.ofText upper ++ q
  length : commonLength text p = upper.length
  part : ∀ c s r, lower = c :: s → q ≠ .byte c :: r

theorem exists_parts (text : List Cell) (p : Pattern) :
    ∃ upper lower q, Parts text p upper lower q := by
  have stop (text : List Cell) (p : Pattern) (none : commonLength text p = 0)
      (part : ∀ c s r, text = c :: s → p ≠ .byte c :: r) :
      ∃ upper lower q, Parts text p upper lower q := ⟨[], text, p, rfl, rfl, none, part⟩
  induction text generalizing p with
  | nil => exact stop [] p rfl nofun
  | cons c text ih =>
    cases p with
    | nil => exact stop (c :: text) [] rfl nofun
    | cons q p =>
      cases q with
      | param | rest => exact stop _ _ rfl nofun
      | byte d =>
        by_cases same : c = d
        · subst same
          obtain ⟨upper, lower, q, parts⟩ := ih p
          refine ⟨c :: upper, lower, q, ?_, ?_, ?_, parts.part⟩
          · rw [parts.whole]
            rfl
          · rw [parts.pattern]
            rfl
          · rw [commonLength, if_pos rfl, parts.length, List.length_cons]
        · refine stop _ _ (by rw [commonLength, if_neg same]) fun e s r here there => same ?_
          cases here
          cases there
          rfl

section
variable {text upper lower : List Cell} {q : Pattern}

theorem Parts.shape (h : Parts text p upper lower q) :
    p.shape = literal (plain upper) ++ q.shape := by
  rw [h.pattern, Pattern.shape_append, Pattern.shape_ofText]

/-- a text that is all of the front of a pattern is not cut -/
theorem Parts.of_front (h : Parts text p upper lower q) {others : Pattern}
    (front : p = Pattern.ofText text ++ others) : upper = text ∧ q = others := by
  have e := h.pattern
  rw [front, h.whole, Pattern.ofText, Pattern.ofText, List.map_append, List.append_assoc] at e
  have rest := List.append_cancel_left e
  cases lower with
  | nil => exact ⟨(h.whole.trans (List.append_nil _)).symm, rest.symm⟩
  | cons c s => exact absurd rest.symm (h.part c s _ rfl)

/-- a node that has been cut in two, with a route put in where it has been cut -/
def Tree.cut (weight : Nat) (upper : List Cell) (below : Tree α) (q : Pattern) (new : Leaf α) :
    Except InsertError (Tree α) :=
  match q with
  | [] => .ok (.node weight upper (some new) (.single below) .none)
  | .byte c :: rest => do
    let t ← graft (graftFuel (.byte c :: rest)) 1 none (.byte c :: rest) new
    return .node weight upper none (.cons below (.single t)) .none
  | w :: rest => do
    let wild ← graftWild (graftFuel (w :: rest)) (w :: rest) new
    return .node weight upper none (.single below) wild

/-- a node with a route put in below its text -/
def Tree.insertInto (weight : Nat) (text : List Cell) (leaf : Option (Leaf α)) (branches : Forest α)
    (wild : Wild α) (q : Pattern) (new : Leaf α) : Except InsertError (Tree α) :=
  match q with
  | [] =>
    match leaf with
    | some old => .error (sameShape new.pattern old)
    | none => .ok (.node weight text (some new) branches wild)
  | .byte c :: rest => do
    let branches ← branches.insert c.byte (.byte c :: rest) new
    return .node weight text leaf branches wild
  | w :: rest => do
    let wild ← wild.insert (w :: rest) new
    return .node weight text leaf branches wild

theorem Tree.insert_of_parts {weight : Nat} {leaf : Option (Leaf α)} {branches : Forest α}
    {wild : Wild α} {new : Leaf α} (h : Parts text p upper lower q) :
    (Tree.node weight text leaf branches wild).insert p new =
      if lower ≠ [] then Tree.cut (weight + 1) upper (.node weight lower leaf branches wild) q new
      else Tree.insertInto (weight + 1) text leaf branches wild q new := by
  obtain ⟨whole, pattern, length, -⟩ := h
  have front : text.take upper.length = upper := by rw [whole, List.take_left]
  have behind : text.drop upper.length = lower := by rw [whole, List.drop_left]
  have left : p.drop upper.length = q := by
    have same : (Pattern.ofText upper).length = upper.length := List.length_map _
    rw [pattern, ← same, List.drop_left]
  have longer : upper.length < text.length ↔ lower ≠ [] := by
    rw [whole, List.length_append]
    exact (Nat.lt_add_right_iff_pos).trans List.length_pos_iff
  unfold Tree.insert
  simp only [length, front, behind, left, longer]
  rfl

end

/-! ## cutting a node -/

theorem graft_fuel {q : Pattern} {weight : Nat} {t : Tree α} (clean : q.Clean)
    (h : graft (graftFuel q) weight none q leaf = .ok t) :
    t.Sound ∧ t.Has = Listing.empty.plus q.shape leaf ∧ t.text = plain q.text :=
  graft_spec (graftFuel q) (Nat.le_succ _) clean h

theorem graftWild_fuel {w : Piece} {q : Pattern} {v : Wild α} (clean : Pattern.Clean (w :: q))
    (notByte : w.isByte = false) (h : graftWild (graftFuel (w :: q)) (w :: q) leaf = .ok v) :
    v.Sound ∧ v.Has = Listing.empty.plus (Pattern.shape (w :: q)) leaf :=
  graftWild_spec _ (Nat.le_add_right _ 2) clean notByte h

/-- a route that ends where the new one goes on with a parameter stays -/
theorem graft_above {w : Piece} {q : Pattern} {weight : Nat} {above : Option (Leaf α)} {t : Tree α}
    (clean : Pattern.Clean (w :: q)) (notByte : w.isByte = false)
    (h : graft (graftFuel (w :: q)) weight above (w :: q) leaf = .ok t) :
    t.Sound ∧ t.Has = (Listing.ofEnd above).plus (Pattern.shape (w :: q)) leaf := by
  have wild : Pattern.wild (w :: q) = w :: q := List.dropWhile_cons_of_neg (by simp [notByte])
  have text : Pattern.text (w :: q) = [] := by
    cases w with
    | byte => cases notByte
    | param | rest => rfl
  rw [graftFuel, graft, wild, text] at h
  obtain ⟨v, grafted, e⟩ := bind_eq_ok h
  cases e
  obtain ⟨sound, has⟩ := graftWild_spec _ (Nat.le_succ _) clean notByte grafted
  refine ⟨⟨nofun, trivial, Forest.branching_nil, sound⟩, ?_⟩
  simp [Tree.Has, Forest.Has, has, plain, literal]

/-- where the two part, they begin with different octets -/
theorem Tree.cut_spec {weight : Nat} {upper : List Cell} {below t' : Tree α} {q : Pattern}
    (cleanUpper : ∀ c ∈ upper, c.Clean) (sound : below.Sound) (some : below.cells ≠ [])
    (clean : q.Clean) (part : ∀ c s r, below.cells = c :: s → q ≠ .byte c :: r)
    (h : Tree.cut weight upper below q leaf = .ok t') :
    t'.Sound ∧ t'.text = plain upper
      ∧ t'.Has = (below.Has.behind (literal (plain upper))).plus
          (literal (plain upper) ++ q.shape) leaf := by
  have goes : below.text ≠ [] := by
    rw [below.text_eq]
    exact fun none => some (List.map_eq_nil_iff.mp none)
  cases q with
  | nil =>
    cases h
    refine ⟨⟨cleanUpper, ⟨sound, trivial⟩, Forest.branching_single goes, trivial⟩, rfl, ?_⟩
    simp [Tree.Has, Forest.has_single, Wild.Has]
  | cons w q =>
    cases w with
    | byte c =>
      obtain ⟨u, grafted, e⟩ := bind_eq_ok h
      cases e
      obtain ⟨sound', has, first⟩ := graft_fuel clean grafted
      have branching : (Forest.cons below (.single u)).Branching := by
        obtain ⟨d, s, cells⟩ := List.exists_cons_of_ne_nil some
        have other : d.byte ≠ c.byte := fun same => by
          have cleanD := sound.clean d (cells ▸ List.mem_cons_self)
          have same := cleanD.ext (clean c List.mem_cons_self) same
          exact part d s q cells (same ▸ rfl)
        have head : below.text.head? ≠ u.text.head? := by
          rw [below.text_eq, cells, first]
          exact fun e => other (Option.some.inj e)
        refine ⟨List.forall_mem_cons.mpr ⟨goes, List.forall_mem_singleton.mpr ?_⟩, ?_⟩
        · rw [first]
          exact List.cons_ne_nil _ _
        · exact List.nodup_cons.mpr ⟨fun mem => head (List.mem_singleton.mp mem),
            List.nodup_singleton _⟩
      refine ⟨⟨cleanUpper, ⟨sound, sound', trivial⟩, branching, trivial⟩, rfl, ?_⟩
      simp [Tree.Has, Forest.Has, Forest.has_single, Wild.Has, has]
    | param | rest =>
      obtain ⟨u, grafted, e⟩ := bind_eq_ok h
      cases e
      obtain ⟨sound', has⟩ := graftWild_fuel clean rfl grafted
      refine ⟨⟨cleanUpper, ⟨sound, trivial⟩, Forest.branching_single goes, sound'⟩, rfl, ?_⟩
      simp [Tree.Has, Forest.has_single, has]

theorem Tree.insertInto_spec {weight weight' : Nat} {text : List Cell} {here : Option (Leaf α)}
    {branches : Forest α} {wild : Wild α} {q : Pattern} {t' : Tree α}
    (sound : (Tree.node weight text here branches wild).Sound)
    (ofBranches : ∀ c rest f, q = .byte c :: rest → branches.insert c.byte q leaf = .ok f →
      f.Sound ∧ f.Branching ∧ f.Has = branches.Has.plus q.shape leaf)
    (ofWild : ∀ w rest v, q = w :: rest → w.isByte = false → wild.insert q leaf = .ok v →
      v.Sound ∧ v.Has = wild.Has.plus q.shape leaf)
    (h : Tree.insertInto weight' text here branches wild q leaf = .ok t') :
    t'.Sound ∧ t'.text = plain text
      ∧ t'.Has = ((Tree.node weight text here branches wild).Has).plus
          (literal (plain text) ++ q.shape) leaf := by
  obtain ⟨clean, soundBranches, branching, soundWild⟩ := sound
  cases q with
  | nil =>
    cases here with
    | some => cases h
    | none =>
      cases h
      refine ⟨⟨clean, soundBranches, branching, soundWild⟩, rfl, ?_⟩
      simp [Tree.Has]
  | cons w q =>
    cases w with
    | byte c =>
      obtain ⟨f, grown, e⟩ := bind_eq_ok h
      cases e
      obtain ⟨sound', branching', has⟩ := ofBranches c q f rfl grown
      refine ⟨⟨clean, sound', branching', soundWild⟩, rfl, ?_⟩
      simp [Tree.Has, has]
    | param | rest =>
      obtain ⟨v, grown, e⟩ := bind_eq_ok h
      cases e
      obtain ⟨sound', has⟩ := ofWild _ q v rfl rfl grown
      refine ⟨⟨clean, soundBranches, branching, sound'⟩, rfl, ?_⟩
      simp [Tree.Has, has]

/-! ## inserting -/

/-- the text that a pattern begins with is not cut -/
theorem Tree.text_of_parts {t t' : Tree α} {text upper lower : List Cell} {others q : Pattern}
    (parts : Parts t.cells p upper lower q) (same : t'.text = plain upper)
    (clean : ∀ c ∈ t.cells, c.Clean) (clean' : ∀ c ∈ text, c.Clean) (here : t.text = plain text)
    (front : p = Pattern.ofText text ++ others) : t'.text = t.text := by
  have cells : t.cells = text := eq_of_plain_eq clean clean' (t.text_eq ▸ here)
  rw [same, (parts.of_front (cells ▸ front)).1, t.text_eq]

theorem Tree.head_of_parts {t t' : Tree α} {c : Cell} {upper lower : List Cell} {q : Pattern}
    (parts : Parts t.cells (.byte c :: p) upper lower q) (same : t'.text = plain upper)
    (clean : ∀ c ∈ t.cells, c.Clean) (clean' : c.Clean) (starts : t.startsWith c.byte = true) :
    t'.startsWith c.byte = true := by
  rw [Tree.startsWith_iff, t.text_eq] at starts
  obtain ⟨text, e⟩ := List.head?_eq_some_iff.mp starts
  obtain ⟨d, cells, whole, first, -⟩ := List.map_eq_cons_iff.mp e
  obtain rfl : d = c := (clean d (whole ▸ List.mem_cons_self)).ext clean' first
  rw [Tree.startsWith_iff, same]
  cases upper with
  | nil =>
    have behind := parts.whole.symm.trans whole
    exact absurd parts.pattern.symm (parts.part d cells p behind)
  | cons a upper =>
    have e := whole.symm.trans parts.whole
    rw [(List.cons_eq_cons.mp e).1]
    rfl

theorem Forest.trees_moveUp (b : UInt8) (t : Tree α) (f : Forest α) :
    (f.moveUp b t).trees.Perm (t :: f.trees) := by
  cases f with
  | nil => exact List.Perm.refl _
  | cons u others =>
    rw [moveUp]
    split
    · exact List.Perm.swap _ _ _
    · exact List.Perm.refl _

theorem Forest.branching_cons {t : Tree α} {f : Forest α} : (Forest.cons t f).Branching
    ↔ t.text ≠ [] ∧ (∀ u ∈ f.trees, u.text.head? ≠ t.text.head?) ∧ f.Branching := by
  constructor
  · rintro ⟨some, apart⟩
    obtain ⟨first, some⟩ := List.forall_mem_cons.mp some
    obtain ⟨other, apart⟩ := List.nodup_cons.mp apart
    exact ⟨first, fun u mem e => other (List.mem_map.mpr ⟨u, mem, e⟩), some, apart⟩
  · rintro ⟨first, other, some, apart⟩
    refine ⟨List.forall_mem_cons.mpr ⟨first, some⟩, List.nodup_cons.mpr ⟨fun mem => ?_, apart⟩⟩
    obtain ⟨u, mem, e⟩ := List.mem_map.mp mem
    exact other u mem e

theorem Forest.ending_cons {t : Tree α} {f : Forest α} : (Forest.cons t f).Ending
    ↔ t.Ending ∧ (∀ u ∈ f.trees, u.text ≠ t.text ∧ u.text.length ≤ t.text.length) ∧ f.Ending := by
  constructor
  · rintro ⟨ending, apart, longer⟩
    obtain ⟨first, ending⟩ := List.forall_mem_cons.mp ending
    obtain ⟨other, apart⟩ := List.nodup_cons.mp apart
    obtain ⟨le, longer⟩ := List.pairwise_cons.mp longer
    refine ⟨first, fun u mem => ⟨fun e => ?_, le u mem⟩, ending, apart, longer⟩
    exact other (List.mem_map.mpr ⟨u, mem, e⟩)
  · rintro ⟨first, other, ending, apart, longer⟩
    refine ⟨List.forall_mem_cons.mpr ⟨first, ending⟩, List.nodup_cons.mpr ⟨fun mem => ?_, apart⟩,
      List.pairwise_cons.mpr ⟨fun u mem => (other u mem).2, longer⟩⟩
    obtain ⟨u, mem, e⟩ := List.mem_map.mp mem
    exact (other u mem).1 e

section
variable {f g : Forest α}

theorem Forest.has_of_perm (perm : f.trees.Perm g.trees) : f.Has = g.Has :=
  Listing.ext fun s l => by simp only [Forest.has_iff, perm.mem_iff]

theorem Forest.sound_of_perm (perm : f.trees.Perm g.trees) (h : g.Sound) : f.Sound :=
  Forest.sound_iff.mpr fun t mem => Forest.sound_iff.mp h t (perm.mem_iff.mp mem)

theorem Forest.Branching.of_perm (perm : f.trees.Perm g.trees) (h : g.Branching) : f.Branching :=
  ⟨fun t mem => h.some t (perm.mem_iff.mp mem), (perm.map _).nodup_iff.mpr h.apart⟩

end

/-- there is no end yet with the text that a route is put in with as a new end -/
theorem Forest.text_ne_of_insertAtEnd {f : Forest α} {text : Bytes}
    (h : f.insertAtEnd text p leaf = .ok none) : ∀ t ∈ f.trees, t.text ≠ text := by
  induction f using Forest.trees.induct with
  | case1 =>
    intro t mem
    cases mem
  | case2 t others ih =>
    rw [Forest.insertAtEnd] at h
    by_cases same : t.text = text
    · rw [if_pos same] at h
      obtain ⟨u, -, e⟩ := bind_eq_ok h
      cases e
    · rw [if_neg same] at h
      obtain ⟨found, below, e⟩ := bind_eq_ok h
      cases found with
      | none => exact List.forall_mem_cons.mpr ⟨same, ih below⟩
      | some => cases e

theorem Forest.forall_text {f f' : Forest α} {P : Bytes → Prop}
    (texts : f'.trees.map Tree.text = f.trees.map Tree.text) (h : ∀ t ∈ f.trees, P t.text) :
    ∀ t ∈ f'.trees, P t.text := by
  rw [← List.forall_mem_map] at h ⊢
  exact texts ▸ h

/-- a parameter with a new end has the routes below it -/
theorem Wild.insertEnd_spec {within : Bool} {old : Option (Leaf α)} {ends : Forest α} {u : Tree α}
    {text : List Cell} {s : Shape} (sound : (Wild.param within old ends).Sound) (soundEnd : u.Sound)
    (same : u.text = plain text) (some : u.text ≠ []) (stops : Stops u.text s)
    (has : u.Has = Listing.empty.plus (literal u.text ++ s) leaf)
    (new : ∀ t ∈ ends.trees, t.text ≠ u.text) :
    (Wild.param (within || endsWithin text) old (ends.insertEnd u)).Sound
      ∧ (Wild.param (within || endsWithin text) old (ends.insertEnd u)).Has
        = (Wild.param within old ends).Has.plus (.param :: (literal u.text ++ s)) leaf := by
  obtain ⟨soundEnds, ending, only⟩ := sound
  have end' := Tree.Ending.of_plus some has stops nofun
  have perm : (ends.insertEnd u).trees.Perm (Forest.cons u ends).trees :=
    Forest.trees_insertEnd u ends
  refine ⟨⟨Forest.sound_of_perm perm ⟨soundEnd, soundEnds⟩, ending.insertEnd end' new,
    fun closes t mem => ?_⟩, ?_⟩
  · obtain ⟨plain, slash⟩ := Bool.or_eq_false_iff.mp closes
    rcases List.mem_cons.mp (perm.mem_iff.mp mem) with rfl | old
    · exact same.trans (endsWithin_eq_false slash)
    · exact only plain t old
  · simp [Wild.Has, Forest.has_of_perm perm, Forest.Has, has]

mutual

/-- a route that is put in is one route more, and cuts the text of the node where the two part -/
theorem Tree.insert_spec : ∀ (t : Tree α) {p : Pattern} {new : Leaf α} {t' : Tree α}, t.Sound →
    p.Clean → p.Spaced → t.insert p new = .ok t' →
    t'.Sound ∧ t'.Has = t.Has.plus p.shape new
      ∧ ∃ upper lower q, Parts t.cells p upper lower q ∧ t'.text = plain upper
  | .node weight text leaf branches wild, p, new, t', sound, clean, spaced, h => by
    obtain ⟨upper, lower, q, parts⟩ := exists_parts text p
    rw [Tree.insert_of_parts parts] at h
    obtain ⟨cleanText, soundBranches, branching, soundWild⟩ := sound
    have cleanQ : q.Clean := (parts.pattern ▸ clean).append.2
    have spacedQ : q.Spaced := (parts.pattern ▸ spaced).of_append
    by_cases some : lower ≠ []
    · rw [if_pos some] at h
      have cleanBoth : ∀ c ∈ upper ++ lower, c.Clean := parts.whole ▸ cleanText
      obtain ⟨cleanUpper, cleanLower⟩ := List.forall_mem_append.mp cleanBoth
      have soundBelow : (Tree.node weight lower leaf branches wild).Sound :=
        ⟨cleanLower, soundBranches, branching, soundWild⟩
      obtain ⟨sound', same, has⟩ := Tree.cut_spec cleanUpper soundBelow some cleanQ parts.part h
      refine ⟨sound', ?_, upper, lower, q, parts, same⟩
      rw [has, parts.shape, Tree.Has, Tree.Has, ← Listing.behind_append, ← literal_append,
        parts.whole]
      simp [plain]
    · rw [if_neg some] at h
      have all : upper = text := by rw [parts.whole, not_not.mp some, List.append_nil]
      have ofBranches (c : Cell) (rest : Pattern) (f : Forest α) (e : q = .byte c :: rest)
          (grown : branches.insert c.byte q new = .ok f) :
          f.Sound ∧ f.Branching ∧ f.Has = branches.Has.plus q.shape new := by
        subst e
        obtain ⟨sound, branching, has, -⟩ :=
          Forest.insert_spec branches soundBranches branching cleanQ spacedQ grown
        exact ⟨sound, branching, has⟩
      have ofWild (w : Piece) (rest : Pattern) (v : Wild α) (e : q = w :: rest)
          (notByte : w.isByte = false) (grown : wild.insert q new = .ok v) :
          v.Sound ∧ v.Has = wild.Has.plus q.shape new := by
        subst e
        exact Wild.insert_spec wild soundWild cleanQ spacedQ notByte grown
      have sound : (Tree.node weight text leaf branches wild).Sound :=
        ⟨cleanText, soundBranches, branching, soundWild⟩
      obtain ⟨sound', same, has⟩ := Tree.insertInto_spec sound ofBranches ofWild h
      refine ⟨sound', ?_, upper, lower, q, parts, all ▸ same⟩
      rw [has, parts.shape, all]

theorem Forest.insert_spec : ∀ (f : Forest α) {c : Cell} {p : Pattern} {new : Leaf α}
    {f' : Forest α}, f.Sound → f.Branching → Pattern.Clean (.byte c :: p) → p.Spaced →
    f.insert c.byte (.byte c :: p) new = .ok f' →
    f'.Sound ∧ f'.Branching ∧ f'.Has = f.Has.plus (Pattern.shape (.byte c :: p)) new
      ∧ ∀ t ∈ f'.trees, t.startsWith c.byte = true ∨ ∃ u ∈ f.trees, t.text.head? = u.text.head?
  | .nil, c, p, new, f', _, _, clean, _, h => by
    rw [Forest.insert] at h
    obtain ⟨t, grafted, e⟩ := bind_eq_ok h
    cases e
    obtain ⟨sound, has, first⟩ := graft_fuel clean grafted
    have some : t.text ≠ [] := first ▸ List.cons_ne_nil _ _
    refine ⟨⟨sound, trivial⟩, Forest.branching_single some, (Forest.has_single t).trans has, ?_⟩
    refine List.forall_mem_singleton.mpr (.inl ?_)
    rw [Tree.startsWith_iff, first]
    rfl
  | .cons t others, c, p, new, f', sound, branching, clean, spaced, h => by
    obtain ⟨first, other, apart⟩ := Forest.branching_cons.mp branching
    rw [Forest.insert] at h
    by_cases starts : t.startsWith c.byte = true
    · rw [if_pos starts] at h
      obtain ⟨u, grown, e⟩ := bind_eq_ok h
      cases e
      obtain ⟨sound', has, upper, lower, q, parts, same⟩ :=
        Tree.insert_spec t sound.1 clean spaced grown
      have starts' :=
        Tree.head_of_parts parts same sound.1.clean (clean c List.mem_cons_self) starts
      have heads : u.text.head? = t.text.head? :=
        (Tree.startsWith_iff.mp starts').trans (Tree.startsWith_iff.mp starts).symm
      refine ⟨⟨sound', sound.2⟩, Forest.branching_cons.mpr ⟨?_, heads ▸ other, apart⟩, ?_, ?_⟩
      · intro none
        rw [Tree.startsWith_iff, none] at starts'
        cases starts'
      · rw [Forest.Has, Forest.Has, has, Listing.plus_or]
      · exact List.forall_mem_cons.mpr ⟨.inl starts',
          fun v mem => .inr ⟨v, List.mem_cons_of_mem t mem, rfl⟩⟩
    · rw [if_neg starts] at h
      obtain ⟨g, grown, e⟩ := bind_eq_ok h
      cases e
      obtain ⟨sound', branching', has, heads⟩ :=
        Forest.insert_spec others sound.2 apart clean spaced grown
      have perm : (g.moveUp c.byte t).trees.Perm (Forest.cons t g).trees :=
        Forest.trees_moveUp _ _ _
      refine ⟨Forest.sound_of_perm perm ⟨sound.1, sound'⟩,
        .of_perm perm (Forest.branching_cons.mpr ⟨first, ?_, branching'⟩), ?_, fun v mem => ?_⟩
      · intro v mem e
        rcases heads v mem with starts' | ⟨u, old, e'⟩
        · rw [Tree.startsWith_iff, e, ← Tree.startsWith_iff] at starts'
          exact starts starts'
        · exact other u old (e'.symm.trans e)
      · rw [Forest.has_of_perm perm, Forest.Has, Forest.Has, has, Listing.or_plus]
      · rcases List.mem_cons.mp (perm.mem_iff.mp mem) with rfl | new
        · exact .inr ⟨v, List.mem_cons_self, rfl⟩
        · exact (heads v new).imp_right fun ⟨u, old, e⟩ => ⟨u, List.mem_cons_of_mem t old, e⟩

theorem Wild.insert_spec : ∀ (v : Wild α) {w : Piece} {p : Pattern} {new : Leaf α} {v' : Wild α},
    v.Sound → Pattern.Clean (w :: p) → Pattern.Spaced (w :: p) → w.isByte = false →
    v.insert (w :: p) new = .ok v' →
    v'.Sound ∧ v'.Has = v.Has.plus (Pattern.shape (w :: p)) new
  | .none, w, p, new, v', _, clean, _, notByte, h => by
    rw [Wild.insert] at h
    exact graftWild_fuel clean notByte h
  | .rest old, w, p, new, v', _, _, _, _, h => by
    rw [Wild.insert] at h
    split at h <;> cases h
  | .param within leaf ends, w, p, new, v', sound, clean, spaced, notByte, h => by
    cases w with
    | byte => cases notByte
    | rest =>
      rw [Wild.insert] at h
      · cases h
      · nofun
    | param index name =>
      obtain ⟨soundEnds, ending, only⟩ := sound
      obtain ⟨spacedSegment, spacedRest⟩ := spaced
      have cleanRest : Pattern.Clean p := fun c mem => clean c (List.mem_cons_of_mem _ mem)
      rcases cut : Pattern.cutSegment p with ⟨segment, others⟩
      rw [cut] at spacedSegment
      obtain ⟨text, rfl⟩ := Pattern.exists_ofText spacedSegment
      have parted := Pattern.cut_of_cutSegment cut
      unfold Wild.insert at h
      simp only [cut] at h
      by_cases last : p = []
      · simp only [if_pos last] at h
        subst last
        cases leaf with
        | some => cases h
        | none =>
          cases h
          refine ⟨⟨soundEnds, ending, only⟩, ?_⟩
          simp [Wild.Has, Piece.step]
      · simp only [if_neg last, Pattern.normal_ofText] at h
        obtain ⟨found, below, h⟩ := bind_eq_ok h
        cases found with
        | some ends' =>
          cases h
          obtain ⟨sound', ending', has, texts⟩ :=
            Forest.insertAtEnd_spec ends soundEnds ending parted cleanRest spacedRest below
          have only' (closes : within = false) :=
            Forest.forall_text (P := (· = [Bytes.slash])) texts (only closes)
          refine ⟨⟨sound', ending', only'⟩, ?_⟩
          simp [Wild.Has, has, Piece.step]
        | none =>
          simp only [Pattern.literalText?_eq_some_iff.mpr rfl] at h
          obtain ⟨u, grafted, e⟩ := bind_eq_ok h
          cases e
          obtain ⟨cleanText, cleanOthers⟩ := parted.clean cleanRest
          have fuel : 2 * others.length + 2 ≤ graftFuel p := by
            rw [graftFuel, parted.whole, List.length_append]
            omega
          obtain ⟨sound', has, same⟩ := graftEnd_spec _ fuel cleanText cleanOthers grafted
          rw [← same] at has
          have some : u.text ≠ [] := by
            rw [same]
            exact fun none => last (parted.some (List.map_eq_nil_iff.mp none))
          have shape : Pattern.shape (.param index name :: p)
              = .param :: (literal u.text ++ others.shape) :=
            congrArg (_ :: ·) (parted.shape.trans (same ▸ rfl))
          rw [shape]
          exact Wild.insertEnd_spec ⟨soundEnds, ending, only⟩ sound' same some
            (same ▸ parted.stops) has (same ▸ Forest.text_ne_of_insertAtEnd below)

theorem Forest.insertAtEnd_spec : ∀ (f : Forest α) {text : List Cell} {p others : Pattern}
    {new : Leaf α} {f' : Forest α}, f.Sound → f.Ending → p.Cut text others → p.Clean → p.Spaced →
    f.insertAtEnd (plain text) p new = .ok (some f') →
    f'.Sound ∧ f'.Ending ∧ f'.Has = f.Has.plus p.shape new
      ∧ f'.trees.map Tree.text = f.trees.map Tree.text
  | .nil, text, p, others, new, f', _, _, _, _, _, h => by
    rw [Forest.insertAtEnd] at h
    cases h
  | .cons t rest, text, p, others, new, f', sound, ending, cut, clean, spaced, h => by
    rw [Forest.insertAtEnd] at h
    by_cases same : t.text = plain text
    · rw [if_pos same] at h
      obtain ⟨u, grown, e⟩ := bind_eq_ok h
      cases e
      obtain ⟨sound', has, upper, lower, q, parts, cutText⟩ :=
        Tree.insert_spec t sound.1 clean spaced grown
      have texts :=
        Tree.text_of_parts parts cutText sound.1.clean (cut.clean clean).1 same cut.whole
      have own := ending.ending t List.mem_cons_self
      have shape : p.shape = literal u.text ++ others.shape := by rw [cut.shape, texts, same]
      have end' : u.Ending := by
        refine Tree.Ending.of_plus (texts ▸ own.some) (shape ▸ has) ?_ (texts ▸ own.stops)
        exact texts ▸ same ▸ cut.stops
      obtain ⟨-, other, endingRest⟩ := Forest.ending_cons.mp ending
      refine ⟨⟨sound', sound.2⟩, Forest.ending_cons.mpr ⟨end', texts ▸ other, endingRest⟩, ?_, ?_⟩
      · rw [Forest.Has, Forest.Has, has, Listing.plus_or]
      · exact congrArg (· :: _) texts
    · rw [if_neg same] at h
      obtain ⟨found, below, h⟩ := bind_eq_ok h
      cases found with
      | none => cases h
      | some rest' =>
        cases h
        obtain ⟨first, other, endingRest⟩ := Forest.ending_cons.mp ending
        obtain ⟨sound', ending', has, texts⟩ :=
          Forest.insertAtEnd_spec rest sound.2 endingRest cut clean spaced below
        have other' := Forest.forall_text
          (P := fun text => text ≠ t.text ∧ text.length ≤ t.text.length) texts other
        refine ⟨⟨sound.1, sound'⟩, Forest.ending_cons.mpr ⟨first, other', ending'⟩, ?_, ?_⟩
        · rw [Forest.Has, Forest.Has, has, Listing.or_plus]
        · exact congrArg (_ :: ·) texts

end

end PipelinedHttp.Route
