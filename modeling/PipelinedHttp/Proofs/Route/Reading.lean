import PipelinedHttp.Proofs.Route.Ends

/-!
# Routes as they are written

A parameter shifts the escape of a brace right behind it.  In a pattern with one parameter a segment
no shift comes to anything, so the pattern is the text of its route, piece by piece.

* `Spelt`               a pattern as it is written;
* `spelt_ofBytes`       a spaced pattern is read as it is written, and then it is clean
                        (`Spelt.clean`);
* `Takes.matches`       a path that a route takes is its pattern with the values put in;
* `Pattern.Matches.takes`   and if no route has text behind a parameter in its segment, that is all
                        there is to it.
-/

namespace PipelinedHttp.Route
variable {α : Type}

/-! ## spelling -/

/-- the pattern is the text with its braces, octets and names taken one after the other -/
inductive Spelt : Pattern → List Cell → Prop
  | nil : Spelt [] []
  | byte {c : Cell} {p s} : c.opens = false → c.closes = false → Spelt p s →
      Spelt (.byte c :: p) (c :: s)
  | param {index : Nat} {first : Cell} {others : List Cell} {p s} {o k : Cell} : o.opens = true →
      k.closes = true → first.byte ≠ star → Spelt p s →
      Spelt (.param index (plain (first :: others)) :: p) (o :: first :: others ++ k :: s)
  | rest {first : Cell} {others : List Cell} {p s} {o k : Cell} : o.opens = true →
      k.closes = true → first.byte = star → Spelt p s →
      Spelt (.rest others :: p) (o :: first :: others ++ k :: s)

/-- nothing but a brace has been written twice -/
def Paired (s : List Cell) : Prop :=
  ∀ c ∈ s, c.escaped = true → c.byte = openBrace ∨ c.byte = closeBrace

theorem paired_cells (s : Bytes) : Paired (cells s) := by
  induction s using cells.induct with
  | case1 => nofun
  | case2 b => exact List.forall_mem_singleton.mpr nofun
  | case3 b c s twice ih =>
    rw [cells, if_pos twice]
    exact List.forall_mem_cons.mpr ⟨fun _ => twice.1, ih⟩
  | case4 b c s once ih =>
    rw [cells, if_neg once]
    exact List.forall_mem_cons.mpr ⟨nofun, ih⟩

theorem Paired.of_append {s t : List Cell} (h : Paired (s ++ t)) : Paired t :=
  fun c mem => h c (List.mem_append_right s mem)

theorem clean_of_paired {c : Cell}
    (paired : c.escaped = true → c.byte = openBrace ∨ c.byte = closeBrace)
    (opens : c.opens = false) (closes : c.closes = false) : c.Clean := by
  unfold Cell.opens at opens
  unfold Cell.closes at closes
  unfold Cell.Clean
  cases escaped : c.escaped with
  | true => simpa using (paired escaped).elim .inl .inr
  | false => simp_all

theorem Spelt.clean {p : Pattern} {s : List Cell} (h : Spelt p s) (paired : Paired s) :
    p.Clean := by
  induction h with
  | nil => nofun
  | byte opens closes h ih =>
    obtain ⟨first, others⟩ := List.forall_mem_cons.mp paired
    intro c mem
    rcases List.mem_cons.mp mem with e | mem
    · cases e
      exact clean_of_paired first opens closes
    · exact ih others c mem
  | param _ _ _ h ih | rest _ _ _ h ih =>
    intro c mem
    have others := (List.forall_mem_cons.mp (Paired.of_append paired)).2
    exact ih others c ((List.mem_cons.mp mem).resolve_left nofun)

theorem cutName_eq {s name after : List Cell} (h : cutName s = some (name, after)) :
    ∃ k, k.closes = true ∧ s = name ++ k :: after := by
  induction s generalizing name with
  | nil => cases h
  | cons c s ih =>
    rw [cutName] at h
    by_cases closes : c.closes = true
    · rw [if_pos closes] at h
      cases h
      exact ⟨c, closes, rfl⟩
    · rw [if_neg closes] at h
      split at h
      · cases h
      · obtain ⟨⟨name, rest⟩, cut, e⟩ := Option.map_eq_some_iff.mp h
        cases e
        obtain ⟨k, closes, rfl⟩ := ih cut
        exact ⟨k, closes, rfl⟩

theorem cutParam_eq {s others after : List Cell} {first : Cell}
    (h : cutParam s = some (first, others, after)) :
    ∃ k, k.closes = true ∧ s = first :: others ++ k :: after := by
  cases s with
  | nil => cases h
  | cons c s =>
    rw [cutParam] at h
    split at h
    · cases h
    · obtain ⟨⟨name, rest⟩, cut, e⟩ := Option.bind_eq_some_iff.mp h
      obtain ⟨k, closes, rfl⟩ := cutName_eq cut
      simp only at e
      split at e
      · cases e
      · cases e
        exact ⟨k, closes, rfl⟩

/-- what is read first of a text, and what is read after it -/
inductive ReadStep (n index : Nat) (c : Cell) (s : List Cell) : Pattern → Prop
  | byte {q : Pattern} : c.opens = false → c.closes = false → readPieces n index s = .ok q →
      ReadStep n index c s (.byte c :: q)
  | rest {first k : Cell} {others after : List Cell} {q : Pattern} : c.opens = true →
      k.closes = true → s = first :: others ++ k :: after → first.byte = star →
      readPieces n index after = .ok q → ReadStep n index c s (.rest others :: q)
  | param {first k : Cell} {others after : List Cell} {q : Pattern} : c.opens = true →
      k.closes = true → s = first :: others ++ k :: after → first.byte ≠ star →
      readPieces n (index + 1) (shiftEscape (others.length + 1) 1 after) = .ok q →
      ReadStep n index c s (.param index (plain (first :: others)) :: q)

theorem readStep_of_readPieces {n index : Nat} {c : Cell} {s : List Cell} {p : Pattern}
    (h : readPieces (n + 1) index (c :: s) = .ok p) : ReadStep n index c s p := by
  have mapped {x : Except InsertError Pattern} {w : Piece} (e : x.map (w :: ·) = .ok p) :
      ∃ q, x = .ok q ∧ p = w :: q := by
    cases x with
    | error => cases e
    | ok q => exact ⟨q, rfl, (Except.ok.inj e).symm⟩
  rw [readPieces] at h
  by_cases closes : c.closes = true
  · rw [if_pos closes] at h
    cases h
  · rw [if_neg closes] at h
    by_cases opens : c.opens = true
    · rw [if_pos opens] at h
      cases cut : cutParam s with
      | none =>
        rw [cut] at h
        cases h
      | some parts =>
        obtain ⟨first, others, after⟩ := parts
        obtain ⟨k, ends, e⟩ := cutParam_eq cut
        simp only [cut] at h
        by_cases starred : first.byte = star
        · rw [if_pos starred] at h
          obtain ⟨q, read, rfl⟩ := mapped h
          exact .rest opens ends e starred read
        · rw [if_neg starred] at h
          split at h
          · cases h
          · obtain ⟨q, read, rfl⟩ := mapped h
            rw [plain, List.length_map, List.length_cons] at read
            exact .param opens ends e starred read
    · rw [if_neg opens] at h
      obtain ⟨q, read, rfl⟩ := mapped h
      exact .byte (by simpa using opens) (by simpa using closes) read

/-- an escape that is shifted away leaves a brace that opens or closes a parameter -/
theorem shiftEscape_cases {s : List Cell} (paired : Paired s) (n : Nat) :
    shiftEscape (n + 1) 1 s = s
      ∨ ∃ c t, shiftEscape (n + 1) 1 s = c :: t ∧ (c.opens = true ∨ c.closes = true) := by
  cases s with
  | nil => exact .inl rfl
  | cons c s =>
    rw [shiftEscape]
    by_cases escaped : c.escaped = true
    · rw [if_pos escaped, if_pos (Nat.le_add_left 1 n), Nat.add_sub_cancel]
      cases n with
      | zero =>
        left
        rw [escapeAt, ← escaped]
      | succ n =>
        refine .inr ⟨{ c with escaped := false }, escapeAt n s, rfl, ?_⟩
        exact (paired c List.mem_cons_self escaped).imp (by simp [Cell.opens, ·])
          (by simp [Cell.closes, ·])
    · exact .inl (if_neg escaped)

/-- no parameter stands right behind another one -/
theorem not_spaced_of_wild {index : Nat} {name : Bytes} {w : Piece} {q : Pattern}
    (notByte : w.isByte = false) : ¬ Pattern.Spaced (.param index name :: w :: q) := by
  intro spaced
  have here : w ∈ (Pattern.cutSegment (w :: q)).1 := by
    rw [Pattern.cutSegment]
    split <;> exact List.mem_cons_self
  rw [spaced.1 w here] at notByte
  cases notByte

/-- with one parameter a segment, no shift comes to anything -/
theorem spelt_of_readPieces {n index : Nat} {s : List Cell} {p : Pattern} (paired : Paired s)
    (enough : s.length ≤ n) (spaced : p.Spaced) (h : readPieces n index s = .ok p) : Spelt p s := by
  induction n generalizing index s p with
  | zero =>
    obtain rfl := List.eq_nil_of_length_eq_zero (Nat.le_zero.mp enough)
    cases h
    exact .nil
  | succ n ih =>
    cases s with
    | nil =>
      rw [readPieces] at h
      cases h
      exact .nil
    | cons c s =>
      have others := (List.forall_mem_cons.mp paired).2
      rw [List.length_cons] at enough
      cases readStep_of_readPieces h with
      | byte opens closes read => exact .byte opens closes (ih others (by omega) spaced read)
      | @rest first k name after q opens closes e starred read =>
        subst e
        have paired' := (List.forall_mem_cons.mp (Paired.of_append others)).2
        have length : after.length ≤ n := by
          rw [List.length_append, List.length_cons, List.length_cons] at enough
          omega
        exact .rest opens closes starred (ih paired' length spaced read)
      | @param first k name after q opens closes e named read =>
        subst e
        have paired' := (List.forall_mem_cons.mp (Paired.of_append others)).2
        rw [List.length_append, List.length_cons, List.length_cons] at enough
        rcases shiftEscape_cases paired' name.length with same | ⟨d, t, shifted, brace⟩
        · rw [same] at read
          exact .param opens closes named (ih paired' (by omega) spaced.2 read)
        · obtain ⟨m, rfl⟩ : ∃ m, n = m + 1 := ⟨n - 1, by omega⟩
          rw [shifted] at read
          cases readStep_of_readPieces read with
          | byte opens closes => exact absurd brace (by simp [opens, closes])
          | rest | param => exact absurd spaced (not_spaced_of_wild rfl)

theorem spelt_ofBytes {s : Bytes} {p : Pattern} (h : Pattern.ofBytes s = .ok p)
    (spaced : p.Spaced) : Spelt p (cells s) :=
  spelt_of_readPieces (paired_cells s) (Nat.le_refl _) spaced h

theorem clean_ofBytes {s : Bytes} {p : Pattern} (h : Pattern.ofBytes s = .ok p)
    (spaced : p.Spaced) : p.Clean := (spelt_ofBytes h spaced).clean (paired_cells s)

theorem cells_ne_nil {s : Bytes} (some : s ≠ []) : cells s ≠ [] := by
  induction s using cells.induct with
  | case1 => exact absurd rfl some
  | case2 => exact List.cons_ne_nil _ _
  | case3 b c s twice =>
    rw [cells, if_pos twice]
    exact List.cons_ne_nil _ _
  | case4 b c s once =>
    rw [cells, if_neg once]
    exact List.cons_ne_nil _ _

theorem ofBytes_ne_nil {s : Bytes} {p : Pattern} (h : Pattern.ofBytes s = .ok p) (some : s ≠ []) :
    p ≠ [] := by
  obtain ⟨c, t, e⟩ := List.exists_cons_of_ne_nil (cells_ne_nil some)
  rw [Pattern.ofBytes, e, List.length_cons] at h
  cases readStep_of_readPieces h <;> exact List.cons_ne_nil _ _

/-! ## matching -/

theorem Takes.matches {H : Listing α} {p : Pattern} {path : Bytes} {values : List Bytes}
    (h : Takes H p.shape path values) :
    p.Matches path (p.names.zip values) ∧ (p.names.zip values).map Prod.snd = values := by
  induction p generalizing H path values with
  | nil =>
    obtain ⟨rfl, rfl⟩ := takes_nil_iff.mp h
    exact ⟨.nil, rfl⟩
  | cons a p ih =>
    cases a with
    | byte c =>
      cases path with
      | nil => cases (h.shape_nil rfl).1
      | cons b path =>
        obtain ⟨rfl, inner⟩ := takes_byte_iff.mp h
        obtain ⟨matches', values'⟩ := ih inner
        exact ⟨.byte c matches', values'⟩
    | param index name =>
      obtain ⟨value, stop, s, values, shape, rfl, some, one, -, front, -, h⟩ := takes_param_iff.mp h
      have inner :
          Takes (H.after [.param]) (Pattern.shape p) (stop ++ behindClosed path) values := by
        rw [show Pattern.shape p = literal stop ++ s from shape]
        exact takes_literal_iff.mpr ⟨behindClosed path, rfl, Listing.after_append ▸ h⟩
      obtain ⟨matches', values'⟩ := ih inner
      have whole := closed_append_behindClosed path
      rw [front, List.append_assoc] at whole
      refine ⟨whole ▸ .param index name value some one matches', congrArg (value :: ·) values'⟩
    | rest name =>
      obtain ⟨last, some, rfl⟩ := takes_rest_iff.mp h
      obtain rfl := List.map_eq_nil_iff.mp last
      exact ⟨.rest name path some, rfl⟩

/-- no text of its segment stands behind a parameter -/
def Whole : Shape → Prop
  | [] => True
  | .param :: s => (∀ a ∈ s.head?, a = .byte Bytes.slash) ∧ Whole s
  | _ :: s => Whole s

theorem Whole.stop {stop : Bytes} {s : Shape} (stops : Stops stop s)
    (whole : Whole (.param :: (literal stop ++ s))) : stop = [] ∨ stop = [Bytes.slash] := by
  cases stop with
  | nil => exact .inl rfl
  | cons b stop =>
    obtain rfl : b = Bytes.slash := Step.byte.inj (whole.1 (.byte b) rfl)
    obtain ⟨text, none, e | ⟨e, -⟩⟩ := stops
    · cases text with
      | nil => exact .inr e
      | cons a text => exact absurd ((List.cons_eq_cons.mp e).1 ▸ List.mem_cons_self) none
    · exact absurd (e ▸ List.mem_cons_self) none

/-- if no route has text behind a parameter in its segment, what a pattern matches is taken -/
theorem Pattern.Matches.takes {H : Listing α} {p : Pattern} {path : Bytes}
    {params : List (Bytes × Bytes)} (h : p.Matches path params) (whole : ∀ s l, H s l → Whole s)
    {l : Leaf α} (here : H p.shape l) : Takes H p.shape path (params.map Prod.snd) := by
  induction h generalizing H with
  | nil => exact .nil
  | byte c _ ih =>
    refine .byte (ih (fun s l there => ?_) here)
    exact whole (.byte c.byte :: s) l there
  | @param index name p s params value some one rest ih =>
    have inner : Takes (H.after [.param]) (Pattern.shape p) s (params.map Prod.snd) :=
      ih (fun t m there => (whole (.param :: t) m there).2) here
    -- what ends the segment is a slash, or the end of the pattern
    obtain ⟨stop, t, path, shape, rfl, stops, below⟩ : ∃ stop t path,
        Pattern.shape p = literal stop ++ t ∧ s = stop ++ path ∧ Stops stop t
          ∧ Takes ((H.after [.param]).after (literal stop)) t path (params.map Prod.snd) := by
      cases p with
      | nil =>
        obtain ⟨rfl, none⟩ := takes_nil_iff.mp inner
        exact ⟨[], [], [], rfl, rfl, stops_nil_iff.mpr rfl, inner⟩
      | cons q p =>
        have slash : q.step = .byte Bytes.slash := (whole _ l here).1 q.step rfl
        have split : Pattern.shape (q :: p) = literal [Bytes.slash] ++ Pattern.shape p :=
          congrArg (· :: _) slash
        rw [split] at inner
        obtain ⟨path, rfl, below⟩ := takes_literal_iff.mp inner
        exact ⟨[Bytes.slash], Pattern.shape p, path, split, rfl, ⟨[], List.not_mem_nil, .inl rfl⟩,
          below⟩
    rw [← Listing.after_append] at below
    have longest : H.Longest (value ++ stop) stop := by
      rintro value' other ⟨u, m, stops', there⟩ - e
      rcases Whole.stop stops' (whole _ m there) with rfl | rfl
      · exact Nat.zero_le _
      · cases stop with
        | nil =>
          rw [List.append_nil] at e
          exact absurd (by rw [← e]; simp) one
        | cons => exact Nat.succ_le_succ (Nat.zero_le _)
    have takes := Takes.param some one stops longest below
    rw [← shape, List.append_assoc] at takes
    exact takes
  | rest name value some => exact .rest some

end PipelinedHttp.Route
