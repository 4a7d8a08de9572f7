import PipelinedHttp.Proofs.Text.Utf8

/-!
# Ill-formed text

Octets that are no text are read as one all the same.  Where no character stands, the longest piece
with which one could have begun, or else a single octet, is replaced.

* `IllFormed`       a piece that is replaced, in terms of characters and not of the machine;
* `Awaits`          what the machine knows about the octets it has taken: those that are still to
                    come make up a character with them;
* `illFormed_of_awaits`, `illFormed_of_lead`   where the machine gives up, such a piece ends;
* `repair_eq_iff`   the text of the machine is the only one with just those pieces replaced.
-/

namespace PipelinedHttp.Utf8
variable {s t taken part : Bytes} {b : UInt8} {c d : Char} {p q : Pending} {cs cs' : List Char}

/-! ## characters at the front -/

theorem encodeChar_ne_nil (c : Char) : encodeChar c ≠ [] := by
  rcases lead_of_encodeChar c with ⟨b, octets, _⟩ | ⟨b, p, tail, octets, _⟩
  · rw [octets]
    exact List.cons_ne_nil b []
  · rw [octets]
    exact List.cons_ne_nil b tail

/-- the octets of a character, by the first of them -/
theorem encodeChar_eq_cons_iff : encodeChar c = b :: t ↔
    (lead b = .complete c ∧ t = []) ∨ ∃ p, lead b = .pending p ∧ p.Finishes t c := by
  constructor
  · intro octets
    rcases lead_of_encodeChar c with ⟨b', one, first⟩ | ⟨b', p, t', many, first, finishes⟩
    · obtain ⟨rfl, rfl⟩ := List.cons.inj (octets.symm.trans one)
      exact .inl ⟨first, rfl⟩
    · obtain ⟨rfl, rfl⟩ := List.cons.inj (octets.symm.trans many)
      exact .inr ⟨p, first, finishes⟩
  · rintro (⟨first, rfl⟩ | ⟨p, first, finishes⟩)
    · exact encodeChar_of_complete first
    · exact encodeChar_of_finishes first finishes

theorem encodeChar_append (h : encodeChar c = encodeChar d ++ s) : c = d ∧ s = [] := by
  have one : decodeFrom none (encodeChar c) = some [c] := by
    simpa [decodeFrom] using decodeFrom_encodeChar c []
  rw [h, decodeFrom_encodeChar] at one
  obtain ⟨cs, read, same⟩ := Option.map_eq_some_iff.mp one
  cases same
  exact ⟨rfl, eq_flatMap_of_decodeFrom read⟩

theorem encodeChar_append_inj (h : encodeChar c ++ s = encodeChar d ++ t) : c = d ∧ s = t := by
  have same : c = d := by
    rcases List.append_eq_append_iff.mp h with ⟨_, longer, _⟩ | ⟨_, longer, _⟩
    · exact (encodeChar_append longer).1.symm
    · exact (encodeChar_append longer).1
  subst same
  exact ⟨rfl, List.append_cancel_left h⟩

/-! ## pieces to replace -/

/-- octets with which a character begins -/
def Opens (part : Bytes) : Prop := ∃ c, part <+: encodeChar c

/-- `part`, with `s` behind it, is replaced: there is no character in front, and no more octets of
one than those in `part` -/
structure IllFormed (part s : Bytes) : Prop where
  some : part ≠ []
  no_char : ∀ c, ¬ encodeChar c <+: part ++ s
  least : Opens part ∨ part.length = 1
  most : ∀ front, front <+: part ++ s → Opens front → front.length ≤ part.length

/-- the text that octets stand for -/
inductive Repaired : Bytes → List Char → Prop
  | nil : Repaired [] []
  | char {c : Char} {s : Bytes} {cs : List Char} : Repaired s cs →
      Repaired (encodeChar c ++ s) (c :: cs)
  | replaced {part s : Bytes} {cs : List Char} : IllFormed part s → Repaired s cs →
      Repaired (part ++ s) (replacement :: cs)

theorem IllFormed.length_le {part' s' : Bytes} (h : IllFormed part s) (h' : IllFormed part' s')
    (same : part ++ s = part' ++ s') : part'.length ≤ part.length := by
  rcases h'.least with opens | one
  · exact h.most part' (same ▸ List.prefix_append part' s') opens
  · rw [one]
    exact List.length_pos_iff.mpr h.some

theorem IllFormed.inj {part' s' : Bytes} (h : IllFormed part s) (h' : IllFormed part' s')
    (same : part ++ s = part' ++ s') : part = part' ∧ s = s' :=
  List.append_inj same (Nat.le_antisymm (h'.length_le h same.symm) (h.length_le h' same))

theorem Repaired.unique (h : Repaired s cs) (h' : Repaired t cs') (same : s = t) : cs = cs' := by
  induction h generalizing t cs' with
  | nil =>
    cases h' with
    | nil => rfl
    | char _ => cases encodeChar_ne_nil _ (List.append_eq_nil_iff.mp same.symm).1
    | replaced ill _ => cases ill.some (List.append_eq_nil_iff.mp same.symm).1
  | char _ ih =>
    cases h' with
    | nil => cases encodeChar_ne_nil _ (List.append_eq_nil_iff.mp same).1
    | char rest =>
      obtain ⟨rfl, behind⟩ := encodeChar_append_inj same
      rw [ih rest behind]
    | replaced ill _ => cases ill.no_char _ (same ▸ List.prefix_append _ _)
  | replaced ill _ ih =>
    cases h' with
    | nil => cases ill.some (List.append_eq_nil_iff.mp same).1
    | char _ => cases ill.no_char _ (same.symm ▸ List.prefix_append _ _)
    | replaced ill' rest => rw [ih rest (ill.inj ill' same).2]

/-! ## what the machine has taken -/

theorem Pending.Finishes.ne_nil (h : p.Finishes t c) : t ≠ [] := by
  cases h <;> exact List.cons_ne_nil _ _

/-- whatever is pending can be completed -/
theorem Pending.exists_finishes {low high : UInt8} (more bits : Nat) (some : low ≤ high) :
    ∃ tail c, Finishes ⟨more, low, high, bits⟩ tail c := by
  induction more generalizing low high bits with
  | zero => exact ⟨_, _, .last (UInt8.le_refl low) some⟩
  | succ more ih =>
    have range : (0x80 : UInt8) ≤ 0xBF := by decide
    obtain ⟨tail, c, rest⟩ := ih (bits * 64 + (low.toNat - 0x80)) range
    exact ⟨_, c, .more (UInt8.le_refl low) some rest⟩

/-- `p` is what is pending when `taken` has been read: the octets that complete it are those with
which `taken` makes up a character -/
structure Awaits (taken : Bytes) (p : Pending) : Prop where
  some : taken ≠ []
  bounds : p.low ≤ p.high
  finishes : ∀ tail c, p.Finishes tail c ↔ tail ≠ [] ∧ encodeChar c = taken ++ tail

theorem lead_bounds (h : lead b = .pending p) : p.low ≤ p.high := by
  unfold lead at h
  repeat' split at h
  all_goals cases h
  all_goals
    dsimp only
    decide

theorem next_bounds (h : p.next b = .pending q) : q.low ≤ q.high := by
  unfold Pending.next at h
  split at h
  · dsimp only at h
    split at h
    · cases h
    · cases h
      show (0x80 : UInt8) ≤ 0xBF
      decide
  · cases h

theorem Awaits.lead (h : lead b = .pending p) : Awaits [b] p := by
  refine ⟨List.cons_ne_nil b [], lead_bounds h, fun tail c => ?_⟩
  rw [List.singleton_append, encodeChar_eq_cons_iff, h]
  constructor
  · exact fun finishes => ⟨finishes.ne_nil, .inr ⟨p, rfl, finishes⟩⟩
  · rintro ⟨_, ⟨absurd, _⟩ | ⟨_, same, finishes⟩⟩
    · cases absurd
    · cases same
      exact finishes

theorem Awaits.next (h : Awaits taken p) (goes_on : p.next b = .pending q) :
    Awaits (taken ++ [b]) q := by
  refine ⟨by simp, next_bounds goes_on, fun tail c => ?_⟩
  have one_more : p.Finishes (b :: tail) c ↔ q.Finishes tail c := by
    rw [Pending.finishes_cons_iff, goes_on]
    constructor
    · rintro (⟨absurd, _⟩ | ⟨_, same, finishes⟩)
      · cases absurd
      · cases same
        exact finishes
    · exact fun finishes => .inr ⟨q, rfl, finishes⟩
  rw [List.append_assoc, List.singleton_append]
  constructor
  · intro finishes
    exact ⟨finishes.ne_nil, ((h.finishes _ c).mp (one_more.mpr finishes)).2⟩
  · rintro ⟨_, octets⟩
    exact one_more.mp ((h.finishes _ c).mpr ⟨List.cons_ne_nil b tail, octets⟩)

theorem Awaits.complete (h : Awaits taken p) (whole : p.next b = .complete c) :
    encodeChar c = taken ++ [b] :=
  ((h.finishes [b] c).mp (Pending.finishes_cons_iff.mpr (.inl ⟨whole, rfl⟩))).2

theorem Awaits.not_opens (h : Awaits taken p) (refused : p.next b = .illFormed) :
    ¬ Opens (taken ++ [b]) := by
  rintro ⟨c, tail, octets⟩
  rw [List.append_assoc, List.singleton_append] at octets
  have finishes := (h.finishes (b :: tail) c).mpr ⟨List.cons_ne_nil b tail, octets.symm⟩
  rw [Pending.finishes_cons_iff, refused] at finishes
  rcases finishes with ⟨absurd, _⟩ | ⟨_, absurd, _⟩ <;> cases absurd

theorem Awaits.exists_char (h : Awaits taken p) :
    ∃ tail c, tail ≠ [] ∧ encodeChar c = taken ++ tail := by
  obtain ⟨tail, c, finishes⟩ := Pending.exists_finishes p.more p.bits h.bounds
  exact ⟨tail, c, (h.finishes tail c).mp finishes⟩

theorem Awaits.opens (h : Awaits taken p) : Opens taken := by
  obtain ⟨tail, c, _, octets⟩ := h.exists_char
  exact ⟨c, octets ▸ List.prefix_append taken tail⟩

theorem Awaits.no_char (h : Awaits taken p) (c : Char) : ¬ encodeChar c <+: taken := by
  rintro ⟨t, rfl⟩
  obtain ⟨tail, d, some, octets⟩ := h.exists_char
  rw [List.append_assoc] at octets
  exact some (List.append_eq_nil_iff.mp (encodeChar_append octets).2).2

theorem not_opens_of_lead (h : lead b = .illFormed) : ¬ Opens [b] := by
  rintro ⟨c, tail, octets⟩
  rw [List.singleton_append, eq_comm, encodeChar_eq_cons_iff, h] at octets
  rcases octets with ⟨absurd, _⟩ | ⟨_, absurd, _⟩ <;> cases absurd

/-! ## where the machine gives up -/

/-- a piece is replaced if it holds no character and its next octet does not go on with one -/
theorem IllFormed.of_stop (some : part ≠ []) (no_char : ∀ c, ¬ encodeChar c <+: part)
    (least : Opens part ∨ part.length = 1) (stop : ∀ b t, s = b :: t → ¬ Opens (part ++ [b])) :
    IllFormed part s := by
  have most : ∀ front, front <+: part ++ s → Opens front → front.length ≤ part.length := by
    rintro front within ⟨c, opens⟩
    refine Nat.le_of_not_lt fun longer => ?_
    obtain ⟨more, rfl⟩ := List.prefix_of_prefix_length_le (List.prefix_append part s) within
      (by omega)
    cases more with
    | nil => simp at longer
    | cons b more =>
      obtain ⟨t, rfl⟩ := (List.prefix_append_right_inj part).mp within
      refine stop b (more ++ t) rfl ⟨c, .trans ⟨more, ?_⟩ opens⟩
      rw [List.append_assoc, List.singleton_append]
  refine ⟨some, fun c within => no_char c ?_, least, most⟩
  exact List.prefix_of_prefix_length_le within (List.prefix_append part s)
    (most _ within ⟨c, List.prefix_rfl⟩)

theorem illFormed_of_awaits (h : Awaits taken p)
    (stop : ∀ b t, s = b :: t → p.next b = .illFormed) : IllFormed taken s :=
  .of_stop h.some h.no_char (.inl h.opens) fun b t e => h.not_opens (stop b t e)

theorem illFormed_of_lead (h : lead b = .illFormed) (s : Bytes) : IllFormed [b] s := by
  refine .of_stop (List.cons_ne_nil b []) (fun c within => ?_) (.inr rfl) fun b' t _ => ?_
  · rcases List.prefix_cons_iff.mp within with none | ⟨rest, octets, none⟩
    · exact encodeChar_ne_nil c none
    · rw [List.prefix_nil.mp none] at octets
      exact not_opens_of_lead h ⟨c, octets ▸ List.prefix_rfl⟩
  · rintro ⟨c, opens⟩
    exact not_opens_of_lead h ⟨c, .trans (List.prefix_append [b] [b']) opens⟩

theorem repairFrom_of_illFormed (h : p.next b = .illFormed) (s : Bytes) :
    repairFrom (some p) (b :: s) = replacement :: repairFrom none (b :: s) := by
  simp only [repairFrom, h]

/-- between characters and within one, the machine replaces ill-formed pieces and reads the rest -/
theorem repaired_repairFrom (s : Bytes) : Repaired s (repairFrom none s)
    ∧ ∀ taken p, Awaits taken p → Repaired (taken ++ s) (repairFrom (some p) s) := by
  induction s with
  | nil =>
    refine ⟨.nil, fun taken p h => ?_⟩
    exact .replaced (illFormed_of_awaits h nofun) .nil
  | cons b s ih =>
    obtain ⟨between, within⟩ := ih
    have start : Repaired (b :: s) (repairFrom none (b :: s)) := by
      unfold repairFrom
      cases first : lead b with
      | complete c =>
        have octets : b :: s = encodeChar c ++ s := by rw [encodeChar_of_complete first]; rfl
        rw [octets]
        exact .char between
      | pending p => exact within [b] p (.lead first)
      | illFormed => exact .replaced (illFormed_of_lead first s) between
    refine ⟨start, fun taken p h => ?_⟩
    have octets : taken ++ b :: s = taken ++ [b] ++ s := by simp
    cases next : p.next b with
    | complete c =>
      rw [repairFrom, next, octets, ← h.complete next]
      exact .char between
    | pending q =>
      rw [repairFrom, next, octets]
      exact within (taken ++ [b]) q (h.next next)
    | illFormed =>
      rw [repairFrom_of_illFormed next]
      refine .replaced (illFormed_of_awaits h fun b' t same => ?_) start
      rwa [← (List.cons.inj same).1]

/-- **Repaired text.**  The machine replaces the ill-formed pieces, and nothing else. -/
theorem repair_eq_iff {t : String} : repair s = t ↔ Repaired s t.toList := by
  have read := (repaired_repairFrom s).1
  constructor
  · rintro rfl
    rwa [repair, String.toList_ofList]
  · intro h
    rw [repair, read.unique h rfl, String.ofList_toList]

/-- two octets of a character of three are replaced together, those of no character one by one -/
example : repair [97, 0xE2, 0x82, 98, 0xC0, 0x80] = "a\uFFFDb\uFFFD\uFFFD" := by decide +kernel

theorem repaired_encode (t : String) : Repaired (encode t) t.toList := by
  unfold encode
  induction t.toList with
  | nil => exact .nil
  | cons c cs ih => exact .char ih

end PipelinedHttp.Utf8
