import PipelinedHttp.Text.Utf8

/-!
# UTF-8 read back

Well-formed octets are the octets of exactly one text.

* `Pending.Finishes`        the octets that a pending character still takes, and the character
                            (`Pending.finishes_cons_iff`: one after the other);
* `encodeChar_of_finishes`  a first octet and those are the octets of the character;
* `decode?_eq_some_iff`     octets are read as a text exactly if they are the octets of that text.
-/

namespace PipelinedHttp.Utf8

/-- the octets that are still to come make up a character with those that have come -/
inductive Pending.Finishes : Pending → Bytes → Char → Prop
  | last {low high bits b} : low ≤ b → b ≤ high →
      Finishes ⟨0, low, high, bits⟩ [b] (Char.ofNat (bits * 64 + (b.toNat - 0x80)))
  | more {more low high bits b tail c} : low ≤ b → b ≤ high →
      Finishes ⟨more, 0x80, 0xBF, bits * 64 + (b.toNat - 0x80)⟩ tail c →
      Finishes ⟨more + 1, low, high, bits⟩ (b :: tail) c

theorem Pending.next_last {low high b : UInt8} (bits : Nat) (low_le : low ≤ b)
    (le_high : b ≤ high) : Pending.next ⟨0, low, high, bits⟩ b
      = .complete (Char.ofNat (bits * 64 + (b.toNat - 0x80))) := by
  unfold next
  rw [if_pos ⟨low_le, le_high⟩]

theorem Pending.next_more {low high b : UInt8} (more bits : Nat) (low_le : low ≤ b)
    (le_high : b ≤ high) : Pending.next ⟨more + 1, low, high, bits⟩ b
      = .pending ⟨more, 0x80, 0xBF, bits * 64 + (b.toNat - 0x80)⟩ := by
  unfold next
  rw [if_pos ⟨low_le, le_high⟩]

/-- what the machine does with the next octet -/
theorem Pending.finishes_cons_iff {p : Pending} {b : UInt8} {tail : Bytes} {c : Char} :
    p.Finishes (b :: tail) c ↔ (p.next b = .complete c ∧ tail = [])
      ∨ ∃ q, p.next b = .pending q ∧ q.Finishes tail c := by
  constructor
  · intro h
    cases h with
    | last low_le le_high => exact .inl ⟨next_last _ low_le le_high, rfl⟩
    | more low_le le_high rest => exact .inr ⟨_, next_more _ _ low_le le_high, rest⟩
  · obtain ⟨more, low, high, bits⟩ := p
    by_cases fits : low ≤ b ∧ b ≤ high
    · obtain ⟨low_le, le_high⟩ := fits
      cases more with
      | zero =>
        rw [next_last _ low_le le_high]
        rintro (⟨whole, rfl⟩ | ⟨_, absurd, _⟩)
        · rw [← Octet.complete.inj whole]
          exact .last low_le le_high
        · cases absurd
      | succ more =>
        rw [next_more _ _ low_le le_high]
        rintro (⟨absurd, _⟩ | ⟨_, goes_on, rest⟩)
        · cases absurd
        · cases goes_on
          exact .more low_le le_high rest
    · have refused : next ⟨more, low, high, bits⟩ b = .illFormed := if_neg fits
      rw [refused]
      rintro (⟨absurd, _⟩ | ⟨_, absurd, _⟩) <;> cases absurd

theorem Pending.Finishes.decodeFrom {p : Pending} {tail : Bytes} {c : Char}
    (h : p.Finishes tail c) (s : Bytes) :
    decodeFrom (some p) (tail ++ s) = (decodeFrom none s).map (c :: ·) := by
  induction h with
  | last low_le le_high =>
    rw [List.cons_append, Utf8.decodeFrom, octet, next_last _ low_le le_high]
    rfl
  | more low_le le_high _ ih =>
    rw [List.cons_append, Utf8.decodeFrom, octet, next_more _ _ low_le le_high]
    exact ih

theorem finishes_of_decodeFrom {p : Pending} {s : Bytes} {cs : List Char}
    (h : decodeFrom (some p) s = some cs) :
    ∃ tail rest c cs', s = tail ++ rest ∧ p.Finishes tail c ∧ decodeFrom none rest = some cs'
      ∧ cs = c :: cs' := by
  induction s generalizing p with
  | nil => cases h
  | cons b s ih =>
    rw [decodeFrom, octet] at h
    cases next : p.next b with
    | complete c =>
      rw [next] at h
      obtain ⟨cs', read, rfl⟩ := Option.map_eq_some_iff.mp h
      have finishes := Pending.finishes_cons_iff.mpr (.inl ⟨next, rfl⟩)
      exact ⟨[b], s, c, cs', rfl, finishes, read, rfl⟩
    | pending q =>
      rw [next] at h
      obtain ⟨tail, rest, c, cs', rfl, finishes, read, rfl⟩ := ih h
      have finishes := Pending.finishes_cons_iff.mpr (.inr ⟨q, next, finishes⟩)
      exact ⟨b :: tail, rest, c, cs', rfl, finishes, read, rfl⟩
    | illFormed =>
      rw [next] at h
      cases h

/-! ## single characters -/

theorem toNat_ofNat {n : Nat} (h : n < 0xD800 ∨ 0xDFFF < n ∧ n < 0x110000) :
    (Char.ofNat n).toNat = n := by
  have valid : n.isValidChar := h
  unfold Char.ofNat
  rw [dif_pos valid]
  rfl

theorem char_bounds (c : Char) : c.toNat < 0xD800 ∨ 0xDFFF < c.toNat ∧ c.toNat < 0x110000 :=
  c.valid

theorem octet_ext {n : Nat} {b : UInt8} (h : n = b.toNat) : n.toUInt8 = b := by
  subst h
  exact UInt8.ofNat_toNat

theorem octet_toNat {n : Nat} (h : n < 256) : n.toUInt8.toNat = n := Nat.mod_eq_of_lt h

/-- an octet that continues a character -/
def Continues (b : UInt8) : Prop := 0x80 ≤ b.toNat ∧ b.toNat ≤ 0xBF

theorem continues_of_le {b : UInt8}
    (h : (0x80 : UInt8).toNat ≤ b.toNat ∧ b.toNat ≤ (0xBF : UInt8).toNat) : Continues b := by
  simpa [Continues] using h

theorem encodeChar_one {b : UInt8} (low : b.toNat < 0x80) :
    encodeChar (Char.ofNat b.toNat) = [b] := by
  unfold encodeChar
  rw [toNat_ofNat (by omega)]
  simp only [if_pos low]
  rw [octet_ext rfl]

theorem encodeChar_two {a b : UInt8} (first : 0xC2 ≤ a.toNat ∧ a.toNat < 0xE0)
    (second : Continues b) :
    encodeChar (Char.ofNat ((a.toNat - 0xC0) * 64 + (b.toNat - 0x80))) = [a, b] := by
  obtain ⟨low, high⟩ := second
  unfold encodeChar
  rw [toNat_ofNat (by omega)]
  simp only
  rw [if_neg (by omega), if_pos (by omega), octet_ext (b := a) (by omega),
    octet_ext (b := b) (by omega)]

theorem encodeChar_three {a b c : UInt8} {high : Nat} (first : a.toNat = 0xE0 + high)
    (bound : high < 0x10) (second : Continues b) (third : Continues c)
    (long : high = 0 → 0xA0 ≤ b.toNat) (scalar : high = 0xD → b.toNat ≤ 0x9F) :
    encodeChar (Char.ofNat ((high * 64 + (b.toNat - 0x80)) * 64 + (c.toNat - 0x80)))
      = [a, b, c] := by
  unfold Continues at second third
  unfold encodeChar
  rw [toNat_ofNat (by omega)]
  simp only
  rw [if_neg (by omega), if_neg (by omega), if_pos (by omega), octet_ext (b := a) (by omega),
    octet_ext (b := b) (by omega), octet_ext (b := c) (by omega)]

theorem encodeChar_four {a b c d : UInt8} {high : Nat} (first : a.toNat = 0xF0 + high)
    (bound : high < 5) (second : Continues b) (third : Continues c) (fourth : Continues d)
    (long : high = 0 → 0x90 ≤ b.toNat) (scalar : high = 4 → b.toNat ≤ 0x8F) :
    encodeChar (Char.ofNat (((high * 64 + (b.toNat - 0x80)) * 64 + (c.toNat - 0x80)) * 64
      + (d.toNat - 0x80))) = [a, b, c, d] := by
  unfold Continues at second third fourth
  unfold encodeChar
  rw [toNat_ofNat (by omega)]
  simp only
  rw [if_neg (by omega), if_neg (by omega), if_neg (by omega), octet_ext (b := a) (by omega),
    octet_ext (b := b) (by omega), octet_ext (b := c) (by omega), octet_ext (b := d) (by omega)]

/-! ## first octets -/

/-- the first octet in numbers -/
theorem lead_eq (b : UInt8) : lead b =
    if b.toNat < 0x80 then .complete (Char.ofNat b.toNat)
    else if b.toNat < 0xC2 then .illFormed
    else if b.toNat < 0xE0 then .pending ⟨0, 0x80, 0xBF, b.toNat - 0xC0⟩
    else if b.toNat = 0xE0 then .pending ⟨1, 0xA0, 0xBF, 0⟩
    else if b.toNat = 0xED then .pending ⟨1, 0x80, 0x9F, 0xD⟩
    else if b.toNat < 0xF0 then .pending ⟨1, 0x80, 0xBF, b.toNat - 0xE0⟩
    else if b.toNat = 0xF0 then .pending ⟨2, 0x90, 0xBF, 0⟩
    else if b.toNat < 0xF4 then .pending ⟨2, 0x80, 0xBF, b.toNat - 0xF0⟩
    else if b.toNat = 0xF4 then .pending ⟨2, 0x80, 0x8F, 4⟩
    else .illFormed := by
  unfold lead
  simp only [UInt8.lt_iff_toNat_lt, ← UInt8.toNat_inj]
  rfl

/-- what a character of two octets takes behind the first -/
theorem Pending.Finishes.one {low high : UInt8} {bits : Nat} {tail : Bytes} {c : Char}
    (h : Finishes ⟨0, low, high, bits⟩ tail c) :
    ∃ b : UInt8, tail = [b] ∧ c = Char.ofNat (bits * 64 + (b.toNat - 0x80))
      ∧ low.toNat ≤ b.toNat ∧ b.toNat ≤ high.toNat := by
  cases h with
  | last low_le le_high => exact ⟨_, rfl, rfl, low_le, le_high⟩

theorem Pending.Finishes.two {low high : UInt8} {bits : Nat} {tail : Bytes} {c : Char}
    (h : Finishes ⟨1, low, high, bits⟩ tail c) :
    ∃ b d : UInt8, tail = [b, d]
      ∧ c = Char.ofNat ((bits * 64 + (b.toNat - 0x80)) * 64 + (d.toNat - 0x80))
      ∧ (low.toNat ≤ b.toNat ∧ b.toNat ≤ high.toNat) ∧ Continues d := by
  cases h with
  | more low_le le_high rest =>
    obtain ⟨d, rfl, value, bounds⟩ := rest.one
    exact ⟨_, d, rfl, value, ⟨low_le, le_high⟩, continues_of_le bounds⟩

theorem Pending.Finishes.three {low high : UInt8} {bits : Nat} {tail : Bytes} {c : Char}
    (h : Finishes ⟨2, low, high, bits⟩ tail c) :
    ∃ b d e : UInt8, tail = [b, d, e]
      ∧ c = Char.ofNat (((bits * 64 + (b.toNat - 0x80)) * 64 + (d.toNat - 0x80)) * 64
        + (e.toNat - 0x80))
      ∧ (low.toNat ≤ b.toNat ∧ b.toNat ≤ high.toNat) ∧ Continues d ∧ Continues e := by
  cases h with
  | more low_le le_high rest =>
    obtain ⟨d, e, rfl, value, bounds, last⟩ := rest.two
    exact ⟨_, d, e, rfl, value, ⟨low_le, le_high⟩, continues_of_le bounds, last⟩

/-- what the first octet of a character leaves open: the next octet is bounded so that the character
is not written too long, is no surrogate and is not too large -/
inductive Leads (b : UInt8) : Octet → Prop
  | one : b.toNat < 0x80 → Leads b (.complete (Char.ofNat b.toNat))
  | two : 0xC2 ≤ b.toNat → b.toNat < 0xE0 → Leads b (.pending ⟨0, 0x80, 0xBF, b.toNat - 0xC0⟩)
  | three {low high : UInt8} {bits : Nat} : b.toNat = 0xE0 + bits → bits < 0x10 →
      0x80 ≤ low.toNat ∧ high.toNat ≤ 0xBF → (bits = 0 → 0xA0 ≤ low.toNat) →
      (bits = 0xD → high.toNat ≤ 0x9F) → Leads b (.pending ⟨1, low, high, bits⟩)
  | four {low high : UInt8} {bits : Nat} : b.toNat = 0xF0 + bits → bits < 5 →
      0x80 ≤ low.toNat ∧ high.toNat ≤ 0xBF → (bits = 0 → 0x90 ≤ low.toNat) →
      (bits = 4 → high.toNat ≤ 0x8F) → Leads b (.pending ⟨2, low, high, bits⟩)
  | illFormed : Leads b .illFormed

theorem leads (b : UInt8) : Leads b (lead b) := by
  have whole : 0x80 ≤ (0x80 : UInt8).toNat ∧ (0xBF : UInt8).toNat ≤ 0xBF := by decide
  have last (bits n : Nat) (ne : bits ≠ n) {P : Prop} : bits = n → P := fun e => absurd e ne
  rw [lead_eq]
  by_cases one : b.toNat < 0x80
  · rw [if_pos one]
    exact .one one
  rw [if_neg one]
  by_cases bad : b.toNat < 0xC2
  · rw [if_pos bad]
    exact .illFormed
  rw [if_neg bad]
  by_cases two : b.toNat < 0xE0
  · rw [if_pos two]
    exact .two (by omega) two
  rw [if_neg two]
  by_cases long : b.toNat = 0xE0
  · rw [if_pos long]
    exact .three (by omega) (by omega) (by decide) (fun _ => by decide) (last _ _ (by omega))
  rw [if_neg long]
  by_cases scalar : b.toNat = 0xED
  · rw [if_pos scalar]
    exact .three (by omega) (by omega) (by decide) (last _ _ (by omega)) (fun _ => by decide)
  rw [if_neg scalar]
  by_cases three : b.toNat < 0xF0
  · rw [if_pos three]
    exact .three (by omega) (by omega) whole (last _ _ (by omega)) (last _ _ (by omega))
  rw [if_neg three]
  by_cases long' : b.toNat = 0xF0
  · rw [if_pos long']
    exact .four (by omega) (by omega) (by decide) (fun _ => by decide) (last _ _ (by omega))
  rw [if_neg long']
  by_cases four : b.toNat < 0xF4
  · rw [if_pos four]
    exact .four (by omega) (by omega) whole (last _ _ (by omega)) (last _ _ (by omega))
  rw [if_neg four]
  by_cases scalar' : b.toNat = 0xF4
  · rw [if_pos scalar']
    exact .four (by omega) (by omega) (by decide) (last _ _ (by omega)) (fun _ => by decide)
  rw [if_neg scalar']
  exact .illFormed

theorem encodeChar_of_complete {b : UInt8} {c : Char} (h : lead b = .complete c) :
    encodeChar c = [b] := by
  have leads := leads b
  rw [h] at leads
  cases leads with
  | one low => exact encodeChar_one low

/-- a first octet and those that complete its character are the octets of that character -/
theorem encodeChar_of_finishes {b : UInt8} {p : Pending} {tail : Bytes} {c : Char}
    (h : lead b = .pending p) (finishes : p.Finishes tail c) : encodeChar c = b :: tail := by
  have leads := leads b
  rw [h] at leads
  cases leads with
  | two low high =>
    obtain ⟨d, rfl, value, second⟩ := finishes.one
    rw [value]
    exact encodeChar_two ⟨low, high⟩ (continues_of_le second)
  | three first bound within long scalar =>
    obtain ⟨d, e, rfl, value, ⟨low_le, le_high⟩, third⟩ := finishes.two
    have second : Continues d := ⟨Nat.le_trans within.1 low_le, Nat.le_trans le_high within.2⟩
    rw [value]
    exact encodeChar_three first bound second third
      (fun e => Nat.le_trans (long e) low_le) (fun e => Nat.le_trans le_high (scalar e))
  | four first bound within long scalar =>
    obtain ⟨d, e, f, rfl, value, ⟨low_le, le_high⟩, third, fourth⟩ := finishes.three
    have second : Continues d := ⟨Nat.le_trans within.1 low_le, Nat.le_trans le_high within.2⟩
    rw [value]
    exact encodeChar_four first bound second third fourth
      (fun e => Nat.le_trans (long e) low_le) (fun e => Nat.le_trans le_high (scalar e))

theorem octet_between {m : Nat} {low high : UInt8} (least : low.toNat ≤ m) (most : m ≤ high.toNat) :
    low ≤ m.toUInt8 ∧ m.toUInt8 ≤ high := by
  have small : m < 256 := Nat.lt_of_le_of_lt most high.toNat_lt
  simp only [UInt8.le_iff_toNat_le, octet_toNat small]
  exact ⟨least, most⟩

theorem Pending.Finishes.last_of_eq {low high : UInt8} {bits m n : Nat} (least : low.toNat ≤ m)
    (most : m ≤ high.toNat) (value : n = bits * 64 + (m - 0x80)) :
    Finishes ⟨0, low, high, bits⟩ [m.toUInt8] (Char.ofNat n) := by
  obtain ⟨low_le, le_high⟩ := octet_between least most
  have small : m < 256 := Nat.lt_of_le_of_lt most high.toNat_lt
  have last : Finishes ⟨0, low, high, bits⟩ _ _ := .last low_le le_high
  rwa [octet_toNat small, ← value] at last

theorem Pending.Finishes.more_of_eq {low high : UInt8} {more bits m n : Nat} {tail : Bytes}
    {c : Char} (least : low.toNat ≤ m) (most : m ≤ high.toNat) (value : n = bits * 64 + (m - 0x80))
    (rest : Finishes ⟨more, 0x80, 0xBF, n⟩ tail c) :
    Finishes ⟨more + 1, low, high, bits⟩ (m.toUInt8 :: tail) c := by
  obtain ⟨low_le, le_high⟩ := octet_between least most
  refine .more low_le le_high ?_
  rwa [octet_toNat (Nat.lt_of_le_of_lt most high.toNat_lt), ← value]

theorem Pending.Finishes.tail (n : Nat) :
    Finishes ⟨0, 0x80, 0xBF, n / 64⟩ [(0x80 + n % 64).toUInt8] (Char.ofNat n) := by
  refine .last_of_eq ?_ ?_ (by omega)
  · show 128 ≤ _
    omega
  · show _ ≤ 191
    omega

theorem Pending.Finishes.tail_two (n : Nat) :
    Finishes ⟨1, 0x80, 0xBF, n / 4096⟩ [(0x80 + n / 64 % 64).toUInt8, (0x80 + n % 64).toUInt8]
      (Char.ofNat n) := by
  refine .more_of_eq ?_ ?_ (n := n / 64) (by omega) (.tail n)
  · show 128 ≤ _
    omega
  · show _ ≤ 191
    omega

theorem lead_three (bits : Nat) (bound : bits < 0x10) : lead (0xE0 + bits).toUInt8
    = .pending ⟨1, if bits = 0 then 0xA0 else 0x80, if bits = 0xD then 0x9F else 0xBF, bits⟩ := by
  rw [lead_eq, octet_toNat (by omega), if_neg (by omega), if_neg (by omega), if_neg (by omega)]
  by_cases first : bits = 0
  · subst first
    rfl
  by_cases scalar : bits = 0xD
  · subst scalar
    rfl
  rw [if_neg (by omega), if_neg (by omega), if_pos (by omega), if_neg first, if_neg scalar,
    Nat.add_sub_cancel_left]

theorem lead_four (bits : Nat) (bound : bits < 5) : lead (0xF0 + bits).toUInt8
    = .pending ⟨2, if bits = 0 then 0x90 else 0x80, if bits = 4 then 0x8F else 0xBF, bits⟩ := by
  rw [lead_eq, octet_toNat (by omega), if_neg (by omega), if_neg (by omega), if_neg (by omega),
    if_neg (by omega), if_neg (by omega), if_neg (by omega)]
  by_cases first : bits = 0
  · subst first
    rfl
  by_cases scalar : bits = 4
  · subst scalar
    rfl
  rw [if_neg (by omega), if_pos (by omega), if_neg first, if_neg scalar, Nat.add_sub_cancel_left]

/-- the octets of a character begin with one that leaves the others open -/
theorem lead_of_encodeChar (c : Char) :
    (∃ b, encodeChar c = [b] ∧ lead b = .complete c)
      ∨ ∃ b p tail, encodeChar c = b :: tail ∧ lead b = .pending p ∧ p.Finishes tail c := by
  have valid := char_bounds c
  have back : Char.ofNat c.toNat = c := Char.ofNat_toNat c
  unfold encodeChar
  generalize c.toNat = n at valid back
  simp only
  rw [← back]
  by_cases one : n < 0x80
  · left
    refine ⟨n.toUInt8, by rw [if_pos one], ?_⟩
    rw [lead_eq, octet_toNat (by omega), if_pos one]
  right
  rw [if_neg one]
  by_cases two : n < 0x800
  · refine ⟨_, ⟨0, 0x80, 0xBF, n / 64⟩, _, by rw [if_pos two], ?_, .tail n⟩
    rw [lead_eq, octet_toNat (by omega), if_neg (by omega), if_neg (by omega), if_pos (by omega),
      Nat.add_sub_cancel_left]
  rw [if_neg two]
  by_cases three : n < 0x10000
  · refine ⟨_, _, _, by rw [if_pos three], lead_three (n / 4096) (by omega), ?_⟩
    refine .more_of_eq ?_ ?_ (n := n / 64) (by omega) (.tail n)
    · split
      · show 0xA0 ≤ _
        omega
      · show 0x80 ≤ _
        omega
    · split
      · show _ ≤ 0x9F
        omega
      · show _ ≤ 0xBF
        omega
  · refine ⟨_, _, _, by rw [if_neg three], lead_four (n / 262144) (by omega), ?_⟩
    refine .more_of_eq ?_ ?_ (n := n / 4096) (by omega) (.tail_two n)
    · split
      · show 0x90 ≤ _
        omega
      · show 0x80 ≤ _
        omega
    · split
      · show _ ≤ 0x8F
        omega
      · show _ ≤ 0xBF
        omega

/-! ## texts -/

theorem decodeFrom_encodeChar (c : Char) (s : Bytes) :
    decodeFrom none (encodeChar c ++ s) = (decodeFrom none s).map (c :: ·) := by
  rcases lead_of_encodeChar c with ⟨b, octets, whole⟩ | ⟨b, p, tail, octets, first, finishes⟩
  · rw [octets, List.cons_append, decodeFrom, octet, whole]
    rfl
  · rw [octets, List.cons_append, decodeFrom, octet, first]
    exact finishes.decodeFrom s

theorem decode?_encode (t : String) : decode? (encode t) = some t := by
  have chars (cs : List Char) : decodeFrom none (cs.flatMap encodeChar) = some cs := by
    induction cs with
    | nil => rfl
    | cons c cs ih =>
      rw [List.flatMap_cons, decodeFrom_encodeChar, ih]
      rfl
  unfold decode? encode
  rw [chars, Option.map_some, String.ofList_toList]

theorem eq_flatMap_of_decodeFrom {s : Bytes} {cs : List Char} (h : decodeFrom none s = some cs) :
    s = cs.flatMap encodeChar := by
  induction cs generalizing s with
  | nil =>
    cases s with
    | nil => rfl
    | cons b s =>
      rw [decodeFrom] at h
      cases e : octet none b with
      | complete c =>
        rw [e] at h
        obtain ⟨_, _, absurd⟩ := Option.map_eq_some_iff.mp h
        cases absurd
      | pending p =>
        rw [e] at h
        obtain ⟨_, _, _, _, _, _, _, absurd⟩ := finishes_of_decodeFrom h
        cases absurd
      | illFormed =>
        rw [e] at h
        cases h
  | cons c cs ih =>
    cases s with
    | nil => cases h
    | cons b s =>
      rw [decodeFrom] at h
      cases e : octet none b with
      | complete d =>
        rw [e] at h
        obtain ⟨_, read, cons⟩ := Option.map_eq_some_iff.mp h
        cases cons
        rw [List.flatMap_cons, encodeChar_of_complete e, ← ih read]
        rfl
      | pending p =>
        rw [e] at h
        obtain ⟨tail, rest, d, _, rfl, finishes, read, cons⟩ := finishes_of_decodeFrom h
        cases cons
        rw [List.flatMap_cons, encodeChar_of_finishes e finishes, ← ih read]
        rfl
      | illFormed =>
        rw [e] at h
        cases h

/-- **Octets are a text exactly if they are the octets of that text.** -/
theorem decode?_eq_some_iff {s : Bytes} {t : String} : decode? s = some t ↔ s = encode t := by
  constructor
  · intro h
    obtain ⟨cs, read, rfl⟩ := Option.map_eq_some_iff.mp h
    unfold encode
    rw [String.toList_ofList]
    exact eq_flatMap_of_decodeFrom read
  · rintro rfl
    exact decode?_encode t

/-- text stays text with octets of ASCII behind it -/
theorem exists_decode?_append {s t : Bytes} {text : String} (h : decode? s = some text)
    (ascii : ∀ b ∈ t, b.toNat < 0x80) : ∃ text, decode? (s ++ t) = some text := by
  have octets : t = (t.map fun b => Char.ofNat b.toNat).flatMap encodeChar := by
    induction t with
    | nil => rfl
    | cons b t ih =>
      rw [List.map_cons, List.flatMap_cons, encodeChar_one (ascii b List.mem_cons_self),
        ← ih fun b mem => ascii b (List.mem_cons_of_mem _ mem)]
      rfl
  refine ⟨text ++ String.ofList (t.map fun b => Char.ofNat b.toNat), decode?_eq_some_iff.mpr ?_⟩
  rw [encode, String.toList_append, String.toList_ofList, List.flatMap_append, ← octets,
    decode?_eq_some_iff.mp h, encode]

end PipelinedHttp.Utf8
