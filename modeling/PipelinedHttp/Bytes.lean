/-!
# Byte strings

Everything on the wire is a list of octets.  This file has the few operations that the rest of
the library shares:

* `ofAscii`, `decimal`      octets of a literal and of a number;
* `lower`, `fold`, `SameName`  letter case of ASCII, and equality of header names;
* `trim`, `strip?`          something cut off at the ends or in front;
* `splitOn`, `splitFirst`   pieces between separators of one octet;
* `cut?`, `lines`           pieces between separators of several.
-/

namespace PipelinedHttp

abbrev Bytes := List UInt8

namespace Bytes

/-! ## single octets -/

def tab : UInt8 := 9
def lf : UInt8 := 10
def cr : UInt8 := 13
def space : UInt8 := 32
def colon : UInt8 := 58
def slash : UInt8 := 47

def isDigit (b : UInt8) : Bool := 48 ≤ b && b ≤ 57
def isUpper (b : UInt8) : Bool := 65 ≤ b && b ≤ 90
def isLower (b : UInt8) : Bool := 97 ≤ b && b ≤ 122
def isAlphanumeric (b : UInt8) : Bool := isDigit b || isUpper b || isLower b

def isBlank (b : UInt8) : Bool := b == space || b == tab

/-- the small letter of a capital of ASCII, any other octet as it is -/
def lower (b : UInt8) : UInt8 := if isUpper b then b + 32 else b

/-! ## literals and numbers -/

def ofAscii (s : String) : Bytes := s.toList.map fun c => c.toNat.toUInt8

def crlf : Bytes := [cr, lf]

def decimal (n : Nat) : Bytes := (Nat.toDigits 10 n).map fun c => c.toNat.toUInt8

def ofDecimal? (s : Bytes) : Option Nat :=
  if s ≠ [] ∧ s.all isDigit = true then
    some (s.foldl (fun n b => 10 * n + (b.toNat - 48)) 0)
  else none

theorem bounds_of_isDigit {c : Char} (h : c.isDigit = true) : 48 ≤ c.toNat ∧ c.toNat ≤ 57 := by
  simp only [Char.isDigit, Bool.and_eq_true, decide_eq_true_eq, ge_iff_le,
    UInt32.le_iff_toNat_le] at h
  exact h

theorem toNat_toUInt8_of_isDigit {c : Char} (h : c.isDigit = true) :
    c.toNat.toUInt8.toNat = c.toNat := by
  have := bounds_of_isDigit h
  exact Nat.mod_eq_of_lt (by omega)

theorem isDigit_toUInt8 {c : Char} (h : c.isDigit = true) : isDigit c.toNat.toUInt8 = true := by
  simp only [isDigit, Bool.and_eq_true, decide_eq_true_eq, UInt8.le_iff_toNat_le]
  rw [toNat_toUInt8_of_isDigit h]
  exact bounds_of_isDigit h

theorem foldl_digits (s : List Char) (h : ∀ c ∈ s, c.isDigit = true) (n : Nat) :
    (s.map fun c => c.toNat.toUInt8).foldl (fun n b => 10 * n + (b.toNat - 48)) n
      = Nat.ofDigitChars 10 s n := by
  induction s generalizing n with
  | nil => rfl
  | cons c s ih =>
    rw [List.map_cons, List.foldl_cons, toNat_toUInt8_of_isDigit (h c List.mem_cons_self)]
    exact ih (fun d hd => h d (List.mem_cons_of_mem c hd)) _

theorem isDigit_of_mem_decimal {n : Nat} {b : UInt8} (h : b ∈ decimal n) : isDigit b = true := by
  obtain ⟨c, hc, rfl⟩ := List.mem_map.mp h
  exact isDigit_toUInt8 (Nat.isDigit_of_mem_toDigits (by decide) (by decide) hc)

theorem decimal_ne_nil (n : Nat) : decimal n ≠ [] := by
  intro h
  have := List.map_eq_nil_iff.mp h
  exact Nat.toDigits_ne_nil this

theorem ofDecimal?_decimal (n : Nat) : ofDecimal? (decimal n) = some n := by
  have digits : (decimal n).all isDigit = true :=
    List.all_eq_true.mpr fun b hb => isDigit_of_mem_decimal hb
  unfold ofDecimal?
  rw [if_pos ⟨decimal_ne_nil n, digits⟩]
  unfold decimal
  rw [foldl_digits _ fun c hc => Nat.isDigit_of_mem_toDigits (by decide) (by decide) hc,
    Nat.ofDigitChars_toDigits (by decide) (by decide)]

/-! ## letter case -/

def fold (s : Bytes) : Bytes := s.map lower

/-- equality of names: letters of ASCII are compared without their case -/
def SameName (a b : Bytes) : Prop := fold a = fold b

instance (a b : Bytes) : Decidable (SameName a b) := inferInstanceAs (Decidable (fold a = fold b))

theorem SameName.refl (a : Bytes) : SameName a a := rfl

theorem SameName.symm {a b : Bytes} (h : SameName a b) : SameName b a := Eq.symm h

theorem SameName.trans {a b c : Bytes} (h : SameName a b) (k : SameName b c) : SameName a c :=
  Eq.trans h k

/-! ## cutting -/

/-- the text without the octets of a class at its end -/
def dropEndWhile (p : UInt8 → Bool) (s : Bytes) : Bytes := (s.reverse.dropWhile p).reverse

def trim (p : UInt8 → Bool) (s : Bytes) : Bytes := dropEndWhile p (s.dropWhile p)

/-- what is left of a text behind a given start -/
def strip? : Bytes → Bytes → Option Bytes
  | [], s => some s
  | _ :: _, [] => none
  | a :: t, b :: s => if a = b then strip? t s else none

theorem strip?_eq_some_iff {t s rest : Bytes} : strip? t s = some rest ↔ s = t ++ rest := by
  induction t generalizing s with
  | nil => simp [strip?]
  | cons a t ih =>
    cases s with
    | nil => simp [strip?]
    | cons b s =>
      unfold strip?
      by_cases e : a = b
      · simp [e, ih]
      · simp [e, Ne.symm e]

/-- the pieces between the occurrences of a separator; one more piece than separators -/
def splitOn (sep : UInt8) : Bytes → List Bytes
  | [] => [[]]
  | b :: s =>
    if b = sep then [] :: splitOn sep s
    else match splitOn sep s with
      | [] => [[b]]
      | piece :: more => (b :: piece) :: more

/-- what stands before and after the first occurrence of a separator; all and nothing without it -/
def splitFirst (sep : UInt8) (s : Bytes) : Bytes × Bytes :=
  (s.takeWhile (· != sep), (s.dropWhile (· != sep)).drop 1)

def cut? (text : Bytes) : Bytes → Option (Bytes × Bytes)
  | [] => (strip? text []).map fun rest => ([], rest)
  | b :: s =>
    match strip? text (b :: s) with
    | some rest => some ([], rest)
    | none => (cut? text s).map fun (front, rest) => (b :: front, rest)

theorem eq_of_cut?_eq_some {text s front rest : Bytes} (h : cut? text s = some (front, rest)) :
    s = front ++ (text ++ rest) := by
  induction s generalizing front with
  | nil =>
    obtain ⟨r, hr, e⟩ := Option.map_eq_some_iff.mp h
    cases e
    rw [List.nil_append]
    exact strip?_eq_some_iff.mp hr
  | cons b s ih =>
    unfold cut? at h
    split at h
    · rename_i r hr
      cases h
      rw [List.nil_append]
      exact strip?_eq_some_iff.mp hr
    · obtain ⟨⟨front', r⟩, hr, e⟩ := Option.map_eq_some_iff.mp h
      cases e
      rw [ih hr]
      rfl

/-- the pieces between the occurrences of `\r\n` -/
def lines : Bytes → List Bytes
  | [] => [[]]
  | [b] => [[b]]
  | b :: c :: s =>
    if b = cr ∧ c = lf then [] :: lines s
    else match lines (c :: s) with
      | [] => [[b]]
      | line :: more => (b :: line) :: more

end Bytes

end PipelinedHttp
