import PipelinedHttp.Bytes

/-!
# UTF-8

A character is one to four octets.  The first octet says how many continuation octets follow and
which values the first of them may take (`lead`); each continuation octet is then checked in turn
(`Pending.next`).  Both readings below run the same octet-by-octet machine:

* `decode?`   the text, if all octets are well formed;
* `repair`    the text with one replacement character for each maximal ill-formed piece: an octet
              that does not continue a character is read again as the first octet of the next one;
* `encode`    the octets of a text.
-/

namespace PipelinedHttp.Utf8

/-- a character of which some octets are still to come: how many after the next one, the range of
the next one, and the bits so far -/
structure Pending where
  more : Nat
  low : UInt8
  high : UInt8
  bits : Nat

inductive Octet where
  | complete (c : Char)
  | pending (p : Pending)
  | illFormed

/-- the first octet of a character -/
def lead (b : UInt8) : Octet :=
  if b < 0x80 then .complete (Char.ofNat b.toNat)
  else if b < 0xC2 then .illFormed
  else if b < 0xE0 then .pending ⟨0, 0x80, 0xBF, b.toNat - 0xC0⟩
  else if b = 0xE0 then .pending ⟨1, 0xA0, 0xBF, 0⟩
  else if b = 0xED then .pending ⟨1, 0x80, 0x9F, 0xD⟩
  else if b < 0xF0 then .pending ⟨1, 0x80, 0xBF, b.toNat - 0xE0⟩
  else if b = 0xF0 then .pending ⟨2, 0x90, 0xBF, 0⟩
  else if b < 0xF4 then .pending ⟨2, 0x80, 0xBF, b.toNat - 0xF0⟩
  else if b = 0xF4 then .pending ⟨2, 0x80, 0x8F, 4⟩
  else .illFormed

def Pending.next (p : Pending) (b : UInt8) : Octet :=
  if p.low ≤ b ∧ b ≤ p.high then
    let bits := p.bits * 64 + (b.toNat - 0x80)
    match p.more with
    | 0 => .complete (Char.ofNat bits)
    | more + 1 => .pending ⟨more, 0x80, 0xBF, bits⟩
  else .illFormed

/-- one octet, between characters or within one -/
def octet : Option Pending → UInt8 → Octet
  | none, b => lead b
  | some p, b => p.next b

/-! ## reading -/

def decodeFrom : Option Pending → Bytes → Option (List Char)
  | none, [] => some []
  | some _, [] => none
  | q, b :: s =>
    match octet q b with
    | .complete c => (decodeFrom none s).map (c :: ·)
    | .pending p => decodeFrom (some p) s
    | .illFormed => none

/-- the text that well-formed octets stand for -/
def decode? (s : Bytes) : Option String := (decodeFrom none s).map String.ofList

def replacement : Char := '\uFFFD'

def repairFrom : Option Pending → Bytes → List Char
  | none, [] => []
  | some _, [] => [replacement]
  | none, b :: s =>
    match lead b with
    | .complete c => c :: repairFrom none s
    | .pending p => repairFrom (some p) s
    | .illFormed => replacement :: repairFrom none s
  | some p, b :: s =>
    match p.next b with
    | .complete c => c :: repairFrom none s
    | .pending q => repairFrom (some q) s
    | .illFormed =>
      replacement ::
        match lead b with
        | .complete c => c :: repairFrom none s
        | .pending q => repairFrom (some q) s
        | .illFormed => replacement :: repairFrom none s

/-- the text that octets stand for, ill-formed pieces replaced -/
def repair (s : Bytes) : String := String.ofList (repairFrom none s)

/-! ## writing -/

def encodeChar (c : Char) : Bytes :=
  let n := c.toNat
  if n < 0x80 then [n.toUInt8]
  else if n < 0x800 then [(0xC0 + n / 64).toUInt8, (0x80 + n % 64).toUInt8]
  else if n < 0x10000 then
    [(0xE0 + n / 4096).toUInt8, (0x80 + n / 64 % 64).toUInt8, (0x80 + n % 64).toUInt8]
  else
    [(0xF0 + n / 262144).toUInt8, (0x80 + n / 4096 % 64).toUInt8, (0x80 + n / 64 % 64).toUInt8,
      (0x80 + n % 64).toUInt8]

def encode (s : String) : Bytes := s.toList.flatMap encodeChar

end PipelinedHttp.Utf8
