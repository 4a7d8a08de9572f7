import PipelinedHttp.Bytes

/-!
# Media types

What a body is: a type and a subtype with a slash between them, and possibly parameters, each behind
a semicolon.  Letter case means nothing in the type, in the names of parameters and in the value of
`charset`, so those are kept in small letters; other values, blanks and quotes stay as they are
written.

* `read?`       the media type that a text stands for;
* `parameters`  what follows the first semicolon.

Blanks may stand behind a semicolon and behind a quoted value, and nowhere else.
-/

namespace PipelinedHttp

structure MediaType where
  text : Bytes
  deriving DecidableEq

namespace MediaType

def plainText : MediaType := ⟨Bytes.ofAscii "text/plain; charset=utf-8"⟩

def semicolon : UInt8 := 59
def equals : UInt8 := 61
def quote : UInt8 := 34

def isToken (b : UInt8) : Bool :=
  Bytes.isAlphanumeric b || (Bytes.ofAscii "!#$%&'*+-.^_`|~").contains b

def isQuotable (b : UInt8) : Bool := 31 < b && b != 127

/-! ## values -/

/-- the separator in front of a text, a semicolon or the end, and what follows it -/
def separator? : Bytes → Option (Bytes × Bytes)
  | [] => some ([], [])
  | b :: s => if b = semicolon then some ([b], s) else none

/-- a value between quotes, given what follows the first quote; the octet behind that one belongs to
the value even if it is a quote -/
def quoted? : Bytes → Option (Bytes × Bytes)
  | [] => none
  | b :: s =>
    let value := b :: s.takeWhile (· != quote)
    match s.dropWhile (· != quote) with
    | [] => none
    | _ :: rest => if value.all isQuotable then some (quote :: value ++ [quote], rest) else none

/-- The value in front of a text, its separator, and what follows.  Only the last value may be
empty; blanks may stand between a closing quote and a separator. -/
def value? (s : Bytes) : Option (Bytes × Bytes × Bytes) :=
  match s with
  | [] => some ([], [], [])
  | b :: t =>
    if b = quote then do
      let (value, rest) ← quoted? t
      let (separator, others) ← separator? (rest.dropWhile (· == Bytes.space))
      return (value, rest.takeWhile (· == Bytes.space) ++ separator, others)
    else do
      let value := s.takeWhile isToken
      let (separator, others) ← separator? (s.dropWhile isToken)
      if value = [] then none else return (value, separator, others)

/-! ## parameters -/

def charset : Bytes := Bytes.ofAscii "charset"

/-- The parameters in front of a text, at most the given number of them or of blanks; names in small
letters. -/
def parameters : Nat → Bytes → Option Bytes
  | _, [] => some []
  | 0, _ :: _ => none
  | n + 1, b :: s =>
    if b = Bytes.space then (parameters n s).map (b :: ·)
    else
      let name := Bytes.fold ((b :: s).takeWhile isToken)
      match (b :: s).dropWhile isToken with
      | [] => none
      | c :: s =>
        if c ≠ equals ∨ name = [] then none
        else do
          let (value, separator, rest) ← value? s
          let value := if name = charset then Bytes.fold value else value
          let others ← parameters n rest
          return name ++ equals :: value ++ separator ++ others

/-- Whether there is nothing but blanks; such a list of parameters is left out. -/
def isBlank (s : Bytes) : Bool := s.all (· == Bytes.space)

def read? (s : Bytes) : Option MediaType :=
  let type := s.takeWhile isToken
  match s.dropWhile isToken with
  | [] => none
  | slash :: s =>
    if type = [] ∨ slash ≠ Bytes.slash then none
    else
      let essence := Bytes.fold (type ++ slash :: s.takeWhile isToken)
      match s.dropWhile isToken with
      | [] => some ⟨essence⟩
      | b :: rest =>
        if s.takeWhile isToken = [] ∨ b ≠ semicolon then none
        else if isBlank rest then some ⟨essence⟩
        else (parameters rest.length rest).map fun list => ⟨essence ++ b :: list⟩

theorem read?_plainText : read? plainText.text = some plainText := by decide +kernel

end MediaType

end PipelinedHttp
