import PipelinedHttp.Bytes
import PipelinedHttp.Text.Utf8

/-!
# Form-encoded queries

A query is a list of pairs `name=value` joined by `&`.  In a name or value a space is written `+`,
and an octet may be written as `%` and two hexadecimal digits.

* `decode`  the pairs of a query, for any octets: empty pieces are skipped, a piece without `=` has
            an empty value, `%` without two digits stands for itself, and ill-formed text is
            repaired;
* `encode`  the query of a list of pairs.

Since the pairs are pairs of text, and any octets are repaired to text, there is no query that cannot be
read: `decode` has no failing result, and whoever reads a query has nothing to fall back on.
-/

namespace PipelinedHttp.Query

/-! ## hexadecimal digits -/

def hexValue? (b : UInt8) : Option UInt8 :=
  if Bytes.isDigit b then some (b - 48)
  else if 65 ≤ b && b ≤ 70 then some (b - 55)
  else if 97 ≤ b && b ≤ 102 then some (b - 87)
  else none

/-- the digit of a value below sixteen, with capital letters -/
def hexDigit (v : UInt8) : UInt8 := if v < 10 then v + 48 else v + 55

/-! ## reading -/

def unescape : Bytes → Bytes
  | [] => []
  | [b] => [if b = 43 then 32 else b]
  | [b, c] => [if b = 43 then 32 else b, if c = 43 then 32 else c]
  | b :: h :: l :: rest =>
    if b = 37 then
      match hexValue? h, hexValue? l with
      | some x, some y => (x * 16 + y) :: unescape rest
      | _, _ => b :: unescape (h :: l :: rest)
    else (if b = 43 then 32 else b) :: unescape (h :: l :: rest)

def decodeText (s : Bytes) : String := Utf8.repair (unescape s)

def decodePair (piece : Bytes) : String × String :=
  let (name, value) := Bytes.splitFirst 61 piece
  (decodeText name, decodeText value)

def decode (query : Bytes) : List (String × String) :=
  ((Bytes.splitOn 38 query).filter (· ≠ [])).map decodePair

/-! ## writing -/

def isPlain (b : UInt8) : Bool := Bytes.isAlphanumeric b || (Bytes.ofAscii "*-._").contains b

def escapeByte (b : UInt8) : Bytes :=
  if isPlain b then [b]
  else if b = 32 then [43]
  else [37, hexDigit (b / 16), hexDigit (b % 16)]

def encodeText (s : String) : Bytes := (Utf8.encode s).flatMap escapeByte

def encodePair (p : String × String) : Bytes := encodeText p.1 ++ 61 :: encodeText p.2

def encode (pairs : List (String × String)) : Bytes := [38].intercalate (pairs.map encodePair)

end PipelinedHttp.Query
