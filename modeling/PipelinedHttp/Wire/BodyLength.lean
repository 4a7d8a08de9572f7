import PipelinedHttp.Failure
import PipelinedHttp.Headers
import PipelinedHttp.Text.Blank
import PipelinedHttp.Text.Utf8

/-!
# Body length

How many octets of body follow a head.  The first `Content-Length` field says so; without one there
is no body.  A transfer coding that ends in `chunked` is refused, since such a body does not
announce its length, and so is a head that has both kinds of field.
-/

namespace PipelinedHttp.Wire

/-- lengths are below this bound, so that they fit into 64 bits -/
def lengthBound : Nat := UInt64.size

def ofDigits (s : List Char) : Nat := Nat.ofDigitChars 10 s 0

/-- a length: decimal digits, possibly behind a plus sign, below the bound -/
def parseLength? (s : List Char) : Option Nat :=
  let digits := match s with
    | '+' :: rest => rest
    | _ => s
  if digits ≠ [] ∧ digits.all Char.isDigit = true ∧ ofDigits digits < lengthBound then
    some (ofDigits digits)
  else none

/-- whether the last coding of a list is `chunked` -/
def endsChunked (value : Bytes) : Bool :=
  match (Bytes.splitOn 44 value).getLast? with
  | none => false
  | some last => Bytes.SameName (Bytes.trim Bytes.isBlank last) (Bytes.ofAscii "chunked")

/-- the length that a `Content-Length` value announces -/
def announcedLength (value : Bytes) : Except ReadError Nat :=
  match Utf8.decode? value with
  | none => .error (.invalidContentLength "value is not utf-8")
  | some text =>
    match parseLength? (Text.trim text.toList) with
    | none => .error (.invalidContentLength ("value " ++ text ++ " is not u64"))
    | some n => .ok n

def bodyLength (h : Headers) : Except ReadError Nat :=
  match h.get? FieldName.transferEncoding, h.get? FieldName.contentLength with
  | none, none => .ok 0
  | some coding, none =>
    if endsChunked coding then .error (.invalidBody "chunked request body is not supported")
    else .ok 0
  | none, some value => announcedLength value
  | some _, some _ =>
    .error (.invalidContentLength
      "transfer_encoding and content_length both present in headers")

end PipelinedHttp.Wire
