import PipelinedHttp.Bytes
import PipelinedHttp.Text.Utf8
import PipelinedHttp.Uri.Authority

/-!
# Request targets

A target is read in one of four forms:

* `/path?query`                        a path with an optional query;
* `*`                                  the server itself;
* `scheme://authority/path?query`      an absolute target;
* `authority`                          anything else, with an empty path.

A fragment is cut off unread.  `ofBytes?` reads, `print` writes; the text of a target that was
read is UTF-8.
-/

namespace PipelinedHttp

structure Uri where
  scheme : Option Bytes
  authority : Option Bytes
  path : Bytes
  query : Option Bytes
  deriving DecidableEq

namespace Uri

def maxLength : Nat := 65534

/-- the longest scheme other than the two of the web -/
def maxScheme : Nat := 64

/-! ## octet classes -/

def isPathByte (b : UInt8) : Bool :=
  b == 0x21 || b == 0x22 || (0x24 ≤ b && b ≤ 0x3B) || b == 0x3D || (0x40 ≤ b && b ≤ 0x5F)
    || (0x61 ≤ b && b ≤ 0x7E) || 0x80 ≤ b

def isQueryByte (b : UInt8) : Bool :=
  b == 0x21 || (0x24 ≤ b && b ≤ 0x3B) || b == 0x3D || (0x3F ≤ b && b ≤ 0x7E) || 0x80 ≤ b

def isSchemeByte (b : UInt8) : Bool :=
  Bytes.isAlphanumeric b || (Bytes.ofAscii "+-.~").contains b

/-! ## scheme -/

inductive SchemeCut where
  | absent
  | tooLong
  | found (scheme rest : Bytes)

/-- the scheme in front of `://`; `http` and `https` are read in any case, kept in small letters -/
def cutScheme (s : Bytes) : SchemeCut :=
  let run := s.takeWhile isSchemeByte
  let rest := s.dropWhile isSchemeByte
  if Bytes.fold (s.take 7) = Bytes.ofAscii "http://" then .found (Bytes.ofAscii "http") (s.drop 7)
  else if Bytes.fold (s.take 8) = Bytes.ofAscii "https://" then
    .found (Bytes.ofAscii "https") (s.drop 8)
  else if 3 < s.length ∧ rest.take 3 = Bytes.ofAscii "://" then
    if maxScheme < run.length then .tooLong else .found run (rest.drop 3)
  else .absent

/-! ## path and query -/

/-- path and query of what follows the authority: `#` ends the text, the first `?` ends the path,
and an empty path is the root -/
def pathAndQuery? (s : Bytes) : Option (Bytes × Option Bytes) :=
  let kept := s.takeWhile (· != 35)
  let path := kept.takeWhile (· != 63)
  let query := match kept.dropWhile (· != 63) with
    | [] => none
    | _ :: q => some q
  if path.all isPathByte && (query.getD []).all isQueryByte && (Utf8.decode? kept).isSome then
    some (if path = [] then [Bytes.slash] else path, query)
  else none

/-! ## reading and printing -/

def ofBytes? (s : Bytes) : Option Uri :=
  if maxLength < s.length then none
  else match s with
    | [] => none
    | b :: _ =>
      if b = Bytes.slash then (pathAndQuery? s).map fun (path, query) => ⟨none, none, path, query⟩
      else if s = [42] then some ⟨none, none, s, none⟩
      else match cutScheme s with
        | .tooLong => none
        | .absent =>
          if Authority.valid s && !s.any Authority.isEnd then some ⟨none, some s, [], none⟩
          else none
        | .found scheme rest =>
          let authority := rest.takeWhile fun b => !Authority.isEnd b
          if authority ≠ [] ∧ Authority.valid authority = true then
            (pathAndQuery? (rest.dropWhile fun b => !Authority.isEnd b)).map fun (path, query) =>
              ⟨some scheme, some authority, path, query⟩
          else none

def print (u : Uri) : Bytes :=
  (match u.scheme with
    | none => []
    | some s => s ++ Bytes.ofAscii "://")
  ++ u.authority.getD [] ++ u.path
  ++ (match u.query with
    | none => []
    | some q => 63 :: q)

end Uri

end PipelinedHttp
