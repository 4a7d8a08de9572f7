import PipelinedHttp.Bytes

/-!
# Authorities

The part of an absolute target between `://` and the path, or the whole target of a `CONNECT`:
user information, a host (possibly a bracketed address) and a number behind a colon.  The text is
read once from left to right.  Colons and percent signs count only behind the last `@` or `]`:
before it they belong to the user information or to the address.
-/

namespace PipelinedHttp.Uri.Authority

/-- letters, digits and the marks that may stand unescaped -/
def isPlain (b : UInt8) : Bool :=
  Bytes.isAlphanumeric b || (Bytes.ofAscii "!$&'()*+,-.;=_~").contains b

/-- the most colons that are read before a bracket or `@` forgets them -/
def maxColons : Nat := 8

/-- what has been seen of an authority -/
structure Seen where
  colons : Nat
  opened : Bool
  closed : Bool
  percent : Bool

def Seen.nothing : Seen := ⟨0, false, false, false⟩

def Seen.next (q : Seen) (b : UInt8) : Option Seen :=
  if b = 58 then if maxColons ≤ q.colons then none else some { q with colons := q.colons + 1 }
  else if b = 91 then if q.percent || q.opened then none else some { q with opened := true }
  else if b = 93 then
    if !q.opened || q.closed then none
    else some { q with closed := true, colons := 0, percent := false }
  else if b = 64 then some { q with colons := 0, percent := false }
  else if b = 37 then some { q with percent := true }
  else if isPlain b then some q
  else none

/-- brackets are balanced, at most one colon is left, and nothing is escaped in the host -/
def Seen.complete (q : Seen) : Bool := q.opened == q.closed && q.colons ≤ 1 && !q.percent

/-- whether a text is an authority; the empty text passes -/
def valid (s : Bytes) : Bool :=
  match s.foldlM Seen.next Seen.nothing with
  | none => false
  | some q => q.complete && s.getLast? != some 64

/-- the octets that end an authority: `/`, `?` and `#` -/
def isEnd (b : UInt8) : Bool := b == 47 || b == 63 || b == 35

end PipelinedHttp.Uri.Authority
