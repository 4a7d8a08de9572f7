import PipelinedHttp.Bytes

/-!
# Methods

A method is a non-empty token.  Any token is a method, whether registered or not.
-/

namespace PipelinedHttp

/-- the octets that a method is made of -/
def Method.alphabet : Bytes :=
  Bytes.ofAscii
    "!#$%&'*+-.0123456789ABCDEFGHIJKLMNOPQRSTUVWXYZ^_`abcdefghijklmnopqrstuvwxyz|~"

structure Method where
  name : Bytes
  ne_nil : name ≠ []
  token : ∀ b ∈ name, Method.alphabet.contains b = true
  deriving DecidableEq

namespace Method

def ofBytes? (s : Bytes) : Option Method :=
  if h : s ≠ [] ∧ s.all alphabet.contains = true then some ⟨s, h.1, List.all_eq_true.mp h.2⟩
  else none

def get : Method := ⟨Bytes.ofAscii "GET", by decide, List.all_eq_true.mp rfl⟩

end Method

end PipelinedHttp
