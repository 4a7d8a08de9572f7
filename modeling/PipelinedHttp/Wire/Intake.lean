import PipelinedHttp.Wire.Decoder

/-!
# Intake

A decoder with its buffer, fed piece by piece.  After each piece it is run until it wants more
octets or fails; a failure ends the intake, and what comes later is not looked at.

* `drain`    the requests that the buffer holds already;
* `feed`     one more piece;
* `feedAll`  piece after piece.
-/

namespace PipelinedHttp.Wire

structure Intake where
  decoder : Decoder
  buffer : Bytes
  requests : List Request
  failure : Option ReadError

namespace Intake

def ofMaxBody (maxBody : Nat) : Intake := ⟨.ofMaxBody maxBody, [], [], none⟩

/-- the intake after a turn of its decoder -/
def next (i : Intake) : Intake :=
  let turn := i.decoder.decode i.buffer
  { i with decoder := turn.decoder, buffer := turn.rest }

/-- turn after turn, until more octets are wanted or there is a failure -/
def drain (i : Intake) : Intake :=
  match _h : (i.decoder.decode i.buffer).outcome with
  | .more => i.next
  | .failed e => { i.next with failure := some e }
  | .request r => drain { i.next with requests := i.requests ++ [r] }
termination_by i.decoder.load i.buffer
decreasing_by exact Decoder.load_lt_of_request _h

/-- one more piece, unless there was a failure -/
def feed (i : Intake) (piece : Bytes) : Intake :=
  match i.failure with
  | some _ => i
  | none => drain { i with buffer := i.buffer ++ piece }

def feedAll (i : Intake) (pieces : List Bytes) : Intake := pieces.foldl feed i

end Intake

end PipelinedHttp.Wire
