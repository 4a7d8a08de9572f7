import PipelinedHttp.Settings

/-!
# Limits of memory

A block of memory is never longer than `maxBlock` octets, and a queue counts its slots in a word of
which three bits are taken.  What would need more than that cannot be set up at all.  Within these
limits memory is taken to be unbounded.
-/

namespace PipelinedHttp

namespace Memory

/-- the longest block, half of what a word can count -/
def maxBlock : Nat := UInt64.size / 2 - 1

/-- the octets that the list entry of a field takes: a name and a value, four words each -/
def fieldSize : Nat := 64

/-- the most slots of a queue -/
def maxSlots : Nat := UInt64.size / 8 - 1

def holdsOctets (n : Nat) : Bool := n ≤ maxBlock

def holdsFields (n : Nat) : Bool := n * fieldSize ≤ maxBlock

/-- whether there can be a queue of that many slots; there is none without slots -/
def holdsSlots (n : Nat) : Bool := 0 < n && n ≤ maxSlots

end Memory

/-- whether there can be room for the body that a decoder waits for -/
def Wire.Decoder.fits (d : Wire.Decoder) : Bool :=
  match d.pending with
  | none => true
  | some (_, length) => Memory.holdsOctets length

def Settings.fits (s : Settings) : Bool :=
  Memory.holdsSlots s.queueCapacity && Memory.holdsOctets s.readBuffer
    && Memory.holdsOctets s.writeBuffer

end PipelinedHttp
