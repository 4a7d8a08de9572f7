import PipelinedHttp.Bytes

/-!
# Peer addresses

The address of the other end of a connection: an internet address of four octets or of eight groups
of sixteen bits, and a service number behind a colon.  `read?` takes every spelling of an address,
`print` gives the shortest one, so that equal addresses look equal:

* `127.0.0.1:80`          four decimal numbers without zeros in front;
* `[2001:db8::1]:80`      groups in small hexadecimal digits, the longest run of at least two zero
                          groups left out;
* `[::ffff:1.2.3.4]:80`   the four octets of an address that is embedded in the groups;
* `[fe80::1%3]:80`        with the number of a zone other than zero.
-/

namespace PipelinedHttp

inductive Host where
  | v4 (a b c d : UInt8)
  /-- eight groups, and the zone that they are meant in -/
  | v6 (groups : List UInt16) (zone : UInt32)
  deriving DecidableEq

structure Peer where
  host : Host
  service : UInt16
  deriving DecidableEq

namespace Peer

/-! ## numbers -/

def digit? (base : Nat) (b : UInt8) : Option Nat :=
  let value :=
    if Bytes.isDigit b then b.toNat - 48
    else if Bytes.isLower (Bytes.lower b) then (Bytes.lower b).toNat - 87
    else base
  if value < base then some value else none

def digits (base : Nat) : Bytes → List Nat × Bytes
  | [] => ([], [])
  | b :: s =>
    match digit? base b with
    | none => ([], b :: s)
    | some d => let (ds, rest) := digits base s; (d :: ds, rest)

/-- the number in front of a text, if it is below the bound -/
def number? (base bound : Nat) (s : Bytes) : Option (Nat × Bytes) :=
  let (ds, rest) := digits base s
  let n := ds.foldl (fun n d => base * n + d) 0
  if ds ≠ [] ∧ n < bound then some (n, rest) else none

/-- an octet in front of a text, without zeros in front of it -/
def octet? (s : Bytes) : Option (UInt8 × Bytes) :=
  if 1 < (digits 10 s).1.length ∧ (digits 10 s).1.head? = some 0 then none
  else (number? 10 UInt8.size s).map fun (n, rest) => (n.toUInt8, rest)

/-- a group in front of a text, at most four digits -/
def group? (s : Bytes) : Option (UInt16 × Bytes) :=
  if 4 < (digits 16 s).1.length then none
  else (number? 16 UInt16.size s).map fun (n, rest) => (n.toUInt16, rest)

/-! ## reading -/

def dot : Bytes := Bytes.ofAscii "."
def colon : Bytes := Bytes.ofAscii ":"
def gap : Bytes := Bytes.ofAscii "::"

def quad? (s : Bytes) : Option ((UInt8 × UInt8 × UInt8 × UInt8) × Bytes) := do
  let (a, s) ← octet? s
  let (b, s) ← octet? (← Bytes.strip? dot s)
  let (c, s) ← octet? (← Bytes.strip? dot s)
  let (d, s) ← octet? (← Bytes.strip? dot s)
  return ((a, b, c, d), s)

def join (a b : UInt8) : UInt16 := a.toUInt16 * 256 + b.toUInt16

/-- At most the given number of groups in front of a text, separated by colons, and whether the last
two are written as four octets. -/
def groups (first : Bool) : Nat → Bytes → List UInt16 × Bool × Bytes
  | 0, s => ([], false, s)
  | n + 1, s =>
    match if first then some s else Bytes.strip? colon s with
    | none => ([], false, s)
    | some t =>
      match if n = 0 then none else quad? t with
      | some ((a, b, c, d), rest) => ([join a b, join c d], true, rest)
      | none =>
        match group? t with
        | none => ([], false, s)
        | some (g, rest) =>
          let (gs, embedded, rest) := groups false n rest
          (g :: gs, embedded, rest)

/-- eight groups in front of a text; a gap stands for as many zeros as are missing -/
def eightGroups? (s : Bytes) : Option (List UInt16 × Bytes) :=
  let (front, embedded, rest) := groups true 8 s
  if front.length = 8 then some (front, rest)
  else if embedded then none
  else do
    let (back, _, rest) := groups true (7 - front.length) (← Bytes.strip? gap rest)
    return (front ++ List.replicate (8 - front.length - back.length) 0 ++ back, rest)

/-- the number of a zone in front of a text, zero without one -/
def zone (s : Bytes) : UInt32 × Bytes :=
  match (Bytes.strip? (Bytes.ofAscii "%") s).bind (number? 10 UInt32.size) with
  | none => (0, s)
  | some (n, rest) => (n.toUInt32, rest)

def host? (s : Bytes) : Option (Host × Bytes) :=
  match quad? s with
  | some ((a, b, c, d), rest) => some (.v4 a b c d, rest)
  | none => do
    let (groups, rest) ← eightGroups? (← Bytes.strip? (Bytes.ofAscii "[") s)
    let (zone, rest) := zone rest
    return (.v6 groups zone, ← Bytes.strip? (Bytes.ofAscii "]") rest)

def read? (s : Bytes) : Option Peer := do
  let (host, rest) ← host? s
  let (service, rest) ← number? 10 UInt16.size (← Bytes.strip? colon rest)
  if rest = [] then return ⟨host, service.toUInt16⟩ else none

/-! ## printing -/

def hex (g : UInt16) : Bytes := (Nat.toDigits 16 g.toNat).map fun c => c.toNat.toUInt8

def printGroups (gs : List UInt16) : Bytes := colon.intercalate (gs.map hex)

def printQuad (a b c d : UInt8) : Bytes :=
  dot.intercalate ([a, b, c, d].map fun n => Bytes.decimal n.toNat)

/-- The longest run of zeros, the first one if there are several: what stands before it, its length,
and what follows. -/
def zeroRun : List UInt16 → List UInt16 × Nat × List UInt16
  | [] => ([], 0, [])
  | g :: gs =>
    let here := ((g :: gs).takeWhile (· == 0)).length
    let (front, length, back) := zeroRun gs
    if length ≤ here then ([], here, (g :: gs).drop here) else (g :: front, length, back)

theorem takeWhile_zeros (gs : List UInt16) :
    gs.takeWhile (· == 0) = List.replicate (gs.takeWhile (· == 0)).length 0 := by
  induction gs with
  | nil => rfl
  | cons g gs ih =>
    rw [List.takeWhile_cons]
    split
    · rename_i zero
      rw [eq_of_beq zero, List.length_cons, List.replicate_succ, ← ih]
    · rfl

/-- nothing of the groups is lost around the run -/
theorem zeroRun_append (gs : List UInt16) :
    (zeroRun gs).1 ++ (List.replicate (zeroRun gs).2.1 0 ++ (zeroRun gs).2.2) = gs := by
  induction gs with
  | nil => rfl
  | cons g gs ih =>
    unfold zeroRun
    dsimp only
    split
    · rw [List.nil_append, ← takeWhile_zeros]
      exact List.prefix_iff_eq_append.mp (List.takeWhile_prefix _)
    · exact congrArg (g :: ·) ih

def split (g : UInt16) : UInt8 × UInt8 := ((g / 256).toUInt8, g.toUInt8)

def printEight : List UInt16 → Bytes
  | [0, 0, 0, 0, 0, 0xffff, g, h] =>
    gap ++ hex 0xffff ++ colon ++ printQuad (split g).1 (split g).2 (split h).1 (split h).2
  | gs =>
    let (front, length, back) := zeroRun gs
    if 1 < length then printGroups front ++ gap ++ printGroups back else printGroups gs

def printHost : Host → Bytes
  | .v4 a b c d => printQuad a b c d
  | .v6 groups zone =>
    let zone := if zone = 0 then [] else Bytes.ofAscii "%" ++ Bytes.decimal zone.toNat
    Bytes.ofAscii "[" ++ printEight groups ++ zone ++ Bytes.ofAscii "]"

def print (p : Peer) : Bytes := printHost p.host ++ colon ++ Bytes.decimal p.service.toNat

end Peer

end PipelinedHttp
