import PipelinedHttp.Bytes

/-!
# Route patterns

A pattern is the text of a route, read into pieces:

* `byte c`             that octet;
* `param index name`   written `{name}`: one or more octets without a slash; the index counts the
                       parameters in front of it;
* `rest name`          written `{*name}`: one or more octets, up to the end.

A brace that is meant as text is written twice.  `Pattern.Matches` says which paths a pattern
stands for and what its parameters are then.

The names of parameters do not matter for telling routes apart.  In the normal form of a pattern the
parameters are called `a`, `b`, `c` and so on, and braces that were written twice are written once.
`rename` puts names back into a normal form, reading it again parameter by parameter.
-/

namespace PipelinedHttp.Route

/-! ## octets with their escapes -/

def openBrace : UInt8 := 123
def closeBrace : UInt8 := 125
def star : UInt8 := 42

/-- an octet of a route, and whether it was written twice -/
structure Cell where
  byte : UInt8
  escaped : Bool
  deriving DecidableEq

def Cell.opens (c : Cell) : Bool := c.byte == openBrace && !c.escaped
def Cell.closes (c : Cell) : Bool := c.byte == closeBrace && !c.escaped

/-- doubled braces are read as one escaped brace -/
def cells : Bytes → List Cell
  | [] => []
  | [b] => [⟨b, false⟩]
  | b :: c :: s =>
    if (b = openBrace ∨ b = closeBrace) ∧ c = b then ⟨b, true⟩ :: cells s
    else ⟨b, false⟩ :: cells (c :: s)

def plain (text : List Cell) : Bytes := text.map Cell.byte

/-! ## pieces -/

inductive Piece where
  | byte (c : Cell)
  | param (index : Nat) (name : Bytes)
  | rest (name : List Cell)
  deriving DecidableEq

abbrev Pattern := List Piece

inductive InsertError where
  /-- another route has the same shape; its text -/
  | conflict (route : Bytes)
  | crowdedSegment
  | invalidName
  | misplacedRest
  /-- there are no letters left for the normal form -/
  | tooManyParameters
  /-- another route has the same shape, and its text cannot be given -/
  | unnamedConflict
  deriving DecidableEq

/-- the most parameters of a route, not counting a rest parameter -/
def maxParams : Nat := 25

/-! ## reading -/

/-- the rest of a parameter's name behind its first octet, and what follows the closing brace -/
def cutName : List Cell → Option (List Cell × List Cell)
  | [] => none
  | c :: s =>
    if c.closes then some ([], s)
    else if c.byte = star ∨ c.byte = Bytes.slash then none
    else (cutName s).map fun (name, rest) => (c :: name, rest)

/-- a parameter behind its opening brace: the first octet between the braces, which is a star for a
rest, the others, and what follows -/
def cutParam : List Cell → Option (Cell × List Cell × List Cell)
  | [] => none
  | first :: s =>
    if first.byte = closeBrace then none
    else (cutName s).bind fun (others, after) =>
      if first.byte = star ∧ others = [] then none else some (first, others, after)

def escapeAt : Nat → List Cell → List Cell
  | _, [] => []
  | 0, c :: s => { c with escaped := true } :: s
  | n + 1, c :: s => c :: escapeAt n s

/-- What follows a parameter when `old` octets between its braces give way to `new` ones.  An escape
right behind the parameter keeps its place counted from the front: it stays on the brace only if the
lengths are equal, falls on a later octet if the new one is shorter, and is lost if it is longer. -/
def shiftEscape (old new : Nat) : List Cell → List Cell
  | [] => []
  | c :: s =>
    if c.escaped then
      let s := { c with escaped := false } :: s
      if new ≤ old then escapeAt (old - new) s else s
    else c :: s

/-- the pieces of at most the given number of cells, behind the given number of parameters -/
def readPieces : Nat → Nat → List Cell → Except InsertError Pattern
  | _, _, [] => .ok []
  | 0, _, _ :: _ => .ok []
  | n + 1, index, c :: s =>
    if c.closes then .error .invalidName
    else if c.opens then
      match cutParam s with
      | none => .error .invalidName
      | some (first, others, s) =>
        if first.byte = star then (readPieces n index s).map (.rest others :: ·)
        else if index = maxParams then .error .tooManyParameters
        else
          let name := plain (first :: others)
          (readPieces n (index + 1) (shiftEscape name.length 1 s)).map (.param index name :: ·)
    else (readPieces n index s).map (.byte c :: ·)

def Pattern.ofBytes (s : Bytes) : Except InsertError Pattern :=
  readPieces (cells s).length 0 (cells s)

/-! ## parts of a pattern -/

def Piece.isByte : Piece → Bool
  | .byte _ => true
  | _ => false

def Pattern.names (p : Pattern) : List Bytes :=
  p.filterMap fun
    | .byte _ => none
    | .param _ name => some name
    | .rest name => some (plain name)

/-- the names of the parameters of a single segment, in order -/
def Pattern.paramNames (p : Pattern) : List Bytes :=
  p.filterMap fun
    | .param _ name => some name
    | _ => none

def Pattern.text : Pattern → List Cell
  | .byte c :: p => c :: Pattern.text p
  | _ => []

def Pattern.wild (p : Pattern) : Pattern := p.dropWhile Piece.isByte

def Piece.isSlash : Piece → Bool
  | .byte c => c.byte == Bytes.slash
  | _ => false

/-- the pieces through the next slash, and the others -/
def Pattern.cutSegment : Pattern → Pattern × Pattern
  | [] => ([], [])
  | p :: ps =>
    if p.isSlash then ([p], ps)
    else let (segment, others) := Pattern.cutSegment ps; (p :: segment, others)

/-! ## the normal form -/

def braced (s : Bytes) : Bytes := openBrace :: s ++ [closeBrace]

def Piece.cells : Piece → List Cell
  | .byte c => [c]
  | .param index _ => (braced [(97 + index).toUInt8]).map (⟨·, false⟩)
  | .rest name => [⟨openBrace, false⟩, ⟨star, false⟩] ++ name ++ [⟨closeBrace, false⟩]

def Pattern.cells (p : Pattern) : List Cell := p.flatMap Piece.cells

def Piece.normal (p : Piece) : Bytes := plain p.cells

def Pattern.normal (p : Pattern) : Bytes := plain p.cells

/-! ## renaming -/

structure Parted where
  before : List Cell
  name : List Cell
  after : List Cell

/-- the text around its first parameter; nothing if it has none -/
def firstParam : List Cell → Except InsertError (Option Parted)
  | [] => .ok none
  | c :: s =>
    if c.closes then .error .invalidName
    else if c.opens then
      match cutParam s with
      | none => .error .invalidName
      | some (first, others, after) => .ok (some ⟨[], first :: others, after⟩)
    else (firstParam s).map (Option.map fun t => { t with before := c :: t.before })

/-- The text with the given names in the place of its first parameters.  Each parameter is looked
for behind the one renamed last, where an escape may have been shifted or lost; one look goes past
the last name. -/
def rename : List Bytes → List Cell → Except InsertError Bytes
  | [], text => (firstParam text).map fun _ => plain text
  | n :: names, text => do
    match ← firstParam text with
    | none => return plain text
    | some t =>
      let after ← rename names (shiftEscape t.name.length n.length t.after)
      return plain t.before ++ braced n ++ after

/-- the conflict with a route of the given normal form and parameters -/
def Pattern.conflict (names : List Bytes) (p : Pattern) : InsertError :=
  match rename names p.cells with
  | .ok route => .conflict route
  | .error _ => .unnamedConflict

/-! ## meaning -/

/-- the path is the pattern with each parameter replaced by its value -/
inductive Pattern.Matches : Pattern → Bytes → List (Bytes × Bytes) → Prop
  | nil : Matches [] [] []
  | byte (c : Cell) {p s params} : Matches p s params → Matches (.byte c :: p) (c.byte :: s) params
  | param (index : Nat) (name : Bytes) {p s params} (value : Bytes) : value ≠ [] →
      Bytes.slash ∉ value → Matches p s params →
      Matches (.param index name :: p) (value ++ s) ((name, value) :: params)
  | rest (name : List Cell) (value : Bytes) : value ≠ [] →
      Matches [.rest name] value [(plain name, value)]

end PipelinedHttp.Route
