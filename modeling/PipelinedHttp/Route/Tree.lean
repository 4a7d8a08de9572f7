import PipelinedHttp.Route.Pattern

/-!
# Route trees

Routes are kept in a tree by their common text.  A node has a text, possibly a route that ends
there, branches that go on with different octets, and possibly one parameter or rest in place of a
branch.  Below a parameter stand the texts that may end its segment, longer ones first, each with
the slash that closes the segment if there is one.

`find` prefers text over parameters: it enters the branch of the next octet, and only if nothing is
found there it tries the parameter of the node.  A parameter takes the first of its segment ends
that fits and stays with it.

A segment end is known by its normal form alone.  So an escaped brace in one route and a parameter
in another can meet at the same segment end, which is then cut short where the two part: what is
left of it ends the segment for both, and keeps its place among the others.

The branches of a node are ordered by the number of routes below them; that order shows only in the
route that a conflict names.
-/

namespace PipelinedHttp.Route

/-- a route: the pattern it was given by, and what it leads to -/
structure Leaf (α : Type) where
  pattern : Pattern
  value : α

mutual

inductive Tree (α : Type) where
  | node (weight : Nat) (text : List Cell) (leaf : Option (Leaf α)) (branches : Forest α)
      (wild : Wild α)

inductive Forest (α : Type) where
  | nil
  | cons (t : Tree α) (others : Forest α)

/-- what may stand in place of a branch; `within` tells whether a parameter has ever had a segment
end other than a slash -/
inductive Wild (α : Type) where
  | none
  | param (within : Bool) (leaf : Option (Leaf α)) (ends : Forest α)
  | rest (leaf : Leaf α)

end

variable {α : Type}

def Tree.weight : Tree α → Nat
  | .node weight _ _ _ _ => weight

/-- the octets that the text of a node stands for -/
def Tree.text : Tree α → Bytes
  | .node _ text _ _ _ => plain text

def Tree.empty : Tree α := .node 0 [] none .nil .none

def Tree.startsWith (b : UInt8) (t : Tree α) : Bool := t.text.head? == some b

def Forest.single (t : Tree α) : Forest α := .cons t .nil

/-! ## looking up -/

mutual

/-- the route that a path takes, and the values of its parameters in order -/
def Tree.find : Tree α → Bytes → Option (Leaf α × List Bytes)
  | .node _ text leaf branches wild, path =>
    match Bytes.strip? (plain text) path with
    | none => none
    | some [] => leaf.map fun l => (l, [])
    | some (b :: rest) =>
      match branches.find b (b :: rest) with
      | some found => some found
      | none => wild.find (b :: rest)

def Forest.find : Forest α → UInt8 → Bytes → Option (Leaf α × List Bytes)
  | .nil, _, _ => none
  | .cons t others, b, path => if t.startsWith b then t.find path else others.find b path

def Wild.find : Wild α → Bytes → Option (Leaf α × List Bytes)
  | .none, _ => none
  | .rest leaf, path => some (leaf, [path])
  | .param within leaf ends, path =>
    let segment := path.takeWhile (· != Bytes.slash)
    let others := path.dropWhile (· != Bytes.slash)
    let whole := if others = [] then leaf.map fun l => (l, [path]) else none
    if segment = [] then none
    else if within then (ends.findEnd segment others).getD whole
    else if others = [] then whole
    else (ends.findOnly others).map fun (l, values) => (l, segment :: values)

def Forest.findOnly : Forest α → Bytes → Option (Leaf α × List Bytes)
  | .cons t .nil, path => t.find path
  | _, _ => none

/-- The first tree whose text ends the segment, closing slash included, with something in front;
the inner result is that of going on there. -/
def Forest.findEnd : Forest α → Bytes → Bytes → Option (Option (Leaf α × List Bytes))
  | .nil, _, _ => none
  | .cons t ends, segment, others =>
    let closed := segment ++ others.take 1
    let value := closed.take (closed.length - t.text.length)
    if value ≠ [] ∧ closed = value ++ t.text then
      some ((t.find (t.text ++ others.drop 1)).map fun (l, values) => (l, value :: values))
    else ends.findEnd segment others

end

/-! ## new branches -/

/-- the text of a pattern without parameters; nothing if it has one -/
def literalText? (p : Pattern) : Option (List Cell) := if p.wild = [] then some p.text else none

/-- whether a segment end is more than the slash behind a whole segment -/
def endsWithin (text : List Cell) : Bool := plain text != [Bytes.slash]

mutual

/-- a tree with a single route; `above` is a route that ends where the new one goes on with a
parameter -/
def graft : Nat → Nat → Option (Leaf α) → Pattern → Leaf α → Except InsertError (Tree α)
  | 0, _, _, _, _ => .ok .empty
  | n + 1, weight, above, p, leaf =>
    match p.wild with
    | [] => .ok (.node weight p.text (some leaf) .nil .none)
    | w :: ws => do
      let wild ← graftWild n (w :: ws) leaf
      return .node weight p.text above .nil wild

def graftWild : Nat → Pattern → Leaf α → Except InsertError (Wild α)
  | 0, _, _ => .ok .none
  | n + 1, p, leaf =>
    match p with
    | [] => .ok .none
    | .byte _ :: _ => .ok .none
    | .rest _ :: p => if p = [] then .ok (.rest leaf) else .error .misplacedRest
    | .param _ _ :: p =>
      let (segment, others) := Pattern.cutSegment p
      match literalText? segment with
      | none => .error .crowdedSegment
      | some [] => .ok (.param false (some leaf) .nil)
      | some text => do
        let t ← graftEnd n text others leaf
        return .param (endsWithin text) none (.single t)

def graftEnd : Nat → List Cell → Pattern → Leaf α → Except InsertError (Tree α)
  | 0, _, _, _ => .ok .empty
  | n + 1, text, p, leaf =>
    match p with
    | [] => .ok (.node 1 text (some leaf) .nil .none)
    | .byte _ :: _ => do
      let t ← graft n 1 none p leaf
      return .node 1 text none (.single t) .none
    | _ :: _ => do
      let wild ← graftWild n p leaf
      return .node 1 text none .nil wild

end

/-- enough for every piece of a pattern to be looked at twice -/
def graftFuel (p : Pattern) : Nat := 2 * p.length + 2

/-! ## conflicts -/

mutual

def Tree.first? : Tree α → Option (Leaf α)
  | .node _ _ leaf .nil .none => leaf
  | .node _ _ _ .nil wild => wild.first?
  | .node _ _ _ (.cons t _) _ => t.first?

def Wild.first? : Wild α → Option (Leaf α)
  | .none => none
  | .rest leaf => some leaf
  | .param _ leaf .nil => leaf
  | .param _ _ (.cons t _) => t.first?

end

/-- two routes of the same shape: the new one under the old one's names -/
def sameShape (new : Pattern) (old : Leaf α) : InsertError :=
  Pattern.conflict old.pattern.paramNames new

/-- A parameter where something else stands already, and `p` is what is left of the new route: the
new route up to there, and the old one from there on.  The old parameter is left out if the text in
front of it looks the same. -/
def otherWild (new p : Pattern) (w : Wild α) : InsertError :=
  match w.first? with
  | none => .conflict []
  | some old =>
    let before := new.take (new.length - p.length)
    let there := (old.pattern.drop before.length).take 1
    let below := old.pattern.drop (before.length + 1)
    let hidden := (Pattern.normal there).isSuffixOf (Pattern.normal before)
    let route := if hidden then before ++ below else before ++ there ++ below
    Pattern.conflict old.pattern.paramNames route

/-! ## places among others -/

/-- a tree that has just grown moves in front of a lighter neighbour -/
def Forest.moveUp (b : UInt8) (t : Tree α) : Forest α → Forest α
  | .nil => .single t
  | .cons u others =>
    if u.startsWith b ∧ t.weight < u.weight then .cons u (.cons t others)
    else .cons t (.cons u others)

/-- the place that is left when the `size` places from `base` on are halved down to one -/
def halve (lengths : List Nat) (length : Nat) : Nat → Nat → Nat → Nat
  | 0, base, _ => base
  | n + 1, base, size =>
    if size ≤ 1 then base
    else
      let middle := base + size / 2
      let base := if length ≤ lengths.getD middle 0 then middle else base
      halve lengths length n base (size - size / 2)

/-- the place of a new end of the given length among ends of the given lengths -/
def place (lengths : List Nat) (length : Nat) : Nat :=
  let last := halve lengths length lengths.length 0 lengths.length
  match lengths[last]? with
  | none => last
  | some other => if length ≤ other then last + 1 else last

def Forest.lengths : Forest α → List Nat
  | .nil => []
  | .cons t others => t.text.length :: others.lengths

def Forest.insertAt (new : Tree α) : Nat → Forest α → Forest α
  | 0, others => .cons new others
  | _ + 1, .nil => .single new
  | n + 1, .cons t others => .cons t (others.insertAt new n)

/-- A new segment end behind those that are at least as long.  The halving finds that place as long
as the ends are in order; an end that has been cut short stays where it is, and then the halving
alone decides. -/
def Forest.insertEnd (new : Tree α) (ends : Forest α) : Forest α :=
  ends.insertAt new (place ends.lengths new.text.length)

/-! ## inserting -/

/-- the number of octets that the text of a node and a pattern have in common -/
def commonLength : List Cell → Pattern → Nat
  | c :: t, .byte d :: p => if c = d then commonLength t p + 1 else 0
  | _, _ => 0

mutual

/-- the tree with one more route, given what is left of its pattern -/
def Tree.insert : Tree α → Pattern → Leaf α → Except InsertError (Tree α)
  | .node weight text leaf branches wild, p, new =>
    let length := commonLength text p
    if length < text.length then
      let below : Tree α := .node weight (text.drop length) leaf branches wild
      let upper := text.take length
      match p.drop length with
      | [] => .ok (.node (weight + 1) upper (some new) (.single below) .none)
      | .byte c :: rest => do
        let t ← graft (graftFuel (.byte c :: rest)) 1 none (.byte c :: rest) new
        return .node (weight + 1) upper none (.cons below (.single t)) .none
      | w :: rest => do
        let wild ← graftWild (graftFuel (w :: rest)) (w :: rest) new
        return .node (weight + 1) upper none (.single below) wild
    else match p.drop length with
      | [] =>
        match leaf with
        | some old => .error (sameShape new.pattern old)
        | none => .ok (.node (weight + 1) text (some new) branches wild)
      | .byte c :: rest => do
        let branches ← branches.insert c.byte (.byte c :: rest) new
        return .node (weight + 1) text leaf branches wild
      | w :: rest => do
        let wild ← wild.insert (w :: rest) new
        return .node (weight + 1) text leaf branches wild

/-- into the branch of an octet, or as a new branch behind the others -/
def Forest.insert : Forest α → UInt8 → Pattern → Leaf α → Except InsertError (Forest α)
  | .nil, _, p, new => do
    let t ← graft (graftFuel p) 1 none p new
    return .single t
  | .cons t others, b, p, new =>
    if t.startsWith b then do
      let t ← t.insert p new
      return .cons t others
    else do
      let others ← others.insert b p new
      return others.moveUp b t

def Wild.insert : Wild α → Pattern → Leaf α → Except InsertError (Wild α)
  | .none, p, new => graftWild (graftFuel p) p new
  | .rest old, p, new =>
    if p.normal = old.pattern.getLast?.elim [] Piece.normal then .error (sameShape new.pattern old)
    else .error (otherWild new.pattern p (.rest old))
  | .param within leaf ends, p, new =>
    match p with
    | .param _ _ :: p =>
      let (segment, others) := Pattern.cutSegment p
      if p = [] then
        match leaf with
        | some old => .error (sameShape new.pattern old)
        | none => .ok (.param within (some new) ends)
      else do
        match ← ends.insertAtEnd segment.normal p new with
        | some ends => return .param within leaf ends
        | none =>
          match literalText? segment with
          | none => .error .crowdedSegment
          | some text =>
            let t ← graftEnd (graftFuel p) text others new
            return .param (within || endsWithin text) leaf (ends.insertEnd t)
    | _ => .error (otherWild new.pattern p (.param within leaf ends))

/-- below the segment end with the given normal form; nothing if there is no such end -/
def Forest.insertAtEnd :
    Forest α → Bytes → Pattern → Leaf α → Except InsertError (Option (Forest α))
  | .nil, _, _, _ => .ok none
  | .cons t others, text, p, new =>
    if t.text = text then do
      let t ← t.insert p new
      return some (.cons t others)
    else do
      let others ← others.insertAtEnd text p new
      return others.map (.cons t ·)

end

end PipelinedHttp.Route
