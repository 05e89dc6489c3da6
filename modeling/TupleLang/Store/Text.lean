import TupleLang.Store

/-!
# Text of tuples

Scalars share a line. An unnamed nested tuple goes on an indented line of its own, a named one is
its name, a colon and an indented block:

    P(x=1, y="two",
      (3, 4),
      inner:
        D(5)
    )

The letter of the kind is written where the kind changes from the enclosing tuple, so a bare
parenthesis inside a tuple opens a tuple of the same kind.
-/

namespace TupleLang.Store

/-- Literal text of a cell that holds no tuple. -/
def scalarText (s : Store) (cell : Cell) : String :=
  let value := cell.value s.heap
  (s.forms.format? cell.type value).getD value.plainText

/-- What has been written of a tuple's attributes. -/
structure EntriesState where
  /-- Whether an indented block is open. -/
  inBlock : Bool := false
  /-- Whether the last attribute was a nested tuple. -/
  afterTuple : Bool := false

/-- Pieces of one attribute; `nested` gives the pieces of a nested tuple. -/
def entryPieces (s : Store) (nested : TupleId → Except Error (List Piece)) (state : EntriesState)
    (entry : Attribute) : Except Error (List Piece × EntriesState) :=
  match entry.cell.tupleId? s.heap with
  | some child => do
    let inner ← nested child
    -- the first nested tuple opens the block, which stays open to the end
    let block := if state.inBlock then [] else [.startBlock]
    let body :=
      match entry.name with
      | some name =>
        [.word name, .punct ":", .startBlock, .lineBreak] ++ inner ++ [.endBlock]
      | none => inner
    return (block ++ .lineBreak :: body, { inBlock := true, afterTuple := true })
  | none =>
    -- a scalar behind a nested tuple starts a line
    let gap := if state.afterTuple then [.lineBreak] else []
    let name :=
      match entry.name with
      | some name => [.word name, .punct "="]
      | none => []
    .ok (gap ++ name ++ [.word (s.scalarText entry.cell)], { state with afterTuple := false })

/-- Pieces of a list of attributes behind others, and whether a block is open at the end. -/
def entriesPieces (s : Store) (nested : TupleId → Except Error (List Piece)) :
    (first : Bool) → (state : EntriesState) → List Attribute → Except Error (List Piece × Bool)
  | _, state, [] => .ok ([], state.inBlock)
  | first, state, entry :: rest => do
    let (pieces, state) ← s.entryPieces nested state entry
    let (others, inBlock) ← s.entriesPieces nested false state rest
    let comma := if first then [] else [.punct ","]
    return (comma ++ pieces ++ others, inBlock)

/-- Pieces of a tuple inside one of kind `enclosing`, to at most `fuel` levels of nesting. -/
def tuplePieces (s : Store) : (fuel : Nat) → (enclosing : Option TupleKind) → TupleId →
    Except Error (List Piece)
  | 0, _, _ => .error (.depthExceeded (s.arena.slots.size + 1) s.arena.slots.size)
  | fuel + 1, enclosing, id => do
    let t ← s.tuple id
    let letter := if enclosing = some t.kind then [] else [.word t.kind.letter]
    let (entries, inBlock) ← s.entriesPieces (s.tuplePieces fuel (some t.kind)) true {} t.entries
    let close := if inBlock then [.endBlock, .lineBreak] else []
    return letter ++ .punct "(" :: entries ++ close ++ [.punct ")"]

/-- Pieces of a tuple on its own. Tuples that contain themselves have no text: nesting without a
cycle is not deeper than there are slots. -/
def pieces (s : Store) (id : TupleId) : Except Error (List Piece) :=
  s.tuplePieces (s.arena.slots.size + 1) none id

/-- Text of a tuple. -/
def tupleText (s : Store) (id : TupleId) : Except Error String :=
  return Layout.render (← s.pieces id)

/-- Literal text of any cell; tuples are written in full. -/
def cellText (s : Store) (cell : Cell) : Except Error String :=
  match cell.tupleId? s.heap with
  | some id => s.tupleText id
  | none => .ok (s.scalarText cell)

end TupleLang.Store
