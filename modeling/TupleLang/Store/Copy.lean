import TupleLang.Store.Lifetime

/-!
# Deep copies

Copying a cell that holds a tuple copies the tuple and, in turn, every tuple that its attributes
own. Attributes that only refer to a tuple go on referring to the same one. The copy of the
outermost tuple keeps its scope; the copy of an owned tuple gets the copy of its owner as its
scope.
-/

namespace TupleLang.StoreM

/-- Copy a cell; `copyTuple` copies the tuple that it may hold. -/
def duplicateBy (copyTuple : TupleId → StoreM TupleId) (cell : Cell) : StoreM Cell := do
  match cell.tupleId? (← get).heap with
  | none => onHeap (Cell.duplicate · cell)
  | some id => newCell cell.type (.tuple (← copyTuple id))

/-- Append copies of cells to the tuple `copy`: owned ones are copied, all others are taken as they
are. -/
def copyCells (copyTuple : TupleId → StoreM TupleId) (copy : TupleId) :
    List (Option String × Cell) → StoreM Unit
  | [] => pure ()
  | (name, cell) :: rest => do
    let cell ← if cell.owned then duplicateBy copyTuple cell else pure cell
    let child := cell.ownedTuple? (← get).heap
    try
      let _ ← update copy (·.insertInitial name cell)
    -- a copy that is refused belongs to nobody
    catch e =>
      modify (·.release cell)
      throw e
    modify (·.adoptOwned copy child)
    copyCells copyTuple copy rest

/-- Fresh handles on the cells of a list of attributes, owned values copied. -/
def reborrowAll : List Attribute → StoreM (List (Option String × Cell))
  | [] => pure []
  | entry :: rest => do
    let cell ← onHeap (Cell.reborrow · entry.cell)
    return (entry.name, cell) :: (← reborrowAll rest)

/-- Copy a tuple and everything that it owns, to at most `fuel` levels of ownership. -/
def duplicateTupleWithin : (fuel : Nat) → TupleId → StoreM TupleId
  | 0, _ => do throw (.depthExceeded ((← get).arena.slots.size + 1) (← get).arena.slots.size)
  | fuel + 1, id => do
    let t ← tuple id
    let cells ← reborrowAll t.entries
    let copy ← change (·.createWith t.kind t.permissions t.parent)
    try
      copyCells (duplicateTupleWithin fuel) copy cells
    -- what was copied so far is owned by the copy and goes with it
    catch e =>
      modify (·.destroy copy)
      throw e
    return copy

/-- Copy a tuple and everything that it owns. A chain of owners without a cycle has no more members
than there are slots. -/
def duplicateTuple (id : TupleId) : StoreM TupleId := do
  duplicateTupleWithin ((← get).arena.slots.size + 1) id

/-- Copy a cell together with the tuples that it owns. -/
def duplicate (cell : Cell) : StoreM Cell := duplicateBy duplicateTuple cell

end TupleLang.StoreM
