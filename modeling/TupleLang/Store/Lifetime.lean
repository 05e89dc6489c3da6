import TupleLang.Store

/-!
# Lifetime of tuples

A tuple lives until it is destroyed, by itself or together with the tuple that owns it. Destroying a
tuple first empties it and releases the cells that it held, and so destroys the tuples that those
owned; then its slot is vacated. The root scope is never destroyed.
-/

namespace TupleLang

namespace Store

/-- Destroy a tuple and everything that it owns, to at most `fuel` levels of ownership. -/
def destroyWithin : (fuel : Nat) → Store → TupleId → Store
  | 0, s, _ => s
  | fuel + 1, s, id =>
    if id = s.root then s
    else
      match s.tuple? id with
      | none => s
      | some t =>
        -- the tuple is empty before anything that it owns is destroyed, so circles of owners come
        -- to an end
        let (cells, emptied) := t.drain
        let releaseCell (s : Store) (cell : Cell) : Store :=
          match cell.ownedTuple? s.heap with
          | some child => destroyWithin fuel s child
          | none => s
        let released := cells.foldl releaseCell (s.putTuple id emptied)
        -- the slot is vacated here even if one of the cells has led back to this tuple
        { released with arena := released.arena.vacate id.index }

/-- Destroy a tuple and everything that it owns. Every level of ownership empties a tuple with at
least one attribute, so their number is a bound on the levels. -/
def destroy (s : Store) (id : TupleId) : Store := destroyWithin (s.arena.entryCount + 1) s id

/-- Give up a cell, and with it the tuple that it owns. -/
def release (s : Store) (cell : Cell) : Store :=
  match cell.ownedTuple? s.heap with
  | some id => s.destroy id
  | none => s

/-- Give up cells one after the other. -/
def releaseAll (s : Store) (cells : List Cell) : Store := cells.foldl release s

end Store

namespace StoreM

/-- Remove every attribute and every local type and action of a tuple. -/
def clear (id : TupleId) : StoreM Unit := do
  let cells ← update id fun t => .ok t.drain
  modify (·.releaseAll cells)

/-- Append an attribute. The tuple that it owns gets this one as its scope. -/
def add (id : TupleId) (name : Option String) (cell : Cell) : StoreM Nat := do
  let child := cell.ownedTuple? (← get).heap
  let pos ← update id (·.insert name cell)
  modify (·.adoptOwned id child)
  return pos

/-- Append an attribute without a value. -/
def addVoid (id : TupleId) (name : Option String) : StoreM Nat := do
  add id name (← newVoid)

/-- Append a value of an explicit type. -/
def addValue (id : TupleId) (name : Option String) (type : TypeDesc) (value : Value) :
    StoreM Nat := do
  add id name (← newCell type value)

/-- Append a native value. -/
def addNative (id : TupleId) (name : Option String) (n : Native) (v : n.Carrier) : StoreM Nat := do
  add id name (← newNative n v)

/-- Append a new empty tuple and give its id. -/
def addTuple (id : TupleId) (name : Option String) (kind : TupleKind) : StoreM TupleId := do
  let child ← change (·.create kind (some id))
  let type ← ofExcept ((← get).typeOf child)
  let cell ← newCell type (.tuple child)
  try
    let _ ← add id name cell
    return child
  -- nobody else knows of the new tuple
  catch e =>
    modify (·.destroy child)
    throw e

/-- Remove an attribute, and the tuple that it owns. -/
def remove (id : TupleId) (key : Key) : StoreM Unit := do
  let cell ← update id (·.take key)
  modify (·.release cell)

/-- Append attributes to a tuple that is being built. If one is refused, it and the ones after it
are given up, and then the tuple itself. -/
def fill (id : TupleId) : List (Option String × Cell) → StoreM Unit
  | [] => pure ()
  | (name, cell) :: rest => do
    let child := cell.ownedTuple? (← get).heap
    try
      let _ ← update id (·.insertInitial name cell)
    catch e =>
      modify fun s => ((s.release cell).releaseAll (rest.map (·.2))).destroy id
      throw e
    modify (·.adoptOwned id child)
    fill id rest

/-- Create a tuple with attributes. The add permission does not matter here, which is how tuples of
fixed shape come about. -/
def createFrom (kind : TupleKind) (parent : Option TupleId)
    (entries : List (Option String × Cell)) : StoreM TupleId := do
  let id ← change (·.create kind parent)
  fill id entries
  return id

/-- Change the cell that a key of a tuple stands for. -/
def updateCell {α : Type} (id : TupleId) (key : Key)
    (f : Heap → Cell → Except Error (α × Cell × Heap)) : StoreM α := do
  let t ← tuple id
  -- this asks for the permission, and not for the kind of the tuple
  let (pos, cell) ← ofExcept (t.cellForUpdate key)
  let (a, cell) ← tryHeap fun h => do
    let (a, cell, h) ← f h cell
    return ((a, cell), h)
  modify (·.putTuple id (t.setCell pos cell))
  return a

/-- Store a native value in an attribute. -/
def setAt (id : TupleId) (key : Key) (n : Native) (v : n.Carrier) : StoreM Unit :=
  updateCell id key fun h c => return ((), c, ← c.set h n v)

/-- Replace type and value of an attribute. -/
def replaceAt (id : TupleId) (key : Key) (type : TypeDesc) (value : Value) : StoreM Unit :=
  updateCell id key fun h c => return ((), ← c.replace h type value)

/-- A borrowed handle on an attribute that may be modified. -/
def borrowAt (id : TupleId) (key : Key) : StoreM Cell :=
  updateCell id key fun h c => return (c.borrow, c, h)

end StoreM

end TupleLang
