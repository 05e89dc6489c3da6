import TupleLang.Arena
import TupleLang.Settings
import TupleLang.TextForm

/-!
# Stores

A store is everything that a program can refer to: the tuples, the storage of their cells, the text
forms of the leaf types, the root scope and the settings. Operations that can fail run in `StoreM`,
which keeps the store as it is at the point of failure.
-/

namespace TupleLang

/-- Everything that a program can refer to. -/
structure Store where
  arena : Arena := {}
  heap : Heap := {}
  forms : TextForms := {}
  /-- The root scope. -/
  root : TupleId
  settings : Settings := {}

/-- Operations on a store that can fail. -/
abbrev StoreM := EStateM Error Store

/-- The outcome of a check or a computation that does not change the store. -/
def StoreM.ofExcept {α : Type} : Except Error α → StoreM α
  | .ok a => pure a
  | .error e => throw e

namespace Store

/-! ## Tuples -/

/-- The live tuple with the given id. -/
def tuple? (s : Store) (id : TupleId) : Option Tuple := s.arena.get? id

/-- The live tuple with the given id, or the error that there is none. -/
def tuple (s : Store) (id : TupleId) : Except Error Tuple :=
  match s.tuple? id with
  | some t => .ok t
  | none => .error (.notFound (.tuple id))

/-- Whether an id stands for a live tuple. -/
def contains (s : Store) (id : TupleId) : Bool := s.arena.contains id

/-- Number of live tuples, the root scope included. -/
def liveTuples (s : Store) : Nat := s.arena.liveCount

/-- Replace a live tuple. -/
def putTuple (s : Store) (id : TupleId) (tuple : Tuple) : Store :=
  { s with arena := s.arena.put id tuple }

/-- Move a tuple in. -/
def alloc (s : Store) (tuple : Tuple) : TupleId × Store :=
  let (id, arena) := s.arena.alloc tuple
  (id, { s with arena })

/-- Create an empty tuple. The kinds of the language have fixed permissions; `permissions` are those
of any other kind. -/
def createWith (s : Store) (kind : TupleKind) (permissions : Permissions)
    (parent : Option TupleId) : TupleId × Store :=
  s.alloc { kind, permissions := kind.fixedPermissions?.getD permissions, parent }

/-- Create an empty tuple that permits nothing beyond what its kind does. -/
def create (s : Store) (kind : TupleKind) (parent : Option TupleId) : TupleId × Store :=
  s.createWith kind {} parent

/-- Make `parent` the scope around a tuple, if that is live. -/
def adopt (s : Store) (parent : TupleId) (child : TupleId) : Store :=
  match s.tuple? child with
  | some t => s.putTuple child { t with parent := some parent }
  | none => s

/-- Make `parent` the scope around the tuple that a cell brought along, if it did. -/
def adoptOwned (s : Store) (parent : TupleId) : Option TupleId → Store
  | some child => s.adopt parent child
  | none => s

/-- A tuple's type. -/
def typeOf (s : Store) (id : TupleId) : Except Error TypeDesc := return (← s.tuple id).typeDesc

/-- A store with the text forms of the language and an empty root scope that permits everything. -/
def bare (settings : Settings) : Store :=
  -- the first tuple of an empty arena gets the first generation of the first slot
  let start : Store := { root := ⟨0, 0⟩, settings }
  let (root, s) := start.createWith (.custom "global") .all none
  { s with root }

end Store

namespace StoreM

/-- Run a function that changes the store and cannot fail. -/
def change {α : Type} (f : Store → α × Store) : StoreM α := fun s =>
  let (a, s) := f s
  .ok a s

/-- The live tuple with the given id. -/
def tuple (id : TupleId) : StoreM Tuple := do ofExcept ((← get).tuple id)

/-- Change a live tuple, or leave it as it is and fail. -/
def update {α : Type} (id : TupleId) (f : Tuple → Except Error (α × Tuple)) : StoreM α := do
  let (a, t) ← ofExcept (f (← tuple id))
  modify (·.putTuple id t)
  return a

/-! ## Cells -/

/-- Change the heap by a function that cannot fail. -/
def onHeap {α : Type} (f : Heap → α × Heap) : StoreM α :=
  change fun s =>
    let (a, heap) := f s.heap
    (a, { s with heap })

/-- Change the heap, or leave it as it is and fail. -/
def tryHeap {α : Type} (f : Heap → Except Error (α × Heap)) : StoreM α := do
  let (a, heap) ← ofExcept (f (← get).heap)
  modify ({ · with heap })
  return a

/-- A new owning cell. -/
def newCell (type : TypeDesc) (value : Value) : StoreM Cell := onHeap (Cell.make · type value)

/-- A new cell without a value. -/
def newVoid : StoreM Cell := onHeap Cell.void

/-- A new cell for a native value. -/
def newNative (n : Native) (v : n.Carrier) : StoreM Cell := onHeap (Cell.ofNative · n v)

/-- Read a cell as a native value. -/
def read (c : Cell) (n : Native) : StoreM n.Carrier := do ofExcept (c.read (← get).heap n)

/-- Store a native value in a cell. -/
def write (c : Cell) (n : Native) (v : n.Carrier) : StoreM Unit :=
  tryHeap fun h => return ((), ← c.set h n v)

end StoreM

end TupleLang
