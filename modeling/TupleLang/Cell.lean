import TupleLang.Error

/-!
# Cells

A *heap* is a growing list of storage places. A *cell* is a typed handle on one of them. A cell
either owns its value or refers to the value of another cell; cells that share a place see each
other's writes. The two ways to derive one cell from another are kept apart: `duplicate` copies
the value into a new place and owns the copy, `borrow` shares the place and owns nothing. A cell
can be locked, and then every write through it is refused.

Writes check before they change anything: an error leaves the heap as it was.
-/

namespace TupleLang

/-- Storage places, never given back. -/
structure Heap where
  values : Array Value := #[]

namespace Heap

/-- Contents of a place. -/
def get (h : Heap) (loc : Nat) : Value := (h.values[loc]?).getD .void

/-- Overwrite a place. -/
def put (h : Heap) (loc : Nat) (value : Value) : Heap := ⟨h.values.setIfInBounds loc value⟩

/-- A new place with the given contents. -/
def alloc (h : Heap) (value : Value) : Nat × Heap := (h.values.size, ⟨h.values.push value⟩)

/-- A place holds what was written to it. -/
@[simp] theorem get_put_self {h : Heap} {loc : Nat} (value : Value) (hloc : loc < h.values.size) :
    (h.put loc value).get loc = value := by
  simp [get, put, hloc]

/-- Writing to a place leaves all others as they are. -/
@[simp] theorem get_put_of_ne {h : Heap} {loc other : Nat} (value : Value) (hne : other ≠ loc) :
    (h.put loc value).get other = h.get other := by
  simp [get, put, Array.getElem?_setIfInBounds_ne hne.symm]

/-- A new place holds what it was made for. -/
@[simp] theorem get_alloc_self (h : Heap) (value : Value) :
    (h.alloc value).2.get (h.alloc value).1 = value := by
  simp [get, alloc]

/-- A new place leaves those before it as they are. -/
theorem get_alloc_of_lt {h : Heap} {loc : Nat} (value : Value) (hloc : loc < h.values.size) :
    (h.alloc value).2.get loc = h.get loc := by
  have hne : loc ≠ h.values.size := Nat.ne_of_lt hloc
  simp [get, alloc, Array.getElem?_push, hne]

end Heap

/-- A typed handle on a storage place. -/
structure Cell where
  /-- Logical type of the value. -/
  type : TypeDesc
  /-- The storage place. -/
  loc : Nat
  /-- Whether the cell owns its value. -/
  owned : Bool := true
  /-- Kind of the tuple that denies writes through this handle. -/
  lockedBy : Option String := none
  deriving DecidableEq

namespace Cell

/-! ## Making cells -/

/-- An owning cell of an explicit type in a new place. -/
def make (h : Heap) (type : TypeDesc) (value : Value) : Cell × Heap :=
  let (loc, h) := h.alloc value
  ({ type, loc }, h)

/-- A cell without a value. -/
def void (h : Heap) : Cell × Heap := make h .void .void

/-- A native value under its default logical type. -/
def ofNative (h : Heap) (n : Native) (v : n.Carrier) : Cell × Heap :=
  make h (.leaf n.typeName) (n.wrap v)

/-- A native value under the logical type that a hint selects. -/
def hinted (h : Heap) (n : Native) (v : n.Carrier) (hint : Hint) : Except Error (Cell × Heap) :=
  match n.hinted? hint with
  | some typeName => .ok (make h (.leaf typeName) (n.wrap v))
  | none => .error (.accessDenied (.map n hint) "native")

/-! ## Inspection -/

/-- The stored value. -/
def value (h : Heap) (c : Cell) : Value := h.get c.loc

/-- The id of the tuple that the cell holds. -/
def tupleId? (h : Heap) (c : Cell) : Option TupleId := (c.value h).tupleId?

/-- The id of the tuple that the cell holds and owns. -/
def ownedTuple? (h : Heap) (c : Cell) : Option TupleId := if c.owned then c.tupleId? h else none

/-- Whether the cell's type is the type of no value. -/
def isVoid (c : Cell) : Bool := c.type.isVoid

/-- Whether writes through the cell are refused. -/
def isReadOnly (c : Cell) : Bool := c.lockedBy.isSome

/-- Whether two cells stand for the same place. -/
def sharesStorage (c d : Cell) : Bool := c.loc == d.loc

/-! ## Copies and borrowed handles -/

/-- Copy the value into a new owning cell. A nested tuple is copied by its id. -/
def duplicate (h : Heap) (c : Cell) : Cell × Heap := make h c.type (c.value h)

/-- A handle on the same place that owns nothing. -/
def borrow (c : Cell) : Cell := { c with owned := false }

/-- A handle that refuses writes, for the reason that a tuple of kind `kind` does. -/
def readOnly (c : Cell) (kind : String) : Cell := { c.borrow with lockedBy := some kind }

/-- Another handle on a value owned elsewhere; an owned value is duplicated. -/
def reborrow (h : Heap) (c : Cell) : Cell × Heap := if c.owned then c.duplicate h else (c.borrow, h)

/-! ## Checks -/

/-- Writing through a locked cell is refused. -/
def checkWritable (c : Cell) : Except Error Unit :=
  match c.lockedBy with
  | some kind => .error (.accessDenied .modify kind)
  | none => .ok ()

/-- The error of an access with a native type that does not fit. -/
def wrongType (c : Cell) (n : Native) : Error := .wrongType n.typeName c.type

/-- Whether the cell's type may be read with the native type. -/
def admits (c : Cell) (n : Native) : Bool := c.type.leafName?.any n.accepts

/-- Access with a native type must fit the cell's type. -/
def checkType (c : Cell) (n : Native) : Except Error Unit :=
  if c.admits n then .ok () else .error (c.wrongType n)

/-! ## Typed access -/

/-- Read the value as a native value. -/
def read (h : Heap) (c : Cell) (n : Native) : Except Error n.Carrier := do
  c.checkType n
  match n.unwrap? (c.value h) with
  | some v => .ok v
  | none => .error (c.wrongType n)

/-- Store a native value, keeping the type. -/
def set (h : Heap) (c : Cell) (n : Native) (v : n.Carrier) : Except Error Heap := do
  c.checkWritable
  c.checkType n
  .ok (h.put c.loc (n.wrap v))

/-- Overwrite a native value in place: what is stored must be of the same native type. -/
def overwrite (h : Heap) (c : Cell) (n : Native) (v : n.Carrier) : Except Error Heap := do
  c.checkWritable
  let _ ← c.read h n
  .ok (h.put c.loc (n.wrap v))

/-- Replace type and value at once. -/
def replace (h : Heap) (c : Cell) (type : TypeDesc) (value : Value) :
    Except Error (Cell × Heap) := do
  c.checkWritable
  .ok ({ c with type }, h.put c.loc value)

/-- Assign the value and the type of a cell to `target`, which keeps its place and its ownership. -/
def cloneInto (h : Heap) (c target : Cell) : Except Error (Cell × Heap) :=
  target.replace h c.type (c.value h)

end Cell

end TupleLang
