import TupleLang.Action
import TupleLang.Cell

/-!
# Tuples

A tuple is an ordered collection of attributes, optionally named, with a kind, permissions and a
parent scope. It also keeps a local registry of types and of actions. Names of attributes are
indexed by position, and actions by name.

The operations of this module concern one tuple. They return the changed tuple, or the reason why
nothing was changed.
-/

namespace TupleLang

/-- What may be done to a tuple after it was built. -/
structure Permissions where
  /-- Append attributes. -/
  add : Bool := false
  /-- Remove attributes. -/
  remove : Bool := false
  /-- Change attributes in place. -/
  modify : Bool := false
  /-- Register types. -/
  types : Bool := false
  /-- Register actions. -/
  actions : Bool := false
  deriving DecidableEq, Repr

/-- Every permission. -/
def Permissions.all : Permissions := ⟨true, true, true, true, true⟩

/-- Words for the permissions that are given. -/
def Permissions.names (p : Permissions) : List String :=
  ([(p.add, "add"), (p.remove, "remove"), (p.modify, "modify"), (p.types, "types"),
    (p.actions, "actions")].filter (·.1)).map (·.2)

/-- The permissions with the given words. -/
def Permissions.ofNames (names : List String) : Permissions where
  add := names.contains "add"
  remove := names.contains "remove"
  modify := names.contains "modify"
  types := names.contains "types"
  actions := names.contains "actions"

/-- The kind of a tuple. -/
inductive TupleKind where
  /-- A record of fixed shape, whose type follows from its attributes. -/
  | plain
  /-- A collection of anything that can grow. -/
  | dynamic
  /-- A collection of plain data that can grow. -/
  | data
  /-- A kind of the host's own. -/
  | custom (tag : String)
  deriving DecidableEq, Repr

namespace TupleKind

/-- Name of the kind. -/
def tag : TupleKind → String
  | plain => "plain"
  | dynamic => "dynamic"
  | data => "data"
  | custom tag => tag

/-- The letter, or tag, in front of the opening parenthesis. -/
def letter : TupleKind → String
  | plain => "P"
  | dynamic => "D"
  | data => "E"
  | custom tag => tag

/-- The kind with the given letter. -/
def ofLetter? : String → Option TupleKind
  | "P" => some plain
  | "D" => some dynamic
  | "E" => some data
  | _ => none

/-- Permissions of the kinds of the language; those of other kinds are the host's choice. -/
def fixedPermissions? : TupleKind → Option Permissions
  | plain => some { modify := true }
  | dynamic | data => some { add := true, remove := true, modify := true }
  | custom _ => none

end TupleKind

/-- Leaf types that a data tuple takes, besides other data tuples. -/
def dataTypes : List String :=
  ["bool", "byte", "char", "int", "long", "index", "bits", "float", "name", "bytes", "text",
   "regex", "namepath", "path"]

/-- Whether a data tuple may hold a value of the given type. -/
def TypeDesc.isData (t : TypeDesc) : Bool :=
  match t.leafName? with
  | some name => name == "data" || dataTypes.contains name
  | none => false

/-- Position or name of an attribute. Negative positions count from the end. -/
inductive Key where
  | position (index : Int)
  | name (name : String)
  deriving DecidableEq, Repr

/-- The text of a key. -/
def Key.text : Key → String
  | .position i => s!"#{i}"
  | .name n => s!"`{n}`"

/-- One attribute: its optional name and its cell. -/
structure Attribute where
  name : Option String
  cell : Cell

/-- An ordered collection of attributes with permissions and a parent scope. -/
structure Tuple where
  kind : TupleKind
  permissions : Permissions
  parent : Option TupleId
  /-- The attributes in order. -/
  entries : List Attribute := []
  /-- Position of each attribute name. -/
  index : List (String × Nat) := []
  /-- Locally registered types, in the order of registration. -/
  types : List (String × TypeDesc) := []
  /-- Locally registered actions under their keys, in the order of registration. -/
  actions : List (TypeDesc × Action) := []
  /-- Keys of the local actions of each name, in the order of registration. -/
  byName : List (String × List TypeDesc) := []

namespace Tuple

/-- The tuple's type: a plain tuple's is the tree of its attributes' types, every other kind is
known by its tag alone. -/
def typeDesc (t : Tuple) : TypeDesc :=
  match t.kind with
  | .plain => .tree (t.entries.map fun e => (e.name, e.cell.type))
  | kind => .leaf kind.tag

/-- Number of attributes. -/
def size (t : Tuple) : Nat := t.entries.length

/-- Whether there are no attributes. -/
def isEmpty (t : Tuple) : Bool := t.entries.isEmpty

/-- The error for a refused operation. -/
def denied (t : Tuple) (operation : Denied) : Error := .accessDenied operation t.kind.tag

/-- An operation needs its permission. -/
def require (t : Tuple) (allowed : Bool) (operation : Denied) : Except Error Unit :=
  if allowed then .ok () else .error (t.denied operation)

/-! ## Attributes -/

/-- Whether there is an attribute of the given name. -/
def contains (t : Tuple) (name : String) : Bool := (t.index.lookup name).isSome

/-- Position that a key stands for. -/
def position (t : Tuple) : Key → Except Error Nat
  | .name name =>
    match t.index.lookup name with
    | some pos => .ok pos
    | none => .error (.notFound (.attribute name))
  | .position i =>
    -- negative positions count from the end
    let pos := if i < 0 then t.size + i else i
    if 0 ≤ pos ∧ pos < t.size then .ok pos.toNat
    else .error (.notFound (.position i t.size))

/-- Name of the attribute at a position. -/
def nameAt? (t : Tuple) (pos : Nat) : Option String := t.entries[pos]?.bind (·.name)

/-- The cell at a position. -/
def cellAt? (t : Tuple) (pos : Nat) : Option Cell := t.entries[pos]?.map (·.cell)

/-- The cell that a key stands for. -/
def cell (t : Tuple) (key : Key) : Except Error Cell := do
  let pos ← t.position key
  match t.cellAt? pos with
  | some cell => .ok cell
  | none => .error (.notFound (.position pos t.size))

/-- The cell that a key stands for, with its position, to be changed in place. -/
def cellForUpdate (t : Tuple) (key : Key) : Except Error (Nat × Cell) := do
  let pos ← t.position key
  -- a key that stands for nothing is an error of its own, whatever is permitted
  t.require t.permissions.modify .modify
  match t.cellAt? pos with
  | some cell => .ok (pos, cell)
  | none => .error (.notFound (.position pos t.size))

/-- Replace the cell at a position, keeping its name. -/
def setCell (t : Tuple) (pos : Nat) (cell : Cell) : Tuple :=
  { t with entries := t.entries.modify pos ({ · with cell }) }

/-- Append an attribute while the tuple is built: the add permission does not matter, a free name
and a type that the kind takes do. -/
def insertInitial (t : Tuple) (name : Option String) (cell : Cell) :
    Except Error (Nat × Tuple) := do
  if let some n := name then
    if t.contains n then throw (.duplicateName n)
  if t.kind == .data && !cell.type.isData then
    throw (t.denied (.store cell.type))
  let pos := t.size
  let index :=
    match name with
    | some n => t.index ++ [(n, pos)]
    | none => t.index
  return (pos, { t with entries := t.entries ++ [⟨name, cell⟩], index })

/-- Append an attribute. -/
def insert (t : Tuple) (name : Option String) (cell : Cell) : Except Error (Nat × Tuple) := do
  t.require t.permissions.add .add
  t.insertInitial name cell

/-- The name index once the attribute called `name` at position `pos` is gone. -/
def reindex (index : List (String × Nat)) (name : Option String) (pos : Nat) :
    List (String × Nat) :=
  -- those behind the attribute move up
  (index.filter fun e => name != some e.1).map fun e => (e.1, if pos < e.2 then e.2 - 1 else e.2)

/-- Detach an attribute. -/
def take (t : Tuple) (key : Key) : Except Error (Cell × Tuple) := do
  let pos ← t.position key
  t.require t.permissions.remove .remove
  match t.entries[pos]? with
  | some entry =>
    return (entry.cell,
      { t with entries := t.entries.eraseIdx pos, index := reindex t.index entry.name pos })
  | none => throw (.notFound (.position pos t.size))

/-- Every cell, and the tuple without attributes, types and actions. -/
def drain (t : Tuple) : List Cell × Tuple :=
  (t.entries.map (·.cell),
    { t with entries := [], index := [], types := [], actions := [], byName := [] })

/-! ## Local registries -/

/-- The type registered here under a name. -/
def localType? (t : Tuple) (name : String) : Option TypeDesc := t.types.lookup name

/-- Register a type under a new name. -/
def insertType (t : Tuple) (name : String) (type : TypeDesc) : Except Error Tuple := do
  t.require t.permissions.types .registerTypes
  if (t.localType? name).isSome then throw (.duplicateName name)
  return { t with types := t.types ++ [(name, type)] }

/-- Forget a type. -/
def removeType (t : Tuple) (name : String) : Tuple :=
  { t with types := t.types.filter (·.1 != name) }

/-- The table of keys by name with one more key. -/
def pushKey (table : List (String × List TypeDesc)) (name : String) (key : TypeDesc) :
    List (String × List TypeDesc) :=
  match table with
  | [] => [(name, [key])]
  | (n, keys) :: rest =>
    if n = name then (n, keys ++ [key]) :: rest else (n, keys) :: pushKey rest name key

/-- The local action with exactly this signature. -/
def action? (t : Tuple) (signature : Signature) : Option Action := t.actions.lookup signature.key

/-- Register an action under a new signature. -/
def insertAction (t : Tuple) (action : Action) : Except Error Tuple := do
  t.require t.permissions.actions .registerActions
  let key := action.signature.key
  if (t.action? action.signature).isSome then throw (.duplicateName action.signature.text)
  return { t with
    actions := t.actions ++ [(key, action)]
    byName := pushKey t.byName action.name key }

/-- Local actions of a name, in the order of registration. -/
def actionsNamed (t : Tuple) (name : String) : List Action :=
  ((t.byName.lookup name).getD []).filterMap fun key => t.actions.lookup key

end Tuple

end TupleLang
