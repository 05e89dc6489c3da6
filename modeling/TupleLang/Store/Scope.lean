import TupleLang.Store

/-!
# Scopes

Names are resolved from the inside out: a tuple, its parent, and so on to the outermost one that is
still live. Variables are the named attributes of these tuples.
-/

namespace TupleLang.Store

/-- A tuple and its ancestors, innermost first, at most `n` of them. -/
def chainWithin (s : Store) : (n : Nat) → TupleId → List TupleId
  | 0, _ => []
  | n + 1, id =>
    -- a parent that is gone ends the chain
    match s.tuple? id with
    | none => []
    | some t =>
      match t.parent with
      | none => [id]
      | some parent => id :: chainWithin s n parent

/-- A tuple and its ancestors, innermost first, up to the first id that does not resolve. A chain
that is longer than the arena runs in a circle and is cut there. -/
def scopeChain (s : Store) (id : TupleId) : List TupleId := s.chainWithin s.arena.slots.size id

/-- The outermost scope around a tuple. -/
def rootOf (s : Store) (id : TupleId) : TupleId := (s.scopeChain id).getLast?.getD s.root

/-- Tuple and position of the nearest attribute of the given name. -/
def lookupVariable (s : Store) (id : TupleId) (name : String) : Option (TupleId × Nat) :=
  (s.scopeChain id).findSome? fun scope =>
    (s.tuple? scope).bind fun t => (t.index.lookup name).map (scope, ·)

/-- The cell of the nearest attribute of the given name. -/
def lookupCell? (s : Store) (id : TupleId) (name : String) : Option Cell := do
  let (scope, pos) ← s.lookupVariable id name
  (← s.tuple? scope).cellAt? pos

/-- The cell that stands for a variable in an expression: a borrowed handle, so that assignments
write through, or a locked handle if its tuple does not permit changes. -/
def variableCell? (s : Store) (id : TupleId) (name : String) : Option Cell := do
  let (scope, pos) ← s.lookupVariable id name
  let t ← s.tuple? scope
  let cell ← t.cellAt? pos
  return if t.permissions.modify then cell.borrow else cell.readOnly t.kind.tag

/-- The type that a name means in a scope: the nearest registered one, or else the leaf type of that
name if it has a text form. -/
def lookupType (s : Store) (id : TupleId) (name : String) : Option TypeDesc :=
  ((s.scopeChain id).findSome? fun scope => (s.tuple? scope).bind (·.localType? name)).or
    (if s.forms.contains name then some (.leaf name) else none)

/-- Whether a name means a type in a scope. -/
def isType (s : Store) (id : TupleId) (name : String) : Bool := (s.lookupType id name).isSome

end TupleLang.Store
