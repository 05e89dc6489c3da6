import TupleLang.Activation
import TupleLang.Store.Copy
import TupleLang.Store.Text

/-!
# Running actions

What each body does to the store and the stack. Conditions that a program may expect are raised: the
name of the condition is the result, and the signal says so. Bodies that belong to the host are run
by the host.
-/

namespace TupleLang

/-- The host's side: how it runs the bodies that it supplies. -/
structure Host where
  run : String → ActionM Signal

/-- A host that supplies no bodies. -/
def Host.none : Host := ⟨fun label => throw (.notFound (.body label))⟩

namespace Body

open ActionM

/-- Leave a computed native value of logical type `type`, or raise the condition. -/
def finish (type : String) (n : Native) : Except Condition n.Carrier → ActionM Signal
  | .ok v => do
    pushTyped type n v
    return .normal
  | .error condition => raise condition.name

/-- Compute with one operand. -/
def runUnary (a r : Native) (returns : String) (f : a.Carrier → Except Condition r.Carrier) :
    ActionM Signal := do
  finish returns r (f (← popNative a))

/-- Compute with two operands. -/
def runBinary (a b r : Native) (returns : String)
    (f : a.Carrier → b.Carrier → Except Condition r.Carrier) : ActionM Signal := do
  let (lhs, rhs) ← popPair
  let x ← read lhs a
  let y ← read rhs b
  finish returns r (f x y)

/-- Compute with two operands and store the result in the first, which is the result. -/
def runCompound (a b : Native) (f : a.Carrier → b.Carrier → Except Condition a.Carrier) :
    ActionM Signal := do
  let (target, rhs) ← popPair
  let x ← read target a
  let y ← read rhs b
  match f x y with
  | .ok v =>
    onStore (StoreM.write target a v)
    push target
    return .normal
  | .error condition => raise condition.name

/-- Assign `value` to `target` and give the target. The types must be equal. A tuple that the value
owns is moved, one that it refers to is copied, and the tuple that the target held before is
destroyed. -/
def assignCell (target value : Cell) : StoreM Cell := do
  StoreM.ofExcept target.checkWritable
  if target.type ≠ value.type then throw (.incompatibleType target.type value.type)
  let previous := target.tupleId? (← get).heap
  -- a tuple that the value only refers to stays where it is
  let refers := !value.owned && (value.tupleId? (← get).heap).isSome
  let value ← if refers then StoreM.duplicate value else pure value
  let target ← StoreM.tryHeap fun h => value.cloneInto h target
  -- assigning a tuple to itself must not destroy it
  match previous with
  | some old =>
    if target.tupleId? (← get).heap ≠ some old then modify (·.destroy old)
  | none => pure ()
  return target

/-- Assign the second operand to the first. -/
def runAssign : ActionM Signal := do
  let (target, value) ← popPair
  push (← onStore (assignCell target value))
  return .normal

/-- Pick a branch by the condition, which is the lowest cell of the stack. -/
def runChoose : ActionM Signal := do
  -- everything on the stack counts as condition and branches
  match ← popAll with
  | [] => throw (.stackUnderflow "if")
  | condition :: branches =>
    let chosen := if ← read condition .bool then branches[0]? else branches[1]?
    match chosen with
    | some cell => push cell
    | none => push (← onStore StoreM.newVoid)
    return .normal

/-- Test the type of the first operand against the descriptor in the second. -/
def runTypeTest (expected : Bool) : ActionM Signal := do
  let (value, type) ← popPair
  let type ← read type .type
  pushNative .bool (type.compatibleWith value.type == expected)
  return .normal

/-- The text of the operand: a text as it is, anything else as its literal. -/
def runTextOf : ActionM Signal := do
  let cell ← pop
  let store := (← get).store
  let text ←
    match cell.value store.heap with
    | .text s => pure s
    | _ => onStore (StoreM.ofExcept (store.cellText cell))
  pushNative .text text
  return .normal

/-- Number of elements of a cell's value. -/
def lengthOf (s : Store) (cell : Cell) : Except Error Nat :=
  match cell.value s.heap with
  | .text t => .ok t.length
  | .bytes bs => .ok bs.length
  | .namePath segments => .ok segments.length
  | .type t => .ok t.size
  | .tuple id => return (← s.tuple id).size
  | _ => .error (.wrongType "sized value" cell.type)

/-- The number of elements of the operand. -/
def runLength : ActionM Signal := do
  let cell ← pop
  let n ← onStore (StoreM.ofExcept (lengthOf (← get).store cell))
  pushNative .unsigned (UInt64.ofNat n)
  return .normal

/-- The type of the operand. -/
def runTypeOf : ActionM Signal := do
  let cell ← pop
  pushNative .type cell.type
  return .normal

/-- Operands for a new tuple: those that belong to something else are copied. -/
def ownOperands : List (Option String × Cell) → StoreM (List (Option String × Cell))
  | [] => pure []
  | (name, cell) :: rest => do
    let cell ← if cell.owned then pure cell else StoreM.duplicate cell
    return (name, cell) :: (← ownOperands rest)

/-- Build a plain tuple from the operands. -/
def runConstruct (names : List (Option String)) : ActionM Signal := do
  let cells ← popMany names.length
  let result ← onStore do
    let entries ← ownOperands (names.zip cells)
    -- a constructed tuple has the root scope around it
    let id ← StoreM.createFrom .plain (some (← get).root) entries
    StoreM.newCell (← StoreM.ofExcept ((← get).typeOf id)) (.tuple id)
  push result
  return .normal

/-- Run a body. -/
def run (host : Host) : Body → ActionM Signal
  | unary a r type f => runUnary a r type f
  | binary a b r type f => runBinary a b r type f
  | compound a b f => runCompound a b f
  | assign => runAssign
  | choose => runChoose
  | typeTest expected => runTypeTest expected
  | returns => do
    push (← pop)
    return .returns
  | raises => do raise (← popNative .name)
  | signal s => pure s
  | textOf => runTextOf
  | length => runLength
  | typeOf => runTypeOf
  | construct names => runConstruct names
  | .host label => host.run label

end Body

/-- Run an action against the stack. -/
def Action.call (host : Host) (action : Action) : ActionM Signal := action.body.run host

end TupleLang
