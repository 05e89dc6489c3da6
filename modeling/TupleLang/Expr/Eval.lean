import TupleLang.Action.Run
import TupleLang.Expr.Node

/-!
# Evaluation

A literal or variable yields its cell. An operator evaluates its operands from left to right and
then runs its action on them; an operand that does not end normally ends the whole. A conditional
evaluates its condition and only the branch that it chooses.
-/

namespace TupleLang

/-- What the operands of an operator came to. -/
inductive Operands where
  /-- One of them did not end normally. -/
  | interrupted (signal : Signal) (cell : Cell)
  /-- Their values, in order. -/
  | ready (cells : List Cell)

/-- The operands with one more in front. -/
def Operands.cons (cell : Cell) : Operands → Operands
  | interrupted signal cell => interrupted signal cell
  | ready cells => ready (cell :: cells)

/-- Run an action on operands given in order; its result is the cell it leaves on top. -/
def Action.apply (host : Host) (action : Action) (name : String) (operands : List Cell) :
    StoreM (Signal × Cell) := fun store =>
  let run : ActionM (Signal × Cell) := do
    let signal ← action.call host
    return (signal, ← ActionM.takeResult)
  -- the last operand is on top
  match run { store, stack := { action := name, cells := operands.reverse } } with
  | .ok outcome a => .ok outcome a.store
  | .error e a => .error e a.store

namespace Node

/-- Nesting must stay within the limit. -/
def checkDepth (depth : Nat) : StoreM Unit := do
  let settings := (← get).settings
  if settings.allows depth then return ()
  throw (.depthExceeded depth settings.maxDepth)

/-- What a literal or variable yields: a tuple as a handle that owns nothing, a scalar as a copy,
or as another handle on a variable. -/
def yieldCell (cell : Cell) : StoreM Cell := do
  if (cell.tupleId? (← get).heap).isSome then return cell.borrow
  StoreM.onHeap (Cell.reborrow · cell)

/-- Branches that are not evaluated. -/
def skipBranches : List Node → StoreM Operands
  | [] => return .ready []
  | _ :: rest => do
    let void ← StoreM.newVoid
    return (← skipBranches rest).cons void

mutual

/-- Evaluate a node at a depth of nesting. -/
def evaluate (host : Host) : Node → (depth : Nat) → StoreM (Signal × Cell)
  | value cell _, depth => do
    checkDepth depth
    return (.normal, ← yieldCell cell)
  | apply binding children, depth => do
    checkDepth depth
    let operands ←
      if binding.op.isConditional then evaluateChoice host binding.name children (depth + 1)
      else evaluateAll host children (depth + 1)
    match operands with
    | .interrupted signal cell => return (signal, cell)
    | .ready cells => binding.action.apply host binding.name cells

/-- Evaluate nodes from left to right, up to the first that does not end normally. -/
def evaluateAll (host : Host) : List Node → (depth : Nat) → StoreM Operands
  | [], _ => return .ready []
  | node :: rest, depth => do
    let (signal, cell) ← node.evaluate host depth
    if signal.isNormal then return (← evaluateAll host rest depth).cons cell
    return .interrupted signal cell

/-- Evaluate a condition and the branch that it chooses. -/
def evaluateChoice (host : Host) (name : String) : List Node → (depth : Nat) → StoreM Operands
  | [], _ => throw (.stackUnderflow name)
  | condition :: branches, depth => do
    let (signal, cell) ← condition.evaluate host depth
    if signal.isNormal then
      let truth ← StoreM.read cell .bool
      return (← evaluateBranches host truth branches depth).cons cell
    return .interrupted signal cell

/-- Evaluate the first of the branches if `chosen`, else all but the first; a branch that is not
evaluated counts as void. -/
def evaluateBranches (host : Host) (chosen : Bool) : List Node → (depth : Nat) → StoreM Operands
  | [], _ => return .ready []
  | branch :: rest, depth => do
    if chosen then
      let (signal, cell) ← branch.evaluate host depth
      if signal.isNormal then return (← skipBranches rest).cons cell
      return .interrupted signal cell
    else
      let void ← StoreM.newVoid
      return (← evaluateAll host rest depth).cons void

end

end Node

end TupleLang
