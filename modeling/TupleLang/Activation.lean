import TupleLang.Store

/-!
# Activations

An action runs against a stack of cells: it takes its operands from the top, the last one first, and
leaves its result there. An activation is a store together with such a stack. What an operation took
from the stack before it failed stays taken.
-/

namespace TupleLang

/-- The operands of an action. -/
structure Stack where
  /-- Name of the action that uses the stack; errors quote it. -/
  action : String
  /-- The cells, the top one first. -/
  cells : List Cell := []

namespace Stack

/-- Put a cell on top. -/
def push (s : Stack) (cell : Cell) : Stack := { s with cells := cell :: s.cells }

/-- Number of cells. -/
def size (s : Stack) : Nat := s.cells.length

/-- Whether there are no cells. -/
def isEmpty (s : Stack) : Bool := s.cells.isEmpty

end Stack

/-- A store and the stack of a running action. -/
structure Activation where
  store : Store
  stack : Stack

/-- What actions do: change store and stack, and possibly fail. -/
abbrev ActionM := EStateM Error Activation

namespace ActionM

/-- An operation on the store. -/
def onStore {α : Type} (m : StoreM α) : ActionM α := fun a =>
  match m a.store with
  | .ok x store => .ok x { a with store }
  | .error e store => .error e { a with store }

/-- Put a cell on top. -/
def push (cell : Cell) : ActionM Unit := modify fun a => { a with stack := a.stack.push cell }

/-- Take the top cell. -/
def pop : ActionM Cell := fun a =>
  match a.stack.cells with
  | cell :: cells => .ok cell { a with stack := { a.stack with cells } }
  | [] => .error (.stackUnderflow a.stack.action) a

/-- Take all cells, the bottom one first. -/
def popAll : ActionM (List Cell) := fun a =>
  .ok a.stack.cells.reverse { a with stack := { a.stack with cells := [] } }

/-- Take the `n` top cells, the lowest one first. -/
def popMany : (n : Nat) → ActionM (List Cell)
  | 0 => pure []
  | n + 1 => do
    -- what was taken before the stack ran out is lost
    let top ← pop
    return (← popMany n) ++ [top]

/-- Take the two top cells, the lower one first. -/
def popPair : ActionM (Cell × Cell) := do
  let rhs ← pop
  let lhs ← pop
  return (lhs, rhs)

/-- Read a cell as a native value. -/
def read (cell : Cell) (n : Native) : ActionM n.Carrier := onStore (StoreM.read cell n)

/-- Take the top cell as a native value. -/
def popNative (n : Native) : ActionM n.Carrier := do read (← pop) n

/-- Put a native value of logical type `type` on top. -/
def pushTyped (type : String) (n : Native) (v : n.Carrier) : ActionM Unit := do
  push (← onStore (StoreM.newCell (.leaf type) (n.wrap v)))

/-- Put a native value on top. -/
def pushNative (n : Native) (v : n.Carrier) : ActionM Unit := pushTyped n.typeName n v

/-- Raise a condition: its name is left on top. -/
def raise (condition : String) : ActionM Signal := do
  pushNative .name condition
  return .raises

/-- The result that an action left: the top cell, or a void one if there is none. -/
def takeResult : ActionM Cell := do
  match (← get).stack.cells with
  | [] => onStore StoreM.newVoid
  | cell :: _ => return cell

end ActionM

end TupleLang
