import TupleLang.Action
import TupleLang.Operator
import TupleLang.Store.Lifetime

/-!
# Expression trees

A node is a cell, for a literal or a variable, or an operator applied to child nodes. Every operator
node has been bound to the action that implements it. Tuples of literals belong to the tree and are
given up with it.
-/

namespace TupleLang

/-- What an operator node is bound to. -/
structure Binding where
  /-- The operator. -/
  op : Operator
  /-- Name of the action, or of the function called. -/
  name : String
  /-- The action that implements the operator for the operands at hand. -/
  action : Action
  /-- Type of the result. -/
  type : TypeDesc
  /-- Names of the arguments of a call; empty for other operators. -/
  argNames : List (Option String) := []

/-- A node of an expression. -/
inductive Node where
  /-- A literal, or a variable of which `label` is the name. -/
  | value (cell : Cell) (label : Option String)
  /-- A bound operator with its operands. -/
  | apply (binding : Binding) (children : List Node)

namespace Node

/-- A literal. -/
def literal (cell : Cell) : Node := value cell none

/-- Type of the node's value. -/
def type : Node → TypeDesc
  | value cell _ => cell.type
  | apply binding _ => binding.type

mutual

/-- Cells at the leaves, from left to right. -/
def cells : Node → List Cell
  | value cell _ => [cell]
  | apply _ children => cellsOf children

/-- Cells at the leaves of several nodes, from left to right. -/
def cellsOf : List Node → List Cell
  | [] => []
  | node :: rest => node.cells ++ cellsOf rest

end

end Node

namespace Store

/-- Give up the tuples of a node's literals. -/
def releaseNode (s : Store) (node : Node) : Store := s.releaseAll node.cells

/-- Give up the tuples of the literals of several nodes. -/
def releaseNodes (s : Store) (nodes : List Node) : Store := s.releaseAll (Node.cellsOf nodes)

end Store

end TupleLang
