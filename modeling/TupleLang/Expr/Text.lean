import TupleLang.Expr.Node
import TupleLang.Store.Text

/-!
# Text of expressions

Expressions are written with all their parentheses: `(1 + (2 * 3))`. Variables are written by name,
literals as their text.
-/

namespace TupleLang.Node

/-- The text of a literal; a tuple that is gone is written `?`. -/
def literalText (s : Store) (cell : Cell) : String :=
  match s.cellText cell with
  | .ok text => text
  | .error _ => "?"

/-- The name in front of an argument, if it has one. -/
def argNamePieces : Option String → List Piece
  | some name => [.word name, .punct "="]
  | none => []

/-- Pieces of an operator from those of its operands. -/
def applyPieces (b : Binding) (children : List (List Piece)) : List Piece :=
  let child (i : Nat) : List Piece := (children[i]?).getD []
  let group (inner : List Piece) : List Piece := .punct "(" :: inner ++ [.punct ")"]
  match b.op with
  | .call =>
    let arg (i : Nat) (pieces : List Piece) : List Piece :=
      (if i = 0 then [] else [.punct ","]) ++ argNamePieces ((b.argNames[i]?).getD none) ++ pieces
    .word b.name :: group (children.mapIdx arg).flatten
  | .breaks | .continues => [.word b.op.spelling]
  | .ifThen => group (.operator "if" :: child 0 ++ .operator "then" :: child 1)
  | .ifThenElse =>
    group (.operator "if" :: child 0 ++ .operator "then" :: child 1 ++ .operator "else" :: child 2)
  | .select => group (child 0 ++ .operator "?" :: child 1 ++ .operator ":" :: child 2)
  | op =>
    if op.isUnary then group (.operator op.spelling :: child 0)
    else group (child 0 ++ .operator op.spelling :: child 1)

mutual

/-- Pieces of a node. -/
def pieces (s : Store) : Node → List Piece
  | value _ (some label) => [.word label]
  | value cell none => [.word (literalText s cell)]
  | apply binding children => applyPieces binding (piecesOf s children)

/-- Pieces of several nodes. -/
def piecesOf (s : Store) : List Node → List (List Piece)
  | [] => []
  | node :: rest => node.pieces s :: piecesOf s rest

end

end TupleLang.Node
