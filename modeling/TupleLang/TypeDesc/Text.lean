import TupleLang.Layout
import TupleLang.TypeDesc

/-!
# Text of type descriptors

A descriptor is written `T(...)`: a leaf as `T(int)`, a tree as `T(x=int, (text, float))`. A tree
with one unnamed child keeps a comma behind it, `T(int,)`, since the comma tells it from the child.
-/

namespace TupleLang.TypeDesc

/-- The comma behind a lone unnamed child. -/
def loneComma : List Field → List Piece
  | [(none, _)] => [.punct ","]
  | _ => []

/-- Pieces of a child's name, if it has one. -/
def namePieces : Option String → List Piece
  | none => []
  | some name => [.word name, .punct "="]

mutual

/-- Pieces of a descriptor inside another one: leaves bare, trees in parentheses. -/
def innerPieces : TypeDesc → List Piece
  | leaf name => [.word name]
  | tree fields => .punct "(" :: (fieldPieces fields ++ loneComma fields ++ [.punct ")"])

/-- Pieces of a list of children, separated by commas. -/
def fieldPieces : List Field → List Piece
  | [] => []
  | [(name, t)] => namePieces name ++ t.innerPieces
  | (name, t) :: rest => namePieces name ++ t.innerPieces ++ .punct "," :: fieldPieces rest

end

/-- Pieces of a descriptor on its own. -/
def pieces : TypeDesc → List Piece
  | leaf name => [.word "T", .punct "(", .word name, .punct ")"]
  | tree fields => .word "T" :: innerPieces (tree fields)

/-- The text `T(...)` of a descriptor. -/
def text (t : TypeDesc) : String := Layout.render t.pieces

/-- The text of a descriptor without the leading `T`. -/
def innerText (t : TypeDesc) : String := Layout.render t.innerPieces

end TupleLang.TypeDesc
