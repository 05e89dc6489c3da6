import TupleLang.Expr.Node
import TupleLang.Token

/-!
# Frames

Operator precedence parsing. A frame holds the operands read so far and the operators that wait for
their last operand. A binary operator first completes every waiting operator that binds at least as
tightly; an operator in front of its operand just waits.

Operators of several tokens are resolved by reading their inner operands in frames of their own,
which stop at the sub-token expected next. Where several operators begin alike, the candidates are
narrowed after every inner operand. A candidate that has come to its end wins when none of the
longer ones goes on; the operand read in vain is given up and read again by precedence.
-/

namespace TupleLang

/-- An operator that waits for its last operand. -/
inductive Waiting where
  /-- An operator of one token. -/
  | single (op : Operator)
  /-- An operator of several tokens with its inner operands. -/
  | tail (op : Operator) (inner : List Node)

/-- The operator that waits. -/
def Waiting.op : Waiting → Operator
  | single op => op
  | tail op _ => op

/-- The operands that an operator already has. -/
def Waiting.inner : Waiting → List Node
  | single _ => []
  | tail _ inner => inner

/-- What is open in a frame. -/
inductive Pending where
  /-- A parenthesis. -/
  | opening
  /-- An operator. -/
  | waiting (w : Waiting)

/-- The operands that something open already has. -/
def Pending.inner : Pending → List Node
  | opening => []
  | waiting w => w.inner

/-- An expression under construction. -/
structure Frame where
  /-- Operands, the last one first. -/
  operands : List Node := []
  /-- What is open, the innermost first. -/
  pending : List Pending := []
  /-- Whether the last thing read was an operand. -/
  lastOperand : Bool := false
  /-- Words that end the frame. -/
  terminators : List String := []

namespace Frame

/-- The nodes of a frame, in the order in which they are given up. -/
def held (f : Frame) : List Node := f.operands.reverse ++ f.pending.reverse.flatMap Pending.inner

/-- Whether a parenthesis is open. -/
def hasOpen (f : Frame) : Bool :=
  f.pending.any fun
    | .opening => true
    | .waiting _ => false

/-- Whether a token is one of the words that end the frame. -/
def isTerminator (f : Frame) (token : Token) : Bool := f.terminators.any token.isWord

/-- The frame with one more operand. -/
def pushOperand (f : Frame) (node : Node) : Frame :=
  { f with operands := node :: f.operands, lastOperand := true }

/-- The frame with one more operator waiting for its last operand. -/
def await (f : Frame) (w : Waiting) : Frame :=
  { f with pending := .waiting w :: f.pending, lastOperand := false }

/-- Whether the frame ends in front of a token. -/
def endsAt (f : Frame) (token : Token) : Bool :=
  token.kind.endsStatement
    -- inside a parenthesis they do not end the frame
    || (!f.hasOpen && (token.kind == .comma || token.kind == .rparen || f.isTerminator token))

/-! ## Operators of several tokens -/

/-- The sub-token of an operator at a step. -/
def subToken? (step : Nat) (op : Operator) : Option SubToken := op.sequence[step]?

/-- Whether an operator goes on with an operand and then a sub-token. -/
def expectsOperand (step : Nat) (op : Operator) : Bool := (subToken? step op).any (!·.leading)

/-- Whether an operator goes on with the given token. -/
def goesOnWith (step : Nat) (token : Token) (op : Operator) : Bool :=
  (subToken? step op).any fun sub => token.isWord sub.text

/-! ## Operators of one token -/

/-- The complaint about an operator that cannot stand where it does. -/
def misplacedMessage (text : String) (leading : Bool) : String :=
  let elsewhere :=
    (Operator.ofSpelling? text !leading).isSome
      || !(Operator.sequencesStarting text !leading).isEmpty
  if !elsewhere then s!"unexpected `{text}`"
  else if leading then s!"missing left operand for `{text}`"
  else s!"`{text}` cannot follow an operand"

end Frame

end TupleLang
