/-!
# Operators

Every operator has a number of operands, an *input precedence*, used while it is the next token,
and a *stack precedence*, used once it waits for its right operand. The parser completes waiting
operators while their stack precedence is at least the input precedence of the operator to come,
so an operator whose input precedence is the greater of the two associates to the right.

Operators spelled with several tokens (`if .. then .. else`, `.. ? .. : ..`, `.. is not ..`) list
their sub-tokens. A sub-token is *leading* when no operand stands before it.
-/

namespace TupleLang

/-- The operators of the expression language. -/
inductive Operator where
  | assign | addAssign | subAssign | mulAssign | divAssign | modAssign
  | or | and | bitOr | bitXor | bitAnd
  | eq | ne | lt | le | gt | ge | cmp
  | shl | shr | add | sub | mul | div | mod
  | neg | not | bitNot | returns | raises
  | breaks | continues
  | ifThen | ifThenElse | select | is | isNot
  | call
  deriving DecidableEq, Repr

/-- One token of an operator spelled with several tokens. -/
structure SubToken where
  /-- Spelling of the token. -/
  text : String
  /-- Whether the token is expected with no operand before it. -/
  leading : Bool
  deriving DecidableEq, Repr

namespace Operator

/-- Every operator, in the order of declaration. -/
def all : List Operator :=
  [assign, addAssign, subAssign, mulAssign, divAssign, modAssign, or, and, bitOr, bitXor, bitAnd,
   eq, ne, lt, le, gt, ge, cmp, shl, shr, add, sub, mul, div, mod, neg, not, bitNot, returns,
   raises, breaks, continues, ifThen, ifThenElse, select, is, isNot, call]

/-- Number of operands. A call takes any number and counts as zero here. -/
def arity : Operator → Nat
  | breaks | continues | call => 0
  | neg | not | bitNot | returns | raises => 1
  | ifThenElse | select => 3
  | _ => 2

/-- Precedence while the operator is the next token. -/
def inputPrecedence : Operator → Nat
  | assign | addAssign | subAssign | mulAssign | divAssign | modAssign => 10
  | select => 15
  | or => 20
  | and => 25
  | bitOr => 30
  | bitXor => 32
  | bitAnd => 34
  | eq | ne | is | isNot => 40
  | lt | le | gt | ge | cmp => 45
  | shl | shr => 50
  | add | sub => 55
  | mul | div | mod => 60
  | neg | not | bitNot | returns | raises | ifThen | ifThenElse => 90
  | breaks | continues | call => 100

/-- Precedence while the operator waits for its last operand: everything that binds tighter
becomes part of that operand. -/
def stackPrecedence : Operator → Nat
  -- lower than as the next token, so that assignments group to the right
  | assign | addAssign | subAssign | mulAssign | divAssign | modAssign => 9
  | select => 14
  | ifThen | ifThenElse => 8
  | returns | raises => 5
  -- tighter than every operator between two operands
  | neg | not | bitNot => 80
  | other => other.inputPrecedence

/-- Canonical spelling. -/
def spelling : Operator → String
  | assign => "="
  | addAssign => "+="
  | subAssign => "-="
  | mulAssign => "*="
  | divAssign => "/="
  | modAssign => "%="
  | or => "||"
  | and => "&&"
  | bitOr => "|"
  | bitXor => "^"
  | bitAnd => "&"
  | eq => "=="
  | ne => "!="
  | lt => "<"
  | le => "<="
  | gt => ">"
  | ge => ">="
  | cmp => "<=>"
  | shl => "<<"
  | shr => ">>"
  | add => "+"
  | sub | neg => "-"
  | mul => "*"
  | div => "/"
  | mod => "%"
  | not => "!"
  | bitNot => "~"
  | returns => "return"
  | raises => "raise"
  | breaks => "break"
  | continues => "continue"
  | ifThen | ifThenElse => "if"
  | select => "?"
  | is => "is"
  | isNot => "is not"
  | call => "()"

/-- Name of the actions that implement the operator. -/
def actionName : Operator → String
  | ifThen | ifThenElse | select => "if"
  | other => other.spelling

/-- Sub-tokens of an operator spelled with several tokens; empty for all others. -/
def sequence : Operator → List SubToken
  | ifThen => [⟨"if", true⟩, ⟨"then", false⟩]
  | ifThenElse => [⟨"if", true⟩, ⟨"then", false⟩, ⟨"else", false⟩]
  | select => [⟨"?", false⟩, ⟨":", false⟩]
  | is => [⟨"is", false⟩]
  | isNot => [⟨"is", false⟩, ⟨"not", true⟩]
  | _ => []

/-- The operators with a sequence of sub-tokens. -/
def sequences : List Operator := [ifThen, ifThenElse, select, is, isNot]

/-- The operator spelled with the single token `spelling`; `leading` tells that no operand stands
before it, which separates unary from binary minus. -/
def ofSpelling? (spelling : String) (leading : Bool) : Option Operator :=
  if leading then
    match spelling with
    | "-" => some neg
    | "!" | "not" => some not
    | "~" => some bitNot
    | "return" => some returns
    | "raise" => some raises
    | "break" => some breaks
    | "continue" => some continues
    | _ => none
  else
    match spelling with
    | "=" => some assign
    | "+=" => some addAssign
    | "-=" => some subAssign
    | "*=" => some mulAssign
    | "/=" => some divAssign
    | "%=" => some modAssign
    | "||" => some or
    | "&&" => some and
    | "|" => some bitOr
    | "^" => some bitXor
    | "&" => some bitAnd
    | "==" => some eq
    | "!=" => some ne
    | "<" => some lt
    | "<=" => some le
    | ">" => some gt
    | ">=" => some ge
    | "<=>" => some cmp
    | "<<" => some shl
    | ">>" => some shr
    | "+" => some add
    | "-" => some sub
    | "*" => some mul
    | "/" => some div
    | "%" => some mod
    | _ => none

/-- The operators whose first sub-token is `spelling` in the given position. -/
def sequencesStarting (spelling : String) (leading : Bool) : List Operator :=
  sequences.filter fun op => op.sequence.head? == some ⟨spelling, leading⟩

/-- Whether the operator is one of `< <= > >= == !=`. -/
def isRelational : Operator → Bool
  | eq | ne | lt | le | gt | ge => true
  | _ => false

/-- Whether the operator stands in front of its only operand. -/
def isUnary : Operator → Bool
  | neg | not | bitNot | returns | raises => true
  | _ => false

/-- Whether only the chosen branch of the operator is evaluated. -/
def isConditional : Operator → Bool
  | ifThen | ifThenElse | select => true
  | _ => false

end Operator

end TupleLang
