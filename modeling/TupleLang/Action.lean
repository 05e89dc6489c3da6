import TupleLang.Error
import TupleLang.Signature

/-!
# Actions

An action is a signature together with a body. Bodies are data: the computations of the language's
own actions on native values, the few that concern control and types, the construction of plain
tuples, and bodies that the host supplies and runs, known here by a label.
-/

namespace TupleLang

/-- How control goes on after an action. -/
inductive Signal where
  | normal
  /-- Leave the enclosing loop. -/
  | breaks
  /-- Go on with the next round of the enclosing loop. -/
  | continues
  /-- Leave the expression with a value. -/
  | returns
  /-- A condition was raised; the value names it. -/
  | raises
  deriving DecidableEq, Repr

/-- The word for a signal. -/
def Signal.label : Signal → String
  | .normal => "normal"
  | .breaks => "break"
  | .continues => "continue"
  | .returns => "return"
  | .raises => "raise"

/-- Whether control goes on normally. -/
def Signal.isNormal : Signal → Bool
  | .normal => true
  | _ => false

/-- Conditions that the language's own actions raise. -/
inductive Condition where
  /-- Integer division or remainder by zero. -/
  | divisionByZero
  /-- An integer result that does not fit its type. -/
  | integerOverflow
  /-- A shift by a negative amount or by at least the width. -/
  | bitIndexOutOfRange
  deriving DecidableEq, Repr

/-- The name under which a condition is raised. -/
def Condition.name : Condition → String
  | .divisionByZero => "division_by_zero"
  | .integerOverflow => "integer_overflow"
  | .bitIndexOutOfRange => "bit_index_out_of_range"

/-- What an action does. -/
inductive Body where
  /-- Compute a native value of logical type `returns` from one operand. -/
  | unary (a r : Native) (returns : String) (f : a.Carrier → Except Condition r.Carrier)
  /-- Compute a native value of logical type `returns` from two operands. -/
  | binary (a b r : Native) (returns : String)
      (f : a.Carrier → b.Carrier → Except Condition r.Carrier)
  /-- Compute a native value from two operands and store it in the first. -/
  | compound (a b : Native) (f : a.Carrier → b.Carrier → Except Condition a.Carrier)
  /-- Copy the second operand into the first. -/
  | assign
  /-- Pick the second or the third operand by the first. -/
  | choose
  /-- Test whether the type of the first operand fits the descriptor in the second. -/
  | typeTest (expected : Bool)
  /-- Leave the expression with the operand. -/
  | returns
  /-- Raise the condition named by the operand. -/
  | raises
  /-- Signal only. -/
  | signal (s : Signal)
  /-- The literal text of the operand; a text stays as it is. -/
  | textOf
  /-- Number of elements of the operand. -/
  | length
  /-- Type of the operand. -/
  | typeOf
  /-- Build a plain tuple with these names from as many operands. -/
  | construct (names : List (Option String))
  /-- A body that the host supplies. -/
  | host (label : String)

/-- A callable known by its signature. -/
structure Action where
  signature : Signature
  body : Body

namespace Action

/-- The action's name. -/
def name (a : Action) : String := a.signature.name

/-- A short description of an action by its signature. -/
def describe (a : Action) : String := s!"Action({a.signature.text})"

/-- The constructor of the tree type `type` called `name`: it takes the type's children as arguments
and builds a plain tuple whose attributes have their names. -/
def constructorFor (name : String) (type : TypeDesc) : Action where
  signature := .constructor name type type
  body := .construct (type.fields.map (·.1))

end Action

/-- The type of the value that names a raised condition. -/
def raisedType : TypeDesc := .leaf "name"

end TupleLang
