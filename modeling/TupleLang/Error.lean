import TupleLang.Value.Native

/-!
# Errors

What can go wrong outside the language itself: conditions that a program may expect, such as a
division by zero, are raised as values and are no errors. Each error names its cause; the wording is
in `Error.message`.
-/

namespace TupleLang

/-- What was looked for and is not there. -/
inductive Missing where
  /-- An attribute of a tuple, by name. -/
  | attribute (name : String)
  /-- An attribute of a tuple with `size` attributes, by position. -/
  | position (index : Int) (size : Nat)
  /-- A tuple that is no longer, or never was, in the arena. -/
  | tuple (id : TupleId)
  /-- A child of a type descriptor, by name. -/
  | member (name : String) (type : TypeDesc)
  /-- The body of an action that the host does not supply. -/
  | body (label : String)
  deriving DecidableEq

/-- The text of a missing thing. -/
def Missing.text : Missing → String
  | .attribute name => s!"attribute `{name}`"
  | .position index size => s!"attribute #{index} (tuple has {size})"
  | .tuple id => id.text
  | .member name type => s!"type member `{name}` in {type.text}"
  | .body label => s!"action body `{label}`"

/-- What was refused. -/
inductive Denied where
  | add
  | remove
  | modify
  | registerTypes
  | registerActions
  /-- Storing a value of this type. -/
  | store (type : TypeDesc)
  /-- Mapping a native type under a hint that does not apply to it. -/
  | map (native : Native) (hint : Hint)
  deriving DecidableEq

/-- The text of a refused operation. -/
def Denied.text : Denied → String
  | .add => "add"
  | .remove => "remove"
  | .modify => "modify"
  | .registerTypes => "register types"
  | .registerActions => "register actions"
  | .store type => s!"store a value of type {type.text}"
  | .map native hint => s!"map {native.hostName} with hint {hint.text}"

/-- Structural errors. -/
inductive Error where
  /-- A value of one type was used where another was required. -/
  | incompatibleType (expected got : TypeDesc)
  /-- A tuple of kind `kind` does not permit the operation. -/
  | accessDenied (operation : Denied) (kind : String)
  /-- A cell of type `actual` was read as something else. -/
  | wrongType (requested : String) (actual : TypeDesc)
  | notFound (what : Missing)
  /-- A name that must be unique was used twice. -/
  | duplicateName (name : String)
  /-- Parsing reported these messages. -/
  | invalidExpression (messages : List String)
  /-- An action took more values than there were. -/
  | stackUnderflow (action : String)
  /-- Nesting went past the limit. -/
  | depthExceeded (depth limit : Nat)
  deriving DecidableEq

/-- The word for the kind of an error. -/
def Error.label : Error → String
  | .incompatibleType .. => "IncompatibleType"
  | .accessDenied .. => "AccessDenied"
  | .wrongType .. => "WrongType"
  | .notFound .. => "NotFound"
  | .duplicateName .. => "DuplicateName"
  | .invalidExpression .. => "InvalidExpression"
  | .stackUnderflow .. => "StackUnderflow"
  | .depthExceeded .. => "DepthExceeded"

/-- The wording of an error. -/
def Error.message : Error → String
  | .incompatibleType expected got =>
    s!"Incompatible type: expected {expected.text}, got {got.text}"
  | .accessDenied operation kind => s!"Access denied: cannot {operation.text} in {kind} tuple"
  | .wrongType requested actual => s!"Wrong type: cannot access {actual.text} as {requested}"
  | .notFound what => s!"Not found: {what.text}"
  | .duplicateName name => s!"Duplicate name: {name}"
  | .invalidExpression messages => "Invalid expression: " ++ "; ".intercalate messages
  | .stackUnderflow action => s!"Stack underflow in action `{action}`"
  | .depthExceeded depth limit => s!"Nesting depth {depth} exceeds limit {limit}"

namespace TypeDesc

/-- Append a named child; the name must be new at this level. -/
def pushNamed (t : TypeDesc) (name : String) (child : TypeDesc) : Except Error TypeDesc :=
  match t.pushNamed? name child with
  | some t => .ok t
  | none => .error (.duplicateName name)

/-- Type of the child called `name`. -/
def member (t : TypeDesc) (name : String) : Except Error TypeDesc :=
  match t.member? name with
  | some child => .ok child
  | none => .error (.notFound (.member name t))

end TypeDesc

end TupleLang
