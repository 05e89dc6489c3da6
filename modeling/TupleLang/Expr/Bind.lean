import TupleLang.Expr.Node
import TupleLang.Store.Registry

/-!
# Binding

An operator with its operands is bound to an action as soon as it is complete. The types of the
operands are an owner and arguments; of the actions at the outermost scope that accept them, the
one that refines all others is chosen. A relational operator without an action is made from the
three-way comparison: `a < b` becomes `(a <=> b) < 0`.
-/

namespace TupleLang

/-- An operator with its operands, not yet bound. -/
structure Draft where
  op : Operator
  name : String
  children : List Node
  argNames : List (Option String) := []

/-- An operator that is no call. -/
def Draft.ofOperator (op : Operator) (children : List Node) : Draft :=
  { op, name := op.actionName, children }

/-- Owner and arguments of a draft, by their types. A call has no owner and may name its arguments;
otherwise the first operand is the owner. -/
def Draft.operandTypes (draft : Draft) : TypeDesc × TypeDesc :=
  if draft.op = .call then
    let field (i : Nat) (child : Node) : TypeDesc.Field :=
      ((draft.argNames[i]?).getD none, child.type)
    (.void, .tree (draft.children.mapIdx field))
  else
    match draft.children with
    | owner :: rest => (owner.type, .ofList (rest.map Node.type))
    | [] => (.void, .tree [])

/-- The outcome of looking for the best action. -/
inductive Choice where
  | nothing
  | one (action : Action)
  | ambiguous (count : Nat)

/-- The only candidate, or the only one that refines all of them. -/
def Choice.mostSpecific : List Action → Choice
  | [] => .nothing
  | [only] => .one only
  | candidates =>
    match candidates.filter fun c => candidates.all fun d => c.signature.refines d.signature with
    | [best] => .one best
    | _ => .ambiguous candidates.length

namespace Store

/-- Operators of a name that accept the given owner and arguments. -/
def operators (s : Store) (scope : TupleId) (name : String) (owner args : TypeDesc) : List Action :=
  s.actionsOf Signature.operatorCategory scope name owner args

/-- Actions that a draft may be bound to. The name of a type calls its constructors, and any other
name, as well as one without a fitting constructor, calls functions. -/
def candidates (s : Store) (scope : TupleId) (draft : Draft) (owner args : TypeDesc) :
    List Action :=
  if draft.op ≠ .call then s.operators scope draft.name owner args
  else
    let constructors :=
      if s.isType scope draft.name then s.constructors scope draft.name args else []
    if constructors.isEmpty then
      s.actionsOf Signature.functionCategory scope draft.name owner args
    else constructors

/-- What a relational operator without an action of its own is made of: the three-way comparison of
the operands with its result type, and the relation between that and zero with its result type. -/
def comparison? (s : Store) (scope : TupleId) (draft : Draft) (owner args : TypeDesc) :
    Option (Action × TypeDesc × Action × TypeDesc) :=
  match Choice.mostSpecific (s.operators scope Operator.cmp.actionName owner args) with
  | .one compare =>
    let ordering := compare.signature.resolveReturn owner args
    -- the result of the comparison is related to an `int`
    let zero := TypeDesc.leaves ["int"]
    match Choice.mostSpecific (s.operators scope draft.name ordering zero) with
    | .one relation =>
      some (compare, ordering, relation, relation.signature.resolveReturn ordering zero)
    | _ => none
  | _ => none

end Store

namespace Draft

/-- The operands of a call in the order in which the action declares them: the operand that binds to
the first position, then that of the second, and so on. -/
def declaredOrder (draft : Draft) (positions : List Nat) : List Node × List (Option String) :=
  let slots := positions.zip (draft.children.zip draft.argNames)
  let ordered := (List.range slots.length).filterMap fun p => slots.lookup p
  (ordered.map (·.1), ordered.map (·.2))

/-- The node of a draft that is bound to `action`. Named arguments of a call are put in the order of
declaration. -/
def bound (draft : Draft) (action : Action) (owner args : TypeDesc) : Node :=
  let (children, argNames) :=
    if draft.op = .call ∧ draft.argNames.any Option.isSome then
      match action.signature.declaredPositions args with
      | some positions => draft.declaredOrder positions
      | none => (draft.children, draft.argNames)
    else (draft.children, draft.argNames)
  .apply
    { op := draft.op
      name := draft.name
      action
      type := action.signature.resolveReturn owner args
      argNames }
    children

/-- The last operand of a type test, if it is a literal name that means a type in the scope. -/
def typeOperand? (s : Store) (scope : TupleId) (draft : Draft) : Option TypeDesc :=
  match draft.children.getLast? with
  | some (.value cell none) =>
    match cell.read s.heap .name with
    | .ok name => s.lookupType scope name
    | .error _ => none
  | _ => none

/-- The complaint that nothing accepts the operands. -/
def noActionMessage (draft : Draft) (owner args : TypeDesc) : String :=
  if draft.op = .call then s!"no function `{draft.name}` accepting {args.text}"
  else s!"no action `{draft.name}` for owner {owner.text} and arguments {args.text}"

/-- The complaint that several actions fit equally well. -/
def ambiguousMessage (draft : Draft) (owner args : TypeDesc) (count : Nat) : String :=
  s!"ambiguous `{draft.name}` for owner {owner.text} and arguments {args.text}: " ++
    s!"{count} signatures match"

end Draft

end TupleLang
