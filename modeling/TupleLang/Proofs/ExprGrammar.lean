import TupleLang.Proofs.DirectParser
import TupleLang.Proofs.Grammar

/-!
# Reading expressions from lexemes

The grammar of expressions on its own: what the parser of expressions does with lexemes and trees,
without a store and without places. Of the scope in which an expression is parsed only three things
matter: which names are variables, which names mean types, and which actions there are.
-/

namespace TupleLang

/-- An expression apart from the store that keeps its literals. -/
inductive Tree where
  /-- A literal. -/
  | literal (d : Datum)
  /-- A variable of the given name. -/
  | named (cell : Cell) (label : String)
  /-- A bound operator with its operands. -/
  | apply (binding : Binding) (children : List Tree)

/-- Type of the tree's value. -/
def Tree.type : Tree → TypeDesc
  | literal d => d.type
  | named cell _ => cell.type
  | apply binding _ => binding.type

/-- What an expression depends on of the scope in which it is parsed. -/
structure Env where
  /-- The cell that a variable stands for. -/
  cell? : String → Option Cell
  /-- The type that a name means. -/
  type? : String → Option TypeDesc
  /-- Actions that accept an owner and arguments of the given types. -/
  candidates : Operator → String → TypeDesc → TypeDesc → List Action

/-- What is seen from a scope. -/
def Store.env (s : Store) (scope : TupleId) : Env where
  cell? := s.variableCell? scope
  type? := s.lookupType scope
  candidates op name owner args := s.candidates scope ⟨op, name, [], []⟩ owner args

namespace Env

variable (Γ : Env)

/-! ## Binding -/

/-- The type that the last operand of a type test means, if it is a name. -/
def typeOperand? (children : List Tree) : Option TypeDesc :=
  match children.getLast? with
  | some (.literal (.scalar type (.name name))) =>
    if Native.name.accepts type then Γ.type? name else none
  | _ => none

/-- In a type test, a bare name that means a type becomes that type. -/
def coerce (op : Operator) (children : List Tree) : List Tree :=
  if op = .is ∨ op = .isNot then
    match Γ.typeOperand? children with
    | some type => children.dropLast ++ [.literal (.scalar "type" (.type type))]
    | none => children
  else children

/-- Types of owner and arguments, of which `names` are the names. -/
def operandTypes (op : Operator) (children : List Tree) (names : List (Option String)) :
    TypeDesc × TypeDesc :=
  if op = .call then
    (.void, .tree (children.mapIdx fun i child => ((names[i]?).getD none, child.type)))
  else
    match children with
    | owner :: rest => (owner.type, .ofList (rest.map Tree.type))
    | [] => (.void, .tree [])

/-- The operands of a call in the order in which the action declares them. -/
def declaredOrder (children : List Tree) (names : List (Option String)) (positions : List Nat) :
    List Tree × List (Option String) :=
  let slots := positions.zip (children.zip names)
  let ordered := (List.range slots.length).filterMap fun p => slots.lookup p
  (ordered.map (·.1), ordered.map (·.2))

/-- The tree of an operator or a call that is bound to `action`. -/
def bound (op : Operator) (name : String) (children : List Tree) (names : List (Option String))
    (action : Action) (owner args : TypeDesc) : Tree :=
  let (children, argNames) :=
    if op = .call ∧ names.any Option.isSome then
      match action.signature.declaredPositions args with
      | some positions => declaredOrder children names positions
      | none => (children, names)
    else (children, names)
  .apply { op, name, action, type := action.signature.resolveReturn owner args, argNames } children

/-- What a relational operator without an action of its own is made of. -/
def comparison? (op : Operator) (owner args : TypeDesc) :
    Option (Action × TypeDesc × Action × TypeDesc) :=
  match Choice.mostSpecific (Γ.candidates .cmp Operator.cmp.actionName owner args) with
  | .one compare =>
    let ordering := compare.signature.resolveReturn owner args
    let zero := TypeDesc.leaves ["int"]
    match Choice.mostSpecific (Γ.candidates op op.actionName ordering zero) with
    | .one relation =>
      some (compare, ordering, relation, relation.signature.resolveReturn ordering zero)
    | _ => none
  | _ => none

/-- A relational operator by way of the three-way comparison. -/
def compared (op : Operator) (children : List Tree) :
    Action × TypeDesc × Action × TypeDesc → Tree
  | (compare, ordering, relation, returns) =>
    .apply { op, name := op.actionName, action := relation, type := returns }
      [.apply { op := .cmp, name := Operator.cmp.actionName, action := compare, type := ordering }
          children,
        .literal (.scalar "int" (.int 0))]

/-- Bind an operator or a call, of which `names` are the names of the arguments. -/
def bind (op : Operator) (name : String) (children : List Tree) (names : List (Option String)) :
    Option Tree :=
  let children := Γ.coerce op children
  let (owner, args) := operandTypes op children names
  match Choice.mostSpecific (Γ.candidates op name owner args) with
  | .one action => some (bound op name children names action owner args)
  | .ambiguous _ => none
  | .nothing =>
    if op.isRelational then (Γ.comparison? op owner args).map (compared op children) else none

end Env

/-! ## Frames -/

/-- An operator that waits for its last operand. -/
inductive TreeWaiting where
  /-- An operator of one token. -/
  | single (op : Operator)
  /-- An operator of several tokens with its inner operands. -/
  | tail (op : Operator) (inner : List Tree)

/-- The operator that waits. -/
def TreeWaiting.op : TreeWaiting → Operator
  | single op => op
  | tail op _ => op

/-- What is open in a frame. -/
inductive TreePending where
  /-- A parenthesis. -/
  | opening
  /-- An operator. -/
  | waiting (w : TreeWaiting)

/-- A tree under construction. -/
structure TreeFrame where
  /-- Operands, the last one first. -/
  operands : List Tree := []
  /-- What is open, the innermost first. -/
  pending : List TreePending := []
  /-- Whether the last thing read was an operand. -/
  lastOperand : Bool := false

namespace TreeFrame

/-- Whether a parenthesis is open. -/
def hasOpen (f : TreeFrame) : Bool :=
  f.pending.any fun
    | .opening => true
    | .waiting _ => false

/-- The frame with one more operand. -/
def push (f : TreeFrame) (t : Tree) : TreeFrame :=
  { f with operands := t :: f.operands, lastOperand := true }

/-- The frame with one more operator waiting for its last operand. -/
def await (f : TreeFrame) (w : TreeWaiting) : TreeFrame :=
  { f with pending := .waiting w :: f.pending, lastOperand := false }

/-- Whether the frame ends in front of a lexeme. -/
def endsAt (ts : List String) (f : TreeFrame) (l : Lexeme) : Bool :=
  l.kind.endsStatement
    || (!f.hasOpen && (l.kind == .comma || l.kind == .rparen || ts.any l.isWord))

end TreeFrame

namespace Env

variable (Γ : Env)

/-! ## Completing operators -/

/-- Complete an operator. -/
def reduce (operands : List Tree) : TreeWaiting → Option (List Tree)
  | .single op =>
    if operands.length < op.arity then none
    else
      (Γ.bind op op.actionName (operands.take op.arity).reverse []).map
        (· :: operands.drop op.arity)
  | .tail op inner =>
    match operands with
    | [] => none
    | trailing :: operands => (Γ.bind op op.actionName (inner ++ [trailing]) []).map (· :: operands)

/-- Complete the operators in front that bind at least as tightly as `precedence`. -/
def reduceWhile (precedence : Nat) : (operands : List Tree) → (pending : List TreePending) →
    Option (List Tree × List TreePending)
  | operands, .waiting w :: rest =>
    if precedence ≤ w.op.stackPrecedence then
      (Γ.reduce operands w).bind fun operands => reduceWhile precedence operands rest
    else some (operands, .waiting w :: rest)
  | operands, pending => some (operands, pending)

/-- Complete the operators in front of the innermost open parenthesis, and close it. -/
def closeGroup : (operands : List Tree) → (pending : List TreePending) →
    Option (List Tree × List TreePending)
  | operands, .opening :: rest => some (operands, rest)
  | operands, .waiting w :: rest =>
    (Γ.reduce operands w).bind fun operands => closeGroup operands rest
  | _, [] => none

/-- Complete all operators. -/
def closeAll : (operands : List Tree) → (pending : List TreePending) → Option (List Tree)
  | _, .opening :: _ => none
  | operands, .waiting w :: rest =>
    (Γ.reduce operands w).bind fun operands => closeAll operands rest
  | operands, [] => some operands

/-- The tree of a frame that has come to its end. -/
def finish (f : TreeFrame) : Option Tree :=
  if f.lastOperand then
    (Γ.closeAll f.operands f.pending).bind fun
      | [t] => some t
      | _ => none
  else none

end Env

namespace Grammar

/-! ## Operators of several tokens -/

section Inner

variable (inner : List String → Scan Tree) (ts : List String)

/-- A conditional behind `if`. What stands behind `then` is an inner operand if `else` follows, and
otherwise the last one, which is still to be read. -/
def conditional : Scan (Operator × List Tree) := fun ls =>
  (inner ("then" :: "then" :: ts) ls).bind fun condition =>
    if (ahead condition.2 0).isWord "then" then
      (inner ("else" :: ts) (condition.2.drop 1)).bind fun branch =>
        if (ahead branch.2 0).isWord "else" then
          some ((.ifThenElse, [condition.1, branch.1]), branch.2.drop 1)
        else some ((.ifThen, [condition.1]), condition.2.drop 1)
    else none

/-- A selection behind `?`. -/
def selection (left : Tree) : Scan (Operator × List Tree) := fun ls =>
  (inner (":" :: ts) ls).bind fun branch =>
    if (ahead branch.2 0).isWord ":" then some ((.select, [left, branch.1]), branch.2.drop 1)
    else none

/-- A type test behind `is`. -/
def typeTest (left : Tree) : Scan (Operator × List Tree) := fun ls =>
  if (ahead ls 0).isWord "not" then some ((.isNot, [left]), ls.drop 1)
  else some ((.is, [left]), ls)

/-- Arguments of a call up to its closing parenthesis, behind those in `args`. -/
def callArgs : (rounds : Nat) → (args : List Tree) → (names : List (Option String)) →
    Scan (List Tree × List (Option String))
  | 0, _, _, _ => none
  | rounds + 1, args, names, ls =>
    (name ["="] ls).bind fun name => (inner [] name.2).bind fun arg =>
      let args := args ++ [arg.1]
      let names := names ++ [name.1]
      match (ahead arg.2 0).kind with
      | .comma => callArgs rounds args names (arg.2.drop 1)
      | .rparen => some ((args, names), arg.2.drop 1)
      | _ => none

end Inner

section Steps

variable (Γ : Env) (inner : List String → Scan Tree) (ts : List String) (f : TreeFrame)

/-- Take the left operand of an operator of several tokens, and resolve the operator. -/
def resolveAfter (precedence : Nat) (resolve : Tree → Scan (Operator × List Tree)) :
    Scan TreeFrame := fun ls =>
  (Γ.reduceWhile precedence f.operands f.pending).bind fun reduced =>
    match reduced.1 with
    | left :: operands =>
      (resolve left (ls.drop 1)).map fun r =>
        (TreeFrame.await { operands, pending := reduced.2 } (.tail r.1.1 r.1.2), r.2)
    | [] => none

/-- An operator in front of its operands. -/
def prefixed : Scan TreeFrame := fun ls =>
  let text := (ahead ls 0).text
  if text = "if" then
    (conditional inner ts (ls.drop 1)).map fun r => (f.await (.tail r.1.1 r.1.2), r.2)
  else
    (Operator.ofSpelling? text true).bind fun op =>
      if op.arity = 0 then (Γ.bind op op.actionName [] []).map fun t => (f.push t, ls.drop 1)
      else some (f.await (.single op), ls.drop 1)

/-- An operator behind its first operand. -/
def infixed : Scan TreeFrame := fun ls =>
  let text := (ahead ls 0).text
  if text = "?" then
    resolveAfter Γ f Operator.select.inputPrecedence (selection inner ts) ls
  else if text = "is" then resolveAfter Γ f Operator.is.inputPrecedence typeTest ls
  else
    (Operator.ofSpelling? text false).bind fun op =>
      (Γ.reduceWhile op.inputPrecedence f.operands f.pending).map fun reduced =>
        (TreeFrame.await { operands := reduced.1, pending := reduced.2 } (.single op), ls.drop 1)

/-- A call. -/
def call : Scan Tree := fun ls =>
  let name := (ahead ls 0).text
  let rest := ls.drop 2
  (if (ahead rest 0).kind = .rparen then some (([], []), rest.drop 1)
    else callArgs inner (rest.length + 1) [] [] rest).bind fun args =>
      (Γ.bind .call name args.1.1 args.1.2).map (·, args.2)

/-- A bare identifier: a variable, or else a literal name. -/
def identifier (name : String) : Tree :=
  match Γ.cell? name with
  | some cell => .named cell name
  | none => .literal (.scalar "name" (.name name))

/-- An operand that begins with an identifier or is a literal. -/
def operand (levels : Nat) : Scan Tree := fun ls =>
  let l := ahead ls 0
  match l.kind with
  | .ident =>
    if (ahead ls 1).kind = .lparen then call Γ inner ls else some (identifier Γ l.text, ls.drop 1)
  | .plainOpen | .typeOpen => (read levels ls).map fun d => (.literal d.1, d.2)
  | kind => if kind.isLiteral then (scalar l false).map fun d => (.literal d, ls.drop 1) else none

/-- Take in one lexeme that does not end the frame, with what belongs to it. -/
def step (levels : Nat) : Scan TreeFrame := fun ls =>
  match (ahead ls 0).kind with
  | .rparen =>
    if f.lastOperand then
      (Γ.closeGroup f.operands f.pending).map fun r => (⟨r.1, r.2, true⟩, ls.drop 1)
    else none
  | .lparen =>
    if f.lastOperand then none
    else some ({ f with pending := .opening :: f.pending }, ls.drop 1)
  | .symbol | .keyword =>
    if f.lastOperand then infixed Γ inner ts f ls else prefixed Γ inner ts f ls
  | _ =>
    if f.lastOperand then none
    else (operand Γ inner levels ls).map fun r => (f.push r.1, r.2)

end Steps

/-- Take in lexemes to the end of the frame. -/
def run (Γ : Env) (levels : Nat) (inner : List String → Scan Tree) (ts : List String) :
    (rounds : Nat) → TreeFrame → Scan Tree
  | 0, _, _ => none
  | rounds + 1, f, ls =>
    if f.endsAt ts (ahead ls 0) then (Γ.finish f).map (·, ls)
    else (step Γ inner ts f levels ls).bind fun r => run Γ levels inner ts rounds r.1 r.2

/-- One expression up to the end of the statement, an unmatched comma or parenthesis, or one of the
words `ts`. -/
def frame (Γ : Env) : (levels : Nat) → (ts : List String) → Scan Tree
  | 0, _, _ => none
  | levels + 1, ts, ls => run Γ levels (frame Γ levels) ts (ls.length + 1) {} ls

/-- The statements up to the end of input. -/
def statements (Γ : Env) (levels : Nat) : (rounds : Nat) → List Lexeme → Option (List Tree)
  | 0, _ => none
  | rounds + 1, ls =>
    if (ahead ls 0).kind = .eof then some []
    else if (ahead ls 0).kind = .semicolon then statements Γ levels rounds (ls.drop 1)
    else
      (frame Γ levels [] ls).bind fun r =>
        if (ahead r.2 0).kind.endsStatement then
          (statements Γ levels rounds r.2).map (r.1 :: ·)
        else none

end Grammar

end TupleLang
