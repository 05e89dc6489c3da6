import TupleLang.Expr.Bind
import TupleLang.Expr.Frame
import TupleLang.Expr.Parser.Value
import TupleLang.Store.Scope

/-!
# Statements from tokens

The parser completes and binds operators on a frame, reads the inner operands of operators of
several tokens and the arguments of calls in frames of their own, and takes one statement after the
other. A part that works on a frame gives the frame back together with a flag that tells whether it
went well; a frame with which it did not go well is abandoned.
-/

namespace TupleLang

namespace Parser

/-- Give up a frame, and go on behind the statement. -/
def abandon (f : Frame) : StateM Parser (Option Node) := do
  giveUp f.held
  skipStatement
  return none

/-! ## Binding -/

/-- In a type test, a bare name that means a type becomes that type. -/
def coerceTypeOperand (draft : Draft) : StateM Parser Draft := do
  if draft.op = .is ∨ draft.op = .isNot then
    let p ← get
    match draft.typeOperand? p.store p.scope with
    | some type =>
      let cell ← newCell (Cell.ofNative · .type type)
      return { draft with children := draft.children.dropLast ++ [.literal cell] }
    | none => return draft
  else return draft

/-- A relational operator by way of the three-way comparison. -/
def compared (draft : Draft) : Action × TypeDesc × Action × TypeDesc → StateM Parser Node
  | (compare, ordering, relation, returns) => do
    let zero ← newCell (Cell.ofNative · .int (0 : Int32))
    let comparison : Binding :=
      { op := .cmp, name := Operator.cmp.actionName, action := compare, type := ordering }
    let binding : Binding :=
      { op := draft.op, name := draft.name, action := relation, type := returns }
    return .apply binding [.apply comparison draft.children, .literal zero]

/-- Bind a draft, or note an error at `span` and give up its operands. -/
def bindDraft (draft : Draft) (span : Span) : StateM Parser (Option Node) := do
  let draft ← coerceTypeOperand draft
  let (owner, args) := draft.operandTypes
  let p ← get
  match Choice.mostSpecific (p.store.candidates p.scope draft owner args) with
  | .one action => return some (draft.bound action owner args)
  | .ambiguous count =>
    complain (draft.ambiguousMessage owner args count) span
    giveUp draft.children
    return none
  | .nothing =>
    match
      if draft.op.isRelational then p.store.comparison? p.scope draft owner args else none
    with
    | some comparison => return some (← compared draft comparison)
    | none =>
      complain (draft.noActionMessage owner args) span
      giveUp draft.children
      return none

/-! ## Completing operators -/

/-- Complete an operator that is no longer among the waiting ones of the frame. -/
def reduce (f : Frame) (w : Waiting) : StateM Parser (Bool × Frame) := do
  let span := (← current).span
  match w with
  | .single op =>
    if f.operands.length < op.arity then
      complain s!"missing operand for `{op.spelling}`" span
      return (false, f)
    else
      let children := (f.operands.take op.arity).reverse
      let f := { f with operands := f.operands.drop op.arity }
      let some node ← bindDraft (Draft.ofOperator op children) span | return (false, f)
      return (true, { f with operands := node :: f.operands })
  | .tail op inner =>
    match f.operands with
    | [] =>
      complain s!"missing operand for `{op.spelling}`" span
      giveUp inner
      return (false, f)
    | trailing :: operands =>
      let f := { f with operands }
      let some node ← bindDraft (Draft.ofOperator op (inner ++ [trailing])) span
        | return (false, f)
      return (true, { f with operands := node :: f.operands })

/-- Complete the operators at the front of `pending` that bind at least as tightly as
`precedence`. -/
def reduceWhile (precedence : Nat) : (f : Frame) → (pending : List Pending) →
    StateM Parser (Bool × Frame)
  | f, .waiting w :: rest =>
    if precedence ≤ w.op.stackPrecedence then do
      let (done, f) ← reduce { f with pending := rest } w
      if done then reduceWhile precedence f rest else return (false, f)
    else return (true, { f with pending := .waiting w :: rest })
  | f, pending => return (true, { f with pending })

/-- Complete the operators in front of the innermost open parenthesis, and close it. -/
def closeGroup : (f : Frame) → (pending : List Pending) → StateM Parser (Bool × Frame)
  | f, .opening :: rest => return (true, { f with pending := rest })
  | f, .waiting w :: rest => do
    let (done, f) ← reduce { f with pending := rest } w
    if done then closeGroup f rest else return (false, f)
  | f, [] => do
    complainHere "unmatched `)`"
    return (false, { f with pending := [] })

/-- Complete all operators. -/
def closeAll : (f : Frame) → (pending : List Pending) → StateM Parser (Bool × Frame)
  | f, .opening :: rest => do
    complainHere "unclosed `(`"
    return (false, { f with pending := rest })
  | f, .waiting w :: rest => do
    let (done, f) ← reduce { f with pending := rest } w
    if done then closeAll f rest else return (false, f)
  | f, [] => return (true, { f with pending := [] })

/-- The expression of a frame that has come to its end. -/
def finish (f : Frame) : StateM Parser (Option Node) := do
  if !f.lastOperand then
    complainHere <|
      if f.operands.isEmpty && f.pending.isEmpty then "expected an expression"
      else "expected an operand"
    abandon f
  else
    let (done, f) ← closeAll f f.pending
    if done then
      -- the last operand is the expression
      giveUp { f with operands := f.operands.tail }.held
      return f.operands.head?
    else abandon f

/-! ## Operators of several tokens -/

/-- The only candidate left, with the operands read for it. -/
def chooseSequence (opener : Token) (candidates : List Operator) (operands : List Node) :
    StateM Parser (Option (Operator × List Node)) := do
  match candidates with
  | [op] => return some (op, operands)
  | _ =>
    complain s!"ambiguous operator `{opener.text}`" opener.span
    giveUp operands
    return none

/-- Resolve an operator from its sub-token number `step` on; `inner` reads an operand that ends at
the given words. No operator has more than `steps` sub-tokens ahead. -/
def resolveFrom (inner : List String → StateM Parser (Option Node)) (terminators : List String)
    (opener : Token) : (steps : Nat) → (step : Nat) → (candidates : List Operator) →
    (operands : List Node) → StateM Parser (Option (Operator × List Node))
  | 0, _, _, operands => do
    stall
    giveUp operands
    return none
  | steps + 1, step, candidates, operands => do
    -- those that are complete, and those that want another word
    let (ended, alive) := candidates.partition fun op => op.sequence.length ≤ step
    if alive.isEmpty then chooseSequence opener candidates operands
    else
      let next ← current
      let decides (op : Operator) : Bool :=
        Frame.goesOnWith step next op && !Frame.expectsOperand step op
      -- a word right behind the last one is taken at once
      match alive.find? decides with
      | some op =>
        advance 1
        resolveFrom inner terminators opener steps (step + 1) [op] operands
      | none =>
        let alive := alive.filter (Frame.expectsOperand step)
        if alive.isEmpty then chooseSequence opener ended operands
        else
          let expected := (alive.filterMap (Frame.subToken? step)).map (·.text)
          let start ← mark
          let some operand ← inner (expected ++ terminators)
            | giveUp operands
              return none
          let after ← current
          let survivors := alive.filter (Frame.goesOnWith step after)
          if !survivors.isEmpty then
            advance 1
            resolveFrom inner terminators opener steps (step + 1) survivors (operands ++ [operand])
          else if !ended.isEmpty then
            -- the operand belongs to a shorter operator, behind which it is read again
            giveUp [operand]
            rewind start
            chooseSequence opener ended operands
          else
            let list := " or ".intercalate (expected.map fun text => s!"`{text}`")
            complain s!"expected {list} to continue `{opener.text}`" after.span
            giveUp (operand :: operands)
            return none

/-- The left operand of an operator of several tokens, if one stands before it. -/
def leftOperand (f : Frame) (candidates : List Operator) (token : Token) :
    StateM Parser (Option (List Node) × Frame) := do
  if f.lastOperand then
    -- which candidate it will be is open, so the one that binds tightest decides
    let precedence := (candidates.map Operator.inputPrecedence).foldl max 0
    let (done, f) ← reduceWhile precedence f f.pending
    if done then
      match f.operands with
      | left :: operands => return (some [left], { f with operands, lastOperand := false })
      | [] =>
        complain s!"missing left operand for `{token.text}`" token.span
        return (none, f)
    else return (none, f)
  else return (some [], f)

/-- Resolve an operator of several tokens that begins with `token`. -/
def resolveSequence (inner : List String → StateM Parser (Option Node)) (f : Frame)
    (candidates : List Operator) (token : Token) : StateM Parser (Bool × Frame) := do
  let (left, f) ← leftOperand f candidates token
  match left with
  | some operands =>
    advance 1
    let some (op, operands) ← resolveFrom inner f.terminators token 4 1 candidates operands
      | return (false, f)
    return (true, f.await (.tail op operands))
  | none => return (false, f)

/-! ## Operators of one token -/

/-- Take in an operator or keyword token. -/
def operator (inner : List String → StateM Parser (Option Node)) (f : Frame) (token : Token) :
    StateM Parser (Bool × Frame) := do
  let leading := !f.lastOperand
  let sequences := Operator.sequencesStarting token.text leading
  if !sequences.isEmpty then resolveSequence inner f sequences token
  else
    match Operator.ofSpelling? token.text leading with
    | none =>
      complain (Frame.misplacedMessage token.text leading) token.span
      return (false, f)
    | some op =>
      advance 1
      -- an operator in front of its operand completes none of the waiting ones
      match op.arity with
      | 0 =>
        let some node ← bindDraft (Draft.ofOperator op []) token.span | return (false, f)
        return (true, f.pushOperand node)
      | 1 => return (true, f.await (.single op))
      | _ =>
        let (done, f) ← reduceWhile op.inputPrecedence f f.pending
        if done then return (true, f.await (.single op)) else return (false, f)

/-! ## Operands -/

/-- Arguments of a call up to its closing parenthesis, behind those in `args`. -/
def callArgs (inner : List String → StateM Parser (Option Node)) (callee : Token) :
    (rounds : Nat) → (args : List Node) → (names : List (Option String)) →
    StateM Parser (Option (List Node × List (Option String)))
  | 0, args, _ => do
    stall
    giveUp args
    return none
  | rounds + 1, args, names => do
    let name ← fieldName
    let some arg ← inner []
      | giveUp args
        return none
    let args := args ++ [arg]
    let names := names ++ [name]
    match (← current).kind with
    | .comma =>
      advance 1
      callArgs inner callee rounds args names
    | .rparen =>
      advance 1
      return some (args, names)
    | _ =>
      complainHere s!"expected `,` or `)` in call to `{callee.text}`"
      giveUp args
      return none

/-- A call `name(arg, key = arg, ...)`. -/
def call (inner : List String → StateM Parser (Option Node)) (callee : Token) :
    StateM Parser (Option Node) := do
  advance 2
  let read ←
    if (← current).kind == .rparen then do
      advance 1
      pure (some ([], []))
    else callArgs inner callee (← rounds) [] []
  let some (args, names) := read | return none
  bindDraft { op := .call, name := callee.text, children := args, argNames := names } callee.span

/-- A bare identifier: the nearest variable, or else a literal name. -/
def identifier (token : Token) : StateM Parser Node := do
  let p ← get
  match p.store.variableCell? p.scope token.text with
  | some cell => return .value cell (some token.text)
  | none => return .literal (← newCell (Cell.ofNative · .name token.text))

/-- A literal as an operand. -/
def operand (fuel : Nat) (token : Token) : StateM Parser (Option Node) := do
  match token.kind with
  | .dynamicOpen | .dataOpen =>
    complain "only plain tuples are allowed in expressions" token.span
    return none
  | .plainOpen | .typeOpen => return (← read fuel).map .literal
  | kind =>
    if kind.isLiteral then
      advance 1
      return (← scalar token false).map .literal
    else
      complain s!"unexpected `{token.text}`" token.span
      return none

/-! ## Frames -/

/-- Take in one token that does not end the frame. -/
def step (fuel : Nat) (inner : List String → StateM Parser (Option Node)) (f : Frame)
    (token : Token) : StateM Parser (Bool × Frame) := do
  match token.kind with
  | .comma =>
    complain "unexpected `,` inside parentheses" token.span
    return (false, f)
  | .rparen =>
    if !f.lastOperand then
      complain "expected an operand before `)`" token.span
      return (false, f)
    else
      let (done, f) ← closeGroup f f.pending
      if done then
        advance 1
        return (true, { f with lastOperand := true })
      else return (false, f)
  | .lparen =>
    if f.lastOperand then
      complain "unexpected `(` after an operand" token.span
      return (false, f)
    else
      advance 1
      return (true, { f with pending := .opening :: f.pending })
  | .symbol | .keyword => operator inner f token
  | .invalid =>
    complain s!"unrecognized input `{token.text}`" token.span
    return (false, f)
  | kind =>
    if f.lastOperand then
      complain s!"unexpected `{token.text}`; expected an operator" token.span
      return (false, f)
    else if kind == .ident then
      if (← peek 1).kind == .lparen then
        let some node ← call inner token | return (false, f)
        return (true, f.pushOperand node)
      else
        advance 1
        return (true, f.pushOperand (← identifier token))
    else
      let some node ← operand fuel token | return (false, f)
      return (true, f.pushOperand node)

/-- Take in tokens to the end of the frame. -/
def run (fuel : Nat) (inner : List String → StateM Parser (Option Node)) : (rounds : Nat) →
    Frame → StateM Parser (Option Node)
  | 0, f => do
    stall
    abandon f
  | rounds + 1, f => do
    let token ← current
    if f.endsAt token then finish f
    else
      let (done, f) ← step fuel inner f token
      if done then run fuel inner rounds f else abandon f

/-- One expression up to `;`, the end of input, an unmatched `,` or `)`, or one of `terminators`.
After an error the cursor is at the end of the statement. -/
def parseFrame : (fuel : Nat) → (terminators : List String) → StateM Parser (Option Node)
  | 0, _ => do
    stall
    skipStatement
    return none
  | fuel + 1, terminators =>
    deeper (do run fuel (parseFrame fuel) (← rounds) { terminators }) do
      let nothing ← refuse "expression"
      skipStatement
      return nothing

/-! ## Statements -/

/-- Go to the end of a statement. Behind an expression that was read nothing else may stand. -/
def expectEnd (read : Bool) : StateM Parser Unit := do
  let token ← current
  if !token.kind.endsStatement then
    if read then complainHere s!"unexpected `{token.text}` after expression"
    skipStatement

/-- Report the errors of a statement, which gives no node if there are any. -/
def settle (root : Option Node) : StateM Parser (Option Node) := do
  -- an error may stand behind an expression that was read
  let failed := !(← get).pending.isEmpty
  flush
  match root with
  | some node =>
    if failed then
      giveUp [node]
      return none
    else return some node
  | none => return none

/-- One statement. -/
def statement : StateM Parser (Option Node) := do
  let root ← parseFrame ((← get).store.settings.maxDepth + 1) []
  expectEnd root.isSome
  settle root

/-- The statements up to the end of input, behind those in `roots`. -/
def statements : (rounds : Nat) → (roots : List Node) → StateM Parser (List Node)
  | 0, roots => do
    stall
    return roots
  | rounds + 1, roots => do
    let p ← get
    if p.cursor.atEnd then return roots
    else if p.cursor.current.kind == .semicolon then
      advance 1
      statements rounds roots
    else
      let root ← statement
      statements rounds (roots ++ root.toList)

end Parser

end TupleLang
