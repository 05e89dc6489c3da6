import TupleLang.Expr.Parser.Statement
import TupleLang.Proofs.DirectReader

/-!
# Expressions directly from tokens

The direct parser of operators, frames and statements. `levels` is the number of levels of nesting
that are left.
-/

namespace TupleLang

open ParseM

/-! ## Binding -/

namespace Draft

/-- In a type test, a bare name that means a type becomes that type. -/
def coerceTypeOperand (scope : TupleId) (draft : Draft) : ParseM Draft := do
  if draft.op = .is ∨ draft.op = .isNot then
    match draft.typeOperand? (← store) scope with
    | some type =>
      let cell ← onStore (StoreM.newNative .type type)
      return { draft with children := draft.children.dropLast ++ [.literal cell] }
    | none => return draft
  else return draft

/-- A relational operator by way of the three-way comparison. -/
def compared (draft : Draft) : Action × TypeDesc × Action × TypeDesc → ParseM Node
  | (compare, ordering, relation, returns) => do
    let zero ← onStore (StoreM.newNative .int (0 : Int32))
    let comparison : Binding :=
      { op := .cmp, name := Operator.cmp.actionName, action := compare, type := ordering }
    let binding : Binding :=
      { op := draft.op, name := draft.name, action := relation, type := returns }
    return .apply binding [.apply comparison draft.children, .literal zero]

/-- Bind a draft, or complain at `span` and give up its operands. -/
def bind (scope : TupleId) (draft : Draft) (span : Span) : ParseM Node := do
  let draft ← draft.coerceTypeOperand scope
  let (owner, args) := draft.operandTypes
  let s ← store
  match Choice.mostSpecific (s.candidates scope draft owner args) with
  | .one action => return draft.bound action owner args
  | .ambiguous count =>
    holding draft.children (complain (draft.ambiguousMessage owner args count) span)
  | .nothing =>
    match if draft.op.isRelational then s.comparison? scope draft owner args else none with
    | some comparison => draft.compared comparison
    | none => holding draft.children (complain (draft.noActionMessage owner args) span)

end Draft

namespace Frame

/-! ## Completing operators -/

/-- Complete an operator that is no longer among the waiting ones of the frame. -/
def reduce (scope : TupleId) (f : Frame) (w : Waiting) : ParseM Frame := do
  let span := (← current).span
  let missing : ParseM Frame :=
    holding f.held (holding w.inner (complain s!"missing operand for `{w.op.spelling}`" span))
  match w with
  | .single op =>
    if f.operands.length < op.arity then missing
    else
      let children := (f.operands.take op.arity).reverse
      let f := { f with operands := f.operands.drop op.arity }
      let node ← holding f.held ((Draft.ofOperator op children).bind scope span)
      return { f with operands := node :: f.operands }
  | .tail op inner =>
    match f.operands with
    | [] => missing
    | trailing :: operands =>
      let f := { f with operands }
      let node ← holding f.held ((Draft.ofOperator op (inner ++ [trailing])).bind scope span)
      return { f with operands := node :: f.operands }

/-- Complete the operators at the front of `pending` that bind at least as tightly as
`precedence`. -/
def reduceWhile (scope : TupleId) (precedence : Nat) : (f : Frame) → (pending : List Pending) →
    ParseM Frame
  | f, .waiting w :: rest =>
    if precedence ≤ w.op.stackPrecedence then do
      reduceWhile scope precedence (← reduce scope { f with pending := rest } w) rest
    else return { f with pending := .waiting w :: rest }
  | f, pending => return { f with pending }

/-- Complete the operators in front of the innermost open parenthesis, and close it. -/
def closeGroup (scope : TupleId) : (f : Frame) → (pending : List Pending) → ParseM Frame
  | f, .opening :: rest => return { f with pending := rest }
  | f, .waiting w :: rest => do closeGroup scope (← reduce scope { f with pending := rest } w) rest
  | f, [] => holding { f with pending := [] }.held (complainHere "unmatched `)`")

/-- Complete all operators. -/
def closeAll (scope : TupleId) : (f : Frame) → (pending : List Pending) → ParseM Frame
  | f, .opening :: rest => holding { f with pending := rest }.held (complainHere "unclosed `(`")
  | f, .waiting w :: rest => do closeAll scope (← reduce scope { f with pending := rest } w) rest
  | f, [] => return { f with pending := [] }

/-- The expression of a frame that has come to its end. -/
def finish (scope : TupleId) (f : Frame) : ParseM Node := do
  if !f.lastOperand then
    let message :=
      if f.operands.isEmpty && f.pending.isEmpty then "expected an expression"
      else "expected an operand"
    holding f.held (complainHere message)
  else
    let f ← closeAll scope f f.pending
    match f.operands with
    | root :: rest =>
      changeStore (·.releaseNodes rest.reverse)
      return root
    | [] => complainHere "expected an operand"

/-! ## Operators of several tokens -/

/-- The only candidate left. -/
def chooseSequence (opener : Token) (candidates : List Operator) (operands : List Node) :
    ParseM (Operator × List Node) :=
  match candidates with
  | [op] => return (op, operands)
  | _ => holding operands (complain s!"ambiguous operator `{opener.text}`" opener.span)

/-- Resolve an operator from its sub-token number `step` on; `inner` reads an operand that ends at
the given words. No operator has more than `steps` sub-tokens ahead. -/
def resolveFrom (inner : List String → ParseM Node) (terminators : List String) (opener : Token) :
    (steps : Nat) → (step : Nat) → (candidates : List Operator) → (operands : List Node) →
    ParseM (Operator × List Node)
  | 0, _, _, operands => holding operands (throw .stalled)
  | steps + 1, step, candidates, operands => do
    let (ended, alive) := candidates.partition fun op => op.sequence.length ≤ step
    if alive.isEmpty then chooseSequence opener candidates operands
    else
      let next ← current
      let decides (op : Operator) : Bool :=
        goesOnWith step next op && !expectsOperand step op
      match alive.find? decides with
      | some op =>
        advance 1
        resolveFrom inner terminators opener steps (step + 1) [op] operands
      | none =>
        let alive := alive.filter (expectsOperand step)
        if alive.isEmpty then chooseSequence opener ended operands
        else
          let expected := (alive.filterMap (subToken? step)).map (·.text)
          let start ← position
          let operand ← holding operands (inner (expected ++ terminators))
          let after ← current
          let survivors := alive.filter (goesOnWith step after)
          if !survivors.isEmpty then
            advance 1
            resolveFrom inner terminators opener steps (step + 1) survivors (operands ++ [operand])
          else if !ended.isEmpty then
            changeStore (·.releaseNode operand)
            seek start
            chooseSequence opener ended operands
          else
            let list := " or ".intercalate (expected.map fun text => s!"`{text}`")
            holding (operand :: operands)
              (complain s!"expected {list} to continue `{opener.text}`" after.span)

/-- The left operand of an operator of several tokens, if one stands before it. -/
def leftOperand (scope : TupleId) (f : Frame) (candidates : List Operator) (token : Token) :
    ParseM (Frame × List Node) := do
  if f.lastOperand then
    let precedence := (candidates.map Operator.inputPrecedence).foldl max 0
    let f ← reduceWhile scope precedence f f.pending
    match f.operands with
    | left :: operands => return ({ f with operands, lastOperand := false }, [left])
    | [] => holding f.held (complain s!"missing left operand for `{token.text}`" token.span)
  else return (f, [])

/-- Resolve an operator of several tokens that begins with `token`. -/
def resolveSequence (scope : TupleId) (inner : List String → ParseM Node) (f : Frame)
    (candidates : List Operator) (token : Token) : ParseM Frame := do
  let (f, operands) ← leftOperand scope f candidates token
  advance 1
  let (op, operands) ←
    holding f.held (resolveFrom inner f.terminators token 4 1 candidates operands)
  return f.await (.tail op operands)

/-! ## Operators of one token -/

/-- Take in an operator or keyword token. -/
def operator (scope : TupleId) (inner : List String → ParseM Node) (f : Frame) (token : Token) :
    ParseM Frame := do
  let leading := !f.lastOperand
  let sequences := Operator.sequencesStarting token.text leading
  if !sequences.isEmpty then resolveSequence scope inner f sequences token
  else
    match Operator.ofSpelling? token.text leading with
    | none => holding f.held (complain (misplacedMessage token.text leading) token.span)
    | some op =>
      advance 1
      match op.arity with
      | 0 =>
        let node ← holding f.held ((Draft.ofOperator op []).bind scope token.span)
        return f.pushOperand node
      | 1 => return f.await (.single op)
      | _ => return (← reduceWhile scope op.inputPrecedence f f.pending).await (.single op)

/-! ## Operands -/

/-- Arguments of a call up to its closing parenthesis, behind those in `args`. -/
def callArgs (inner : List String → ParseM Node) (callee : Token) : (rounds : Nat) →
    (args : List Node) → (names : List (Option String)) → ParseM (List Node × List (Option String))
  | 0, args, _ => holding args (throw .stalled)
  | rounds + 1, args, names => do
    let name ← TypeReader.name
    let arg ← holding args (inner [])
    let args := args ++ [arg]
    let names := names ++ [name]
    match (← current).kind with
    | .comma =>
      advance 1
      callArgs inner callee rounds args names
    | .rparen =>
      advance 1
      return (args, names)
    | _ => holding args (complainHere s!"expected `,` or `)` in call to `{callee.text}`")

/-- A call `name(arg, key = arg, ...)`. -/
def call (scope : TupleId) (inner : List String → ParseM Node) (callee : Token) : ParseM Node := do
  advance 2
  let (args, names) ←
    if (← current).kind == .rparen then do
      advance 1
      pure ([], [])
    else callArgs inner callee (← rounds) [] []
  let draft : Draft := { op := .call, name := callee.text, children := args, argNames := names }
  draft.bind scope callee.span

/-- A bare identifier: the nearest variable, or else a literal name. -/
def identifier (scope : TupleId) (token : Token) : ParseM Node := do
  match (← store).variableCell? scope token.text with
  | some cell => return .value cell (some token.text)
  | none => return .literal (← onStore (StoreM.newNative .name token.text))

/-- A literal as an operand. -/
def operand (scope : TupleId) (levels : Nat) (token : Token) : ParseM Node := do
  match token.kind with
  | .dynamicOpen | .dataOpen => complain "only plain tuples are allowed in expressions" token.span
  | .plainOpen | .typeOpen => return .literal (← ValueReader.read scope levels)
  | kind =>
    if kind.isLiteral then
      advance 1
      return .literal (← ValueReader.scalar token false)
    else complain s!"unexpected `{token.text}`" token.span

/-! ## Frames -/

/-- Take in one token that does not end the frame. -/
def step (scope : TupleId) (levels : Nat) (inner : List String → ParseM Node) (f : Frame)
    (token : Token) : ParseM Frame := do
  match token.kind with
  | .comma => holding f.held (complain "unexpected `,` inside parentheses" token.span)
  | .rparen =>
    if !f.lastOperand then holding f.held (complain "expected an operand before `)`" token.span)
    else
      let f ← closeGroup scope f f.pending
      advance 1
      return { f with lastOperand := true }
  | .lparen =>
    if f.lastOperand then holding f.held (complain "unexpected `(` after an operand" token.span)
    else
      advance 1
      return { f with pending := .opening :: f.pending }
  | .symbol | .keyword => operator scope inner f token
  | .invalid => holding f.held (complain s!"unrecognized input `{token.text}`" token.span)
  | kind =>
    if f.lastOperand then
      holding f.held (complain s!"unexpected `{token.text}`; expected an operator" token.span)
    else if kind == .ident then
      if (← peek 1).kind == .lparen then
        return f.pushOperand (← holding f.held (call scope inner token))
      else
        advance 1
        return f.pushOperand (← identifier scope token)
    else return f.pushOperand (← holding f.held (operand scope levels token))

/-- Take in tokens to the end of the frame. -/
def run (scope : TupleId) (levels : Nat) (inner : List String → ParseM Node) : (rounds : Nat) →
    Frame → ParseM Node
  | 0, f => holding f.held (throw .stalled)
  | rounds + 1, f => do
    let token ← current
    if f.endsAt token then finish scope f
    else run scope levels inner rounds (← step scope levels inner f token)

end Frame

/-- One expression up to `;`, the end of input, an unmatched `,` or `)`, or one of `terminators`.
After a failure the cursor is at the end of the statement. -/
def parseFrame (scope : TupleId) : (levels : Nat) → (terminators : List String) → ParseM Node
  | 0, _ =>
    onFailure (fun s => { s with cursor := s.cursor.skipStatement }) (tooDeep "expression")
  | levels + 1, terminators =>
    onFailure (fun s => { s with cursor := s.cursor.skipStatement }) do
      Frame.run scope levels (parseFrame scope levels) (← rounds) { terminators }

/-- One statement: an expression with nothing behind it. -/
def parseStatement (scope : TupleId) : ParseM Node := do
  let node ← parseFrame scope (← store).settings.maxDepth []
  let token ← current
  if token.kind.endsStatement then return node
  onFailure (fun s => { s with cursor := s.cursor.skipStatement })
    (holding [node] (complain s!"unexpected `{token.text}` after expression" token.span))

/-- The statements up to the end of input. A statement that fails is passed over. -/
def parseStatements (scope : TupleId) : (rounds : Nat) → ParseState → Parsed (List Node)
  | 0, s =>
    { result := []
      diagnostics := [ParseFailure.stalled.diagnostic]
      store := s.store
      cursor := s.cursor }
  | rounds + 1, s =>
    if s.cursor.atEnd then
      { result := [], diagnostics := [], store := s.store, cursor := s.cursor }
    else if s.cursor.current.kind == .semicolon then
      parseStatements scope rounds { s with cursor := s.cursor.advance 1 }
    else
      match parseStatement scope s with
      | .ok node s =>
        let rest := parseStatements scope rounds s
        { rest with result := node :: rest.result }
      | .error e s =>
        let rest := parseStatements scope rounds s
        { rest with diagnostics := e.diagnostic :: rest.diagnostics }

end TupleLang
