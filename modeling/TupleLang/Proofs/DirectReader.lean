import TupleLang.Expr.Parser.Value
import TupleLang.Proofs.ParseM

/-!
# Reading values directly

The direct parser of values, types and tuples. `levels` is the number of levels of nesting that are
left.
-/

namespace TupleLang

open ParseM

namespace TypeReader

/-- The name in front of `=`, if there is one; both are passed. -/
def name : ParseM (Option String) := do
  let token ← current
  if token.kind == .ident && (← peek 1).isWord "=" then
    advance 2
    return some token.text
  return none

/-- One element; `nested` reads what stands behind an opening parenthesis. -/
def element (nested : ParseM TypeDesc) : ParseM TypeDesc := do
  let token ← current
  match token.kind with
  | .lparen | .typeOpen =>
    advance 1
    nested
  | .ident | .voidWord =>
    advance 1
    return .leaf token.text
  | _ => complain s!"expected a type, found `{token.text}`" token.span

/-- Elements up to the closing parenthesis, behind those in `fields`; `comma` tells whether a comma
stands before. -/
def elements (nested : ParseM TypeDesc) : (rounds : Nat) → (fields : List TypeDesc.Field) →
    (comma : Bool) → ParseM TypeDesc
  | 0, _, _ => throw .stalled
  | rounds + 1, fields, comma => do
    if (← current).kind == .rparen then
      advance 1
      return close fields comma
    let name ← name
    let type ← element nested
    let fields := fields ++ [(name, type)]
    let token ← current
    match token.kind with
    | .comma =>
      advance 1
      elements nested rounds fields true
    | .rparen =>
      advance 1
      return close fields false
    | _ => complainHere s!"expected `,` or `)` in type, found `{token.text}`"

/-- A type behind its opening parenthesis. -/
def body : (levels : Nat) → ParseM TypeDesc
  | 0 => tooDeep "type"
  | levels + 1 => do elements (body levels) (← rounds) [] false

end TypeReader

namespace ValueReader

/-- A scalar from its token, which has been passed. -/
def scalar (token : Token) (negative : Bool) : ParseM Cell :=
  match Literal.read token negative with
  | .ok typed => onStore (StoreM.newCell (.leaf typed.type) typed.value)
  | .error message => complain message token.span

/-- A value; `tuple` reads a tuple behind its opening. A leading minus belongs to a number, and a
bare identifier is a name. -/
def value (levels : Nat) (tuple : TupleKind → ParseM Cell) : ParseM Cell := do
  let token ← current
  match token.kind with
  | .plainOpen =>
    advance 1
    tuple .plain
  | .dynamicOpen =>
    advance 1
    tuple .dynamic
  | .dataOpen =>
    advance 1
    tuple .data
  | .typeOpen =>
    advance 1
    let type ← TypeReader.body levels
    onStore (StoreM.newNative .type type)
  | .ident =>
    advance 1
    onStore (StoreM.newNative .name token.text)
  | kind =>
    if kind == .symbol && token.text == "-" then
      let number ← peek 1
      if number.kind == .int || number.kind == .long || number.kind == .float then
        advance 2
        scalar number true
      else
        complain "expected a number after `-`" number.span
    else if kind.isLiteral then
      advance 1
      scalar token false
    else
      complain s!"expected a value, found `{token.text}`" token.span

/-- The name in front of `=` or `:`, if there is one; both are passed. -/
def name : ParseM (Option String) := do
  let token ← current
  let next ← peek 1
  if token.kind == .ident && (next.isWord "=" || next.isWord ":") then
    advance 2
    return some token.text
  return none

/-- The tuple of the elements read. -/
def build (scope : TupleId) (kind : TupleKind) (entries : List (Option String × Cell)) :
    ParseM Cell :=
  onStore do
    let id ← StoreM.createFrom kind (some scope) entries
    let type ← StoreM.ofExcept ((← get).typeOf id)
    StoreM.newCell type (.tuple id)

/-- One element; `nested` reads a tuple of the same kind behind a bare parenthesis. -/
def element (value nested : ParseM Cell) : ParseM Cell := do
  if (← current).kind == .lparen then
    advance 1
    nested
  else value

/-- Elements up to the closing parenthesis, behind those in `entries`, and the tuple of them all. -/
def elements (scope : TupleId) (kind : TupleKind) (value nested : ParseM Cell) : (rounds : Nat) →
    (entries : List (Option String × Cell)) → ParseM Cell
  | 0, entries => holdingCells (entries.map (·.2)) (throw .stalled)
  | rounds + 1, entries => do
    if (← current).kind == .rparen then
      advance 1
      build scope kind entries
    else
      let name ← name
      let cell ← holdingCells (entries.map (·.2)) (element value nested)
      let entries := entries ++ [(name, cell)]
      let token ← current
      match token.kind with
      | .comma =>
        advance 1
        elements scope kind value nested rounds entries
      | .rparen =>
        advance 1
        build scope kind entries
      | _ =>
        holdingCells (entries.map (·.2))
          (complainHere s!"expected `,` or `)` in tuple, found `{token.text}`")

/-- A tuple behind its opening. -/
def tuple (scope : TupleId) : (levels : Nat) → TupleKind → ParseM Cell
  | 0, _ => tooDeep "tuple"
  | levels + 1, kind => do
    elements scope kind (value levels (tuple scope levels)) (tuple scope levels kind) (← rounds) []

/-- A value in a scope, which becomes the parent of its tuple. -/
def read (scope : TupleId) (levels : Nat) : ParseM Cell := value levels (tuple scope levels)

end ValueReader

end TupleLang
