import TupleLang.Expr.Literal
import TupleLang.Expr.Parser.Basic

/-!
# Reading values

A value is a scalar literal, a type `T(...)` or a tuple `P(...)`, `D(...)`, `E(...)`. The same
grammar reads everything that the text of tuples and types consists of. Inside a tuple, an element
may have a name, `x=1` or `x: (2)`, and a bare parenthesis opens a tuple of the same kind. A comma
may follow the last element.

`fuel` bounds the levels of nesting that a parser can open. The settings allow fewer.
-/

namespace TupleLang

/-- The type of the elements read: a lone unnamed one without a comma behind it is that type
itself. -/
def TypeReader.close (fields : List TypeDesc.Field) (comma : Bool) : TypeDesc :=
  match fields, comma with
  | [(none, type)], false => type
  | fields, _ => .tree fields

namespace Parser

/-! ## Types -/

/-- The name in front of `=`, if there is one; both are passed. -/
def fieldName : StateM Parser (Option String) := do
  let token ← current
  if token.kind == .ident && (← peek 1).isWord "=" then
    advance 2
    return some token.text
  return none

/-- One element of a type; `nested` reads what stands behind an opening parenthesis. -/
def typeElement (nested : StateM Parser (Option TypeDesc)) : StateM Parser (Option TypeDesc) := do
  let token ← current
  match token.kind with
  | .lparen | .typeOpen =>
    advance 1
    nested
  | .ident | .voidWord =>
    advance 1
    return some (.leaf token.text)
  | _ =>
    complain s!"expected a type, found `{token.text}`" token.span
    return none

/-- Elements of a type up to the closing parenthesis, behind those in `fields`; `comma` tells
whether a comma stands before. -/
def typeFields (nested : StateM Parser (Option TypeDesc)) : (rounds : Nat) →
    (fields : List TypeDesc.Field) → (comma : Bool) → StateM Parser (Option TypeDesc)
  | 0, _, _ => do
    stall
    return none
  | rounds + 1, fields, comma => do
    if (← current).kind == .rparen then
      advance 1
      return some (TypeReader.close fields comma)
    let name ← fieldName
    let some type ← typeElement nested | return none
    let fields := fields ++ [(name, type)]
    let token ← current
    match token.kind with
    | .comma =>
      advance 1
      typeFields nested rounds fields true
    | .rparen =>
      advance 1
      return some (TypeReader.close fields false)
    | _ =>
      complainHere s!"expected `,` or `)` in type, found `{token.text}`"
      return none

/-- A type behind its opening parenthesis. -/
def typeBody : (fuel : Nat) → StateM Parser (Option TypeDesc)
  | 0 => do
    stall
    return none
  | fuel + 1 => nested "type" do typeFields (typeBody fuel) (← rounds) [] false

/-! ## Values -/

/-- A scalar from its token, which has been passed. -/
def scalar (token : Token) (negative : Bool) : StateM Parser (Option Cell) :=
  match Literal.read token negative with
  | .ok typed => return some (← newCell (Cell.make · (.leaf typed.type) typed.value))
  | .error message => do
    complain message token.span
    return none

/-- A value; `tuple` reads a tuple behind its opening. A leading minus belongs to a number, and a
bare identifier is a name. -/
def value (fuel : Nat) (tuple : TupleKind → StateM Parser (Option Cell)) :
    StateM Parser (Option Cell) := do
  let token ← current
  match token.kind with
  | .plainOpen =>
    advance 1
    tuple .plain
  | .dynamicOpen =>
    advance 1
    tuple .dynamic
  | .dataOpen =>
    advance 1
    tuple .data
  | .typeOpen =>
    advance 1
    let some type ← typeBody fuel | return none
    return some (← newCell (Cell.ofNative · .type type))
  | .ident =>
    advance 1
    return some (← newCell (Cell.ofNative · .name token.text))
  | kind =>
    if kind == .symbol && token.text == "-" then
      -- a minus is no operator here
      let number ← peek 1
      if number.kind == .int || number.kind == .long || number.kind == .float then
        advance 2
        scalar number true
      else
        complain "expected a number after `-`" number.span
        return none
    else if kind.isLiteral then
      advance 1
      scalar token false
    else
      complain s!"expected a value, found `{token.text}`" token.span
      return none

/-- The name in front of `=` or `:`, if there is one; both are passed. -/
def elementName : StateM Parser (Option String) := do
  let token ← current
  let next ← peek 1
  if token.kind == .ident && (next.isWord "=" || next.isWord ":") then
    advance 2
    return some token.text
  return none

/-- The tuple of the elements read. -/
def build (kind : TupleKind) (entries : List (Option String × Cell)) :
    StateM Parser (Option Cell) := do
  let scope := (← get).scope
  onStore do
    let id ← StoreM.createFrom kind (some scope) entries
    let type ← StoreM.ofExcept ((← get).typeOf id)
    StoreM.newCell type (.tuple id)

/-- One element of a tuple; `nested` reads a tuple of the same kind behind a bare parenthesis. -/
def element (value nested : StateM Parser (Option Cell)) : StateM Parser (Option Cell) := do
  if (← current).kind == .lparen then
    advance 1
    nested
  else value

/-- Elements of a tuple up to the closing parenthesis, behind those in `entries`, and the tuple of
them all. -/
def elements (kind : TupleKind) (value nested : StateM Parser (Option Cell)) : (rounds : Nat) →
    (entries : List (Option String × Cell)) → StateM Parser (Option Cell)
  | 0, entries => do
    stall
    giveUpCells (entries.map (·.2))
    return none
  | rounds + 1, entries => do
    if (← current).kind == .rparen then
      advance 1
      build kind entries
    else
      let name ← elementName
      let some cell ← element value nested
        | giveUpCells (entries.map (·.2))
          return none
      let entries := entries ++ [(name, cell)]
      let token ← current
      match token.kind with
      | .comma =>
        advance 1
        elements kind value nested rounds entries
      | .rparen =>
        advance 1
        build kind entries
      | _ =>
        complainHere s!"expected `,` or `)` in tuple, found `{token.text}`"
        giveUpCells (entries.map (·.2))
        return none

/-- A tuple behind its opening. -/
def tuple : (fuel : Nat) → TupleKind → StateM Parser (Option Cell)
  | 0, _ => do
    stall
    return none
  | fuel + 1, kind => nested "tuple" do
    elements kind (value fuel (tuple fuel)) (tuple fuel kind) (← rounds) []

/-- A value. -/
def read (fuel : Nat) : StateM Parser (Option Cell) := value fuel (tuple fuel)

end Parser

/-- Read one value. The tuples of the value have `scope` as their parent; after a failure nothing is
left of them. -/
def parseValue (store : Store) (scope : TupleId) (cursor : Cursor) : Parsed (Option Cell) :=
  let (value, p) := Parser.read (store.settings.maxDepth + 1) { store, scope, cursor }
  let (_, p) := Parser.flush p
  match value with
  | some cell =>
    if p.errors.isEmpty then
      { result := some cell, diagnostics := p.sink.items, store := p.store, cursor := p.cursor }
    else
      { result := none
        diagnostics := p.sink.items
        store := p.store.release cell
        cursor := p.cursor }
  | none =>
    { result := none, diagnostics := p.sink.items, store := p.store, cursor := p.cursor }

end TupleLang
