import TupleLang.Expr.Eval
import TupleLang.Expr.Parser.Statement
import TupleLang.Expr.Text
import TupleLang.Token.Lexer

/-!
# Expressions

An expression is a list of statements, parsed in the scope of a tuple. Every operator is bound
while parsing, so that evaluation never searches. The tuples of its literals belong to the
expression, which is released when it is no longer needed.
-/

namespace TupleLang

/-- The outcome of one statement. -/
structure Outcome where
  /-- How evaluation ended. -/
  signal : Signal
  /-- The value, or the name of the raised condition. -/
  cell : Cell

/-- Parsed statements. -/
structure Expression where
  /-- One node for each statement. -/
  roots : List Node
  /-- The scope in which the expression was parsed. -/
  scope : TupleId

namespace Expression

/-- Parse tokens in a scope. Every error is reported; if there are any then there is no expression
and nothing is left of its literals. -/
def parse (store : Store) (scope : TupleId) (cursor : Cursor) : Parsed (Except Error Expression) :=
  match store.tuple scope with
  | .error e => { result := .error e, diagnostics := [], store, cursor }
  | .ok _ =>
    let (roots, p) := Parser.statements (cursor.remaining + 1) [] { store, scope, cursor }
    let (_, p) := Parser.flush p
    -- one bad statement takes the nodes of all others with it
    if p.errors.isEmpty then
      { result := .ok { roots, scope }
        diagnostics := p.sink.items
        store := p.store
        cursor := p.cursor }
    else
      { result := .error (.invalidExpression p.errors)
        diagnostics := p.sink.items
        store := p.store.releaseNodes roots
        cursor := p.cursor }

/-- Parse a source text in a scope. -/
def ofSource (store : Store) (scope : TupleId) (source : String) :
    Parsed (Except Error Expression) :=
  parse store scope (Cursor.ofSource source)

/-- Evaluate statements in order. A `return` ends the evaluation after its statement. -/
def evaluateRoots (host : Host) : List Node → StoreM (List Outcome)
  | [] => return []
  | root :: rest => do
    let (signal, cell) ← root.evaluate host 1
    if signal = .returns then return [⟨signal, cell⟩]
    return ⟨signal, cell⟩ :: (← evaluateRoots host rest)

/-- Evaluate the statements of an expression. -/
def evaluate (host : Host) (e : Expression) : StoreM (List Outcome) := evaluateRoots host e.roots

/-- Number of statements. -/
def size (e : Expression) : Nat := e.roots.length

/-- Whether there are no statements. -/
def isEmpty (e : Expression) : Bool := e.roots.isEmpty

/-- Give up the tuples of an expression's literals. -/
def release (e : Expression) (store : Store) : Store := store.releaseNodes e.roots

/-- Pieces of an expression: its statements with semicolons between them. -/
def pieces (e : Expression) (store : Store) : List Piece :=
  ((Node.piecesOf store e.roots).intersperse [.punct ";"]).flatten

/-- Text of an expression. -/
def text (e : Expression) (store : Store) : String := Layout.render (e.pieces store)

end Expression

end TupleLang
