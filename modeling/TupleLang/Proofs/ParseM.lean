import TupleLang.Diagnostic
import TupleLang.Expr.Node
import TupleLang.Token.Cursor

/-!
# Direct parsers

A parser without its bookkeeping. It moves a cursor and may create tuples for literals in a store,
and it fails with a single complaint about a place in the source: there is no list of errors, no
sink to report them to and no count of the levels of nesting. Whoever holds nodes or cells when a
part fails gives them up, innermost first.

`Parser` does the same with all of its bookkeeping (`Parser.Follows`). What holds of the tuples, the
tokens and the nodes is said of direct parsers, where one outcome is one case.
-/

namespace TupleLang

/-- Why a parser failed. -/
inductive ParseFailure where
  /-- Something is wrong at a place in the source. -/
  | complaint (message : String) (span : Span)
  /-- A loop has gone round more often than there are tokens. -/
  | stalled
  deriving DecidableEq, Repr

/-- The diagnostic that reports a failure. -/
def ParseFailure.diagnostic : ParseFailure → Diagnostic
  | .complaint message span => { message, span }
  | .stalled => { message := "parsing makes no progress" }

/-- What a parser works on. -/
structure ParseState where
  store : Store
  cursor : Cursor

/-- Direct parsers. -/
abbrev ParseM := EStateM ParseFailure ParseState

namespace ParseM

/-! ## Tokens -/

/-- The token under the cursor. -/
def current : ParseM Token := return (← get).cursor.current

/-- The token `offset` places ahead. -/
def peek (offset : Nat) : ParseM Token := return (← get).cursor.peek offset

/-- Move the cursor forward. -/
def advance (n : Nat) : ParseM Unit := modify fun s => { s with cursor := s.cursor.advance n }

/-- Move the cursor to an absolute position. -/
def seek (position : Nat) : ParseM Unit :=
  modify fun s => { s with cursor := s.cursor.seek position }

/-- Position of the cursor. -/
def position : ParseM Nat := return (← get).cursor.pos

/-- Number of rounds that a loop which passes a token in each round can make. -/
def rounds : ParseM Nat := return (← get).cursor.remaining + 1

/-- Move the cursor to the end of the statement. -/
def skipStatement : ParseM Unit := modify fun s => { s with cursor := s.cursor.skipStatement }

/-! ## Failing -/

/-- Complain about a place. -/
def complain {α : Type} (message : String) (span : Span) : ParseM α :=
  throw (.complaint message span)

/-- Complain about the token under the cursor. -/
def complainHere {α : Type} (message : String) : ParseM α := do
  complain message (← current).span

/-- Run a parser, and clean up with `f` if it fails. -/
def onFailure {α : Type} (f : ParseState → ParseState) (m : ParseM α) : ParseM α := fun s =>
  match m s with
  | .ok a s => .ok a s
  | .error e s => .error e (f s)

/-- Give up cells if a parser fails. -/
def holdingCells {α : Type} (cells : List Cell) (m : ParseM α) : ParseM α :=
  onFailure (fun s => { s with store := s.store.releaseAll cells }) m

/-- Give up nodes if a parser fails. -/
def holding {α : Type} (nodes : List Node) (m : ParseM α) : ParseM α :=
  onFailure (fun s => { s with store := s.store.releaseNodes nodes }) m

/-! ## Store -/

/-- The store. -/
def store : ParseM Store := return (← get).store

/-- Change the store by an operation that cannot fail. -/
def changeStore (f : Store → Store) : ParseM Unit := modify fun s => { s with store := f s.store }

/-- Run an operation on the store; its error becomes a complaint about the current token. -/
def onStore {α : Type} (m : StoreM α) : ParseM α := fun s =>
  match m s.store with
  | .ok a store => .ok a { s with store }
  | .error e store => .error (.complaint e.message s.cursor.current.span) { s with store }

/-! ## Nesting -/

/-- Complain that no more levels of nesting are left. -/
def tooDeep {α : Type} (what : String) : ParseM α := do
  let limit := (← store).settings.maxDepth
  complainHere s!"{what} nested deeper than {limit} levels"

end ParseM

end TupleLang
