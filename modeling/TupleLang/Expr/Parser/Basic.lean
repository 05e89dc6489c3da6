import TupleLang.Diagnostic
import TupleLang.Expr.Node
import TupleLang.Token.Cursor

/-!
# Parsers

A parser reads tokens in a scope and may create tuples for literals. What is wrong with a statement
is noted first, so that a trial can be taken back, and it is reported to the sink when the statement
has come to its end. Whoever holds nodes or cells when a part fails gives them up, so that a failed
parse leaves no tuples behind. Levels of nesting are counted while they are open.
-/

namespace TupleLang

/-- A parser at work. -/
structure Parser where
  store : Store
  /-- Where names are looked up; it becomes the parent of the tuples of literals. -/
  scope : TupleId
  cursor : Cursor
  /-- Where errors are reported. -/
  sink : Diagnostics := {}
  /-- Errors of the current statement that are not reported yet, with their places. -/
  pending : List (String × Span) := []
  /-- Messages of the errors reported so far. -/
  errors : List String := []
  /-- Number of levels of nesting that are open. -/
  depth : Nat := 0

/-- What parsing gives back. -/
structure Parsed (α : Type) where
  result : α
  diagnostics : List Diagnostic
  store : Store
  cursor : Cursor

namespace Parser

/-! ## Tokens -/

/-- The token under the cursor. -/
def current : StateM Parser Token := return (← get).cursor.current

/-- The token `offset` places ahead. -/
def peek (offset : Nat) : StateM Parser Token := return (← get).cursor.peek offset

/-- Move the cursor forward. -/
def advance (n : Nat) : StateM Parser Unit :=
  modify fun p => { p with cursor := p.cursor.advance n }

/-- Number of rounds that a loop which passes a token in each round can make. -/
def rounds : StateM Parser Nat := return (← get).cursor.remaining + 1

/-- Move the cursor to the end of the statement. -/
def skipStatement : StateM Parser Unit :=
  modify fun p => { p with cursor := p.cursor.skipStatement }

/-! ## Errors -/

/-- Note an error at a place. -/
def complain (message : String) (span : Span) : StateM Parser Unit :=
  modify fun p => { p with pending := p.pending ++ [(message, span)] }

/-- Note an error at the token under the cursor. -/
def complainHere (message : String) : StateM Parser Unit := do complain message (← current).span

/-- Note that a loop has gone round more often than there are tokens. -/
def stall : StateM Parser Unit := complain "parsing makes no progress" {}

/-- Report the errors noted. -/
def flush : StateM Parser Unit := modify fun p =>
  { p with
    sink := p.pending.foldl (fun sink e => sink.error e.1 e.2) p.sink
    errors := p.errors ++ p.pending.map (·.1)
    pending := [] }

/-! ## Trials -/

/-- A place to go back to. -/
structure Mark where
  position : Nat
  /-- Number of errors noted there. -/
  errors : Nat

/-- The place where the parser is. -/
def mark : StateM Parser Mark := return ⟨(← get).cursor.pos, (← get).pending.length⟩

/-- Go back to a place, and forget the errors noted since. -/
def rewind (m : Mark) : StateM Parser Unit := modify fun p =>
  { p with cursor := p.cursor.seek m.position, pending := p.pending.take m.errors }

/-! ## Store -/

/-- Make a new cell. -/
def newCell (make : Heap → Cell × Heap) : StateM Parser Cell := modifyGet fun p =>
  let (cell, heap) := make p.store.heap
  (cell, { p with store := { p.store with heap } })

/-- Run an operation on the store; an error is noted at the token under the cursor. -/
def onStore {α : Type} (m : StoreM α) : StateM Parser (Option α) := do
  match m (← get).store with
  | .ok a store =>
    modify ({ · with store })
    return some a
  -- what the operation did before it failed stays done
  | .error e store =>
    modify ({ · with store })
    complainHere e.message
    return none

/-- Give up the tuples of cells. -/
def giveUpCells (cells : List Cell) : StateM Parser Unit := modify fun p =>
  { p with store := p.store.releaseAll cells }

/-- Give up the tuples of nodes. -/
def giveUp (nodes : List Node) : StateM Parser Unit := modify fun p =>
  { p with store := p.store.releaseNodes nodes }

/-! ## Nesting -/

/-- Run a parser one level deeper, or another one if the settings allow no more levels. -/
def deeper {α : Type} (parse tooDeep : StateM Parser (Option α)) : StateM Parser (Option α) := do
  modify fun p => { p with depth := p.depth + 1 }
  -- the level counts before it is checked, and no longer afterwards, however it went
  let p ← get
  let result ← if p.store.settings.allows p.depth then parse else tooDeep
  modify fun p => { p with depth := p.depth - 1 }
  return result

/-- Note that there are too many levels. -/
def refuse {α : Type} (what : String) : StateM Parser (Option α) := do
  let limit := (← get).store.settings.maxDepth
  complainHere s!"{what} nested deeper than {limit} levels"
  return none

/-- Run a parser one level deeper. -/
def nested {α : Type} (what : String) (parse : StateM Parser (Option α)) :
    StateM Parser (Option α) :=
  deeper parse (refuse what)

end Parser

end TupleLang
