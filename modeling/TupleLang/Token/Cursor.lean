import TupleLang.Token

/-!
# Token cursor

A cursor is a position in a list of tokens. Looking past the last token gives the end-of-input
token, which stands right behind the last one.
-/

namespace TupleLang

/-- A position in a sequence of tokens. -/
structure Cursor where
  /-- The tokens, without the end of input. -/
  tokens : Array Token
  /-- Number of tokens already passed. -/
  pos : Nat := 0
  /-- The token that stands for the end of input. -/
  eof : Token

namespace Cursor

/-- The end-of-input token behind `tokens`. -/
def eofAfter (tokens : Array Token) : Token :=
  let last := (tokens.back?.map (·.span)).getD {}
  { kind := .eof
    text := ""
    span :=
      { start := last.stop
        stop := last.stop
        -- without any token this is the first line
        line := max last.line 1
        column := last.column + (last.stop - last.start) } }

/-- A cursor at the first of `tokens`. -/
def ofTokens (tokens : List Token) : Cursor :=
  { tokens := tokens.toArray, eof := eofAfter tokens.toArray }

/-- The token `offset` places ahead. -/
def peek (c : Cursor) (offset : Nat) : Token := (c.tokens[c.pos + offset]?).getD c.eof

/-- The token under the cursor. -/
def current (c : Cursor) : Token := c.peek 0

/-- Move to an absolute position, at most the end of input. -/
def seek (c : Cursor) (position : Nat) : Cursor := { c with pos := min position c.tokens.size }

/-- Move forward by `n` tokens, at most to the end of input. -/
def advance (c : Cursor) (n : Nat) : Cursor := c.seek (c.pos + n)

/-- Whether the token under the cursor marks the end of input. -/
def atEnd (c : Cursor) : Bool := c.current.kind == .eof

/-- Number of tokens still ahead. -/
def remaining (c : Cursor) : Nat := c.tokens.size - c.pos

/-- Number of tokens to pass before the statement under the cursor ends. -/
def statementRest (c : Cursor) : Nat :=
  ((c.tokens.toList.drop c.pos).takeWhile fun t => !t.kind.endsStatement).length

/-- Move to the `;` or the end of input that ends the current statement. -/
def skipStatement (c : Cursor) : Cursor := c.advance c.statementRest

@[simp] theorem pos_seek (c : Cursor) (position : Nat) :
    (c.seek position).pos = min position c.tokens.size := rfl

@[simp] theorem tokens_seek (c : Cursor) (position : Nat) :
    (c.seek position).tokens = c.tokens := rfl

/-- Moving forward leaves as many tokens fewer. -/
theorem remaining_advance (c : Cursor) (n : Nat) : (c.advance n).remaining = c.remaining - n := by
  simp only [advance, remaining, seek]
  omega

end Cursor

end TupleLang
