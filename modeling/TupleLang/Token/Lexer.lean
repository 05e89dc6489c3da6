import TupleLang.Token.Cursor

/-!
# Lexer

Source text is cut into tokens by a list of rules. At every place the rule with the longest match
wins, and among equally long matches the first rule of the list, so that reserved words come before
identifiers. Blanks and `//` comments match rules without a token kind and are passed over. Where no
rule matches, a single character becomes an invalid token.

A literal that is opened and never completed has rules of its own: the opening of a quoted literal
with all the items behind it, and the opening of a byte string with its leading pairs of digits,
are one invalid token.
-/

namespace TupleLang.Lexer

/-! ## Character classes -/

/-- Space, tab, carriage return, line feed and form feed. -/
def isBlank (c : Char) : Bool :=
  c == ' ' || c == '\t' || c == '\r' || c == '\n' || c == '\x0c'

/-- Digits of base sixteen, in either case. -/
def isHexDigit (c : Char) : Bool :=
  c.isDigit || ('a' ≤ c && c ≤ 'f') || ('A' ≤ c && c ≤ 'F')

/-- Characters an identifier starts with. -/
def isWordStart (c : Char) : Bool := c.isAlpha || c == '_'

/-- Characters an identifier goes on with. -/
def isWordPart (c : Char) : Bool := c.isAlphanum || c == '_'

/-! ## Matchers

A matcher gives the number of characters that it takes from the front of the text; zero means that
it does not match. -/

/-- Number of leading characters in a class. -/
def run (p : Char → Bool) (cs : List Char) : Nat := (cs.takeWhile p).length

/-- A fixed spelling. -/
def fixed (spelling : String) (cs : List Char) : Nat :=
  if spelling.toList.isPrefixOf cs then spelling.length else 0

/-- An identifier. -/
def word : List Char → Nat
  | c :: cs => if isWordStart c then 1 + run isWordPart cs else 0
  | [] => 0

/-- A match that must not be empty, with `n` more characters in front of it. -/
def after (n : Nat) (size : Nat) : Nat := if size = 0 then 0 else n + size

/-- Digits with a one-letter suffix. -/
def suffixed (letter : Char) (cs : List Char) : Nat :=
  let n := run Char.isDigit cs
  if n ≠ 0 ∧ cs[n]? = some letter then n + 1 else 0

/-- A number in base sixteen. -/
def hexNumber : List Char → Nat
  | '0' :: 'x' :: cs => after 2 (run isHexDigit cs)
  | _ => 0

/-- An exponent: `e` or `E`, an optional sign, digits. -/
def exponent : List Char → Nat
  | e :: cs =>
    if e == 'e' || e == 'E' then
      match cs with
      | '+' :: ds => after 2 (run Char.isDigit ds)
      | '-' :: ds => after 2 (run Char.isDigit ds)
      | ds => after 1 (run Char.isDigit ds)
    else 0
  | [] => 0

/-- A number with a fraction, an exponent or both. -/
def floatNumber (cs : List Char) : Nat :=
  let whole := run Char.isDigit cs
  if whole = 0 then 0
  else
    match cs.drop whole with
    | '.' :: rest =>
      let fraction := run Char.isDigit rest
      -- a point without digits behind it does not belong to the number
      if fraction = 0 then 0 else whole + 1 + fraction + exponent (rest.drop fraction)
    | rest => after whole (exponent rest)

/-- A byte: `b'`, two digits of base sixteen, `'`. -/
def byteLiteral : List Char → Nat
  | 'b' :: '\'' :: x :: y :: '\'' :: _ => if isHexDigit x && isHexDigit y then 5 else 0
  | _ => 0

/-- A character between quotes, or an escaped one. -/
def charLiteral : List Char → Nat
  -- an escaped character, then one that stands for itself
  | '\'' :: '\\' :: c :: '\'' :: _ => if c == '\n' then 0 else 4
  | '\'' :: c :: '\'' :: _ => if c == '\'' || c == '\\' then 0 else 3
  | _ => 0

/-- Leading pairs of digits of base sixteen. -/
def hexPairs : List Char → Nat
  | x :: y :: cs => if isHexDigit x && isHexDigit y then 2 + hexPairs cs else 0
  | _ => 0

/-- Leading pairs of digits of base sixteen, each with something behind it. -/
def hexPairsInside : List Char → Nat
  | x :: y :: c :: cs => if isHexDigit x && isHexDigit y then 2 + hexPairsInside (c :: cs) else 0
  | _ => 0

/-- A byte string: `B'`, pairs of digits, `'`. -/
def bytesLiteral : List Char → Nat
  | 'B' :: '\'' :: cs =>
    let n := hexPairs cs
    if cs[n]? = some '\'' then n + 3 else 0
  | _ => 0

/-- A byte string that is opened only. -/
def bytesOpening : List Char → Nat
  | 'B' :: '\'' :: cs => 2 + hexPairsInside cs
  | _ => 0

/-- Leading items of a quoted literal: characters other than `"` and a backslash, and a backslash
with the character behind it unless that is a line feed. -/
def quotedItems : List Char → Nat
  | '\\' :: c :: cs => if c == '\n' then 0 else 2 + quotedItems cs
  | c :: cs => if c == '"' || c == '\\' then 0 else 1 + quotedItems cs
  | [] => 0

/-- A quoted literal behind an opening of `n` characters, closed by `"`. -/
def closedQuote (n : Nat) (cs : List Char) : Nat :=
  let items := quotedItems cs
  if cs[items]? = some '"' then n + items + 1 else 0

/-- A quoted literal introduced by `letter`. -/
def quotedAfter (letter : Char) : List Char → Nat
  | c :: '"' :: cs => if c == letter then closedQuote 2 cs else 0
  | _ => 0

/-- A quoted literal without an introducing letter. -/
def quoted : List Char → Nat
  | '"' :: cs => closedQuote 1 cs
  | _ => 0

/-- A quoted literal that is opened only. -/
def quotedOpening : List Char → Nat
  | '"' :: cs => 1 + quotedItems cs
  | 'R' :: '"' :: cs => 2 + quotedItems cs
  | 'F' :: '"' :: cs => 2 + quotedItems cs
  | _ => 0

/-- The rest of a dotted path inside one of its names. -/
def pathRest : List Char → Nat
  | c :: cs =>
    if isWordPart c then 1 + pathRest cs
    -- a point belongs to the path only in front of another name
    else if c == '.' && (cs.head?.any isWordStart) then 1 + pathRest cs
    else 0
  | [] => 0

/-- A dotted path of names behind `@`. -/
def dottedPath : List Char → Nat
  | '@' :: c :: cs => if isWordStart c then 2 + pathRest cs else 0
  | _ => 0

/-- A name behind `$`. -/
def sigilName : List Char → Nat
  | '$' :: cs => after 1 (word cs)
  | _ => 0

/-- A comment up to the end of its line. -/
def comment : List Char → Nat
  | '/' :: '/' :: cs => 2 + run (· != '\n') cs
  | _ => 0

/-! ## Rules -/

/-- A lexical rule: what it makes of its match, a token kind or nothing, and the matcher. -/
structure Rule where
  kind : Option TokenKind
  size : List Char → Nat

/-- Words that are no identifiers. -/
def keywords : List String :=
  ["if", "then", "else", "is", "not", "return", "raise", "break", "continue"]

/-- Operator punctuation. -/
def symbols : List String :=
  ["=", "+=", "-=", "*=", "/=", "%=", "||", "&&", "|", "^", "&", "==", "!=", "<", "<=", ">", ">=",
   "<=>", "<<", ">>", "+", "-", "*", "/", "%", "!", "~", "?", ":"]

/-- Spellings with a kind of their own. -/
def spellings : List (String × TokenKind) :=
  [("void", .voidWord), ("true", .trueWord), ("false", .falseWord)]
    ++ keywords.map (·, .keyword)
    ++ [("P(", .plainOpen), ("D(", .dynamicOpen), ("E(", .dataOpen), ("T(", .typeOpen),
        ("(", .lparen), (")", .rparen), (",", .comma), (";", .semicolon)]
    ++ symbols.map (·, .symbol)

/-- Rules for what is passed over. -/
def blankRules : List Rule := [⟨none, run isBlank⟩, ⟨none, comment⟩]

/-- Rules for the fixed spellings. -/
def spellingRules : List Rule := spellings.map fun (text, kind) => ⟨some kind, fixed text⟩

/-- Rules for literals and identifiers. -/
def literalRules : List Rule :=
  [⟨some .byte, byteLiteral⟩, ⟨some .char, charLiteral⟩,
   ⟨some .long, suffixed 'L'⟩, ⟨some .index, suffixed 'u'⟩, ⟨some .bits, hexNumber⟩,
   ⟨some .int, run Char.isDigit⟩, ⟨some .float, floatNumber⟩,
   ⟨some .ident, word⟩, ⟨some .sigil, sigilName⟩, ⟨some .bytes, bytesLiteral⟩,
   ⟨some .text, quoted⟩, ⟨some .regex, quotedAfter 'R'⟩, ⟨some .namePath, dottedPath⟩,
   ⟨some .path, quotedAfter 'F'⟩,
   -- a literal that is completed is longer than its opening
   ⟨some .invalid, quotedOpening⟩, ⟨some .invalid, bytesOpening⟩]

/-- The rules, in order of preference among equally long matches. -/
def rules : List Rule := blankRules ++ spellingRules ++ literalRules

/-- The better of a match found so far and the match of one more rule: the longer one, and the
earlier one if they are equally long. -/
def better (cs : List Char) (best : Option TokenKind × Nat) (rule : Rule) :
    Option TokenKind × Nat :=
  if best.2 < rule.size cs then (rule.kind, rule.size cs) else best

/-- The winning match at the front of the text; length zero if no rule matches. -/
def longest (cs : List Char) : Option TokenKind × Nat :=
  rules.foldl (better cs) (some .invalid, 0)

/-! ## Positions and the lexer itself -/

/-- A place between two characters of the source. -/
structure Position where
  /-- Bytes before this place. -/
  offset : Nat := 0
  /-- Line number, from one. -/
  line : Nat := 1
  /-- Column number in bytes, from one. -/
  column : Nat := 1
  deriving DecidableEq, Repr

/-- The place behind a character. -/
def Position.after (p : Position) (c : Char) : Position :=
  { offset := p.offset + c.utf8Size
    line := if c == '\n' then p.line + 1 else p.line
    column := if c == '\n' then 1 else p.column + c.utf8Size }

/-- The token of kind `kind` with text `cs` that starts at `p`. -/
def tokenAt (p : Position) (kind : TokenKind) (cs : List Char) : Token :=
  let text := String.ofList cs
  let stop := p.offset + text.utf8ByteSize
  { kind, text, span := { start := p.offset, stop, line := p.line, column := p.column } }

/-- The tokens of a text that starts at place `p`, whose first `skip` characters belong to a match
that has been dealt with. -/
def tokensFrom : (skip : Nat) → (p : Position) → List Char → List Token
  | _, _, [] => []
  -- inside the last match only the place moves on
  | skip + 1, p, c :: cs => tokensFrom skip (p.after c) cs
  | 0, p, c :: cs =>
    let (kind, size) := longest (c :: cs)
    let rest := tokensFrom (size - 1) (p.after c) cs
    match kind with
    | none => rest
    -- where no rule matches, one character is taken
    | some kind => tokenAt p kind ((c :: cs).take (max size 1)) :: rest

/-- The tokens of a source text. -/
def tokenize (source : String) : List Token := tokensFrom 0 {} source.toList

end TupleLang.Lexer

namespace TupleLang

/-- A cursor at the first token of a source text. -/
def Cursor.ofSource (source : String) : Cursor := Cursor.ofTokens (Lexer.tokenize source)

end TupleLang
