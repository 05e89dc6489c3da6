/-!
# Tokens

A token is a classified piece of source text together with its place in the source.
-/

namespace TupleLang

/-- Classification of tokens. -/
inductive TokenKind where
  /-- The word `void`. -/
  | voidWord
  /-- The word `true`. -/
  | trueWord
  /-- The word `false`. -/
  | falseWord
  /-- One of `if then else is not return raise break continue`. -/
  | keyword
  /-- A byte, `b'2a'`. -/
  | byte
  /-- A character, `'c'`. -/
  | char
  /-- A whole number, `42`. -/
  | int
  /-- A long number, `42L`. -/
  | long
  /-- An unsigned number, `42u`. -/
  | index
  /-- A set of bits, `0x2a`. -/
  | bits
  /-- A floating point number, `4.5`. -/
  | float
  /-- An identifier, `foo`. -/
  | ident
  /-- A piece of program text, `$foo`. -/
  | sigil
  /-- A byte string, `B'0a0b'`. -/
  | bytes
  /-- A text, `"text"`. -/
  | text
  /-- A regular expression, `R"a+"`. -/
  | regex
  /-- A dotted path of names, `@a.b.c`. -/
  | namePath
  /-- A path of files, `F"/tmp"`. -/
  | path
  /-- Opens a plain tuple, `P(`. -/
  | plainOpen
  /-- Opens a dynamic tuple, `D(`. -/
  | dynamicOpen
  /-- Opens a data tuple, `E(`. -/
  | dataOpen
  /-- Opens a type, `T(`. -/
  | typeOpen
  /-- An opening parenthesis. -/
  | lparen
  /-- A closing parenthesis. -/
  | rparen
  /-- A comma. -/
  | comma
  /-- A semicolon. -/
  | semicolon
  /-- Operator punctuation, `?` and `:` included. -/
  | symbol
  /-- Unrecognized input. -/
  | invalid
  /-- End of input. -/
  | eof
  deriving DecidableEq, Repr

namespace TokenKind

/-- Every kind with its label. -/
def labels : List (TokenKind × String) :=
  [(voidWord, "Void"), (trueWord, "True"), (falseWord, "False"), (keyword, "Keyword"),
   (byte, "Byte"), (char, "Char"), (int, "Int"), (long, "Long"), (index, "Index"), (bits, "Bits"),
   (float, "Float"), (ident, "Ident"), (sigil, "Syntax"), (bytes, "Bytes"), (text, "Text"),
   (regex, "Regex"), (namePath, "NamePath"), (path, "Path"), (plainOpen, "PlainOpen"),
   (dynamicOpen, "DynamicOpen"), (dataOpen, "DataOpen"), (typeOpen, "TypeOpen"),
   (lparen, "LParen"), (rparen, "RParen"), (comma, "Comma"), (semicolon, "Semicolon"),
   (symbol, "Symbol"), (invalid, "Invalid"), (eof, "Eof")]

/-- The label of a kind. -/
def label (k : TokenKind) : String := (labels.lookup k).getD ""

/-- The kind with the given label. -/
def ofLabel? (label : String) : Option TokenKind := (labels.find? (·.2 == label)).map (·.1)

/-- Whether a token of this kind is a scalar literal. -/
def isLiteral : TokenKind → Bool
  | voidWord | trueWord | falseWord | byte | char | int | long | index | bits | float | sigil
  | bytes | text | regex | namePath | path => true
  | _ => false

/-- Whether a token of this kind opens a tuple or type literal. -/
def isTupleOpen : TokenKind → Bool
  | plainOpen | dynamicOpen | dataOpen | typeOpen => true
  | _ => false

/-- Whether a token of this kind ends a statement. -/
def endsStatement : TokenKind → Bool
  | semicolon | eof => true
  | _ => false

end TokenKind

/-- Place of a token in the source. Offsets and columns count bytes. -/
structure Span where
  /-- Offset of the first byte. -/
  start : Nat := 0
  /-- Offset past the last byte. -/
  stop : Nat := 0
  /-- Line number, from one. -/
  line : Nat := 0
  /-- Column number, from one. -/
  column : Nat := 0
  deriving DecidableEq, Repr, Inhabited

/-- The text `LINE:COLUMN` of a place. -/
def Span.text (s : Span) : String := s!"{s.line}:{s.column}"

/-- A token: its kind, its source text and its place. -/
structure Token where
  kind : TokenKind
  text : String
  span : Span
  deriving DecidableEq, Repr

/-- Whether the token is the operator or keyword spelled `text`. -/
def Token.isWord (t : Token) (text : String) : Bool :=
  (t.kind == .symbol || t.kind == .keyword) && t.text == text

end TupleLang
