/-!
# Text layout

Whatever is shown as text is first described as a list of *pieces*: words, punctuation, operators,
indented blocks and line breaks. `Layout` places the pieces one after the other: single spaces
between words, punctuation attached to its neighbours, two spaces of indentation per block.
-/

namespace TupleLang

/-- One element of a text to be laid out. -/
inductive Piece where
  /-- A name, a literal or a keyword. -/
  | word (text : String)
  /-- Punctuation that attaches to its neighbours. -/
  | punct (text : String)
  /-- An operator, spaced on both sides. -/
  | operator (text : String)
  /-- Indent the lines that follow one level deeper. -/
  | startBlock
  /-- Indent the lines that follow one level less. -/
  | endBlock
  /-- Start a new line at the current indentation. -/
  | lineBreak
  deriving DecidableEq, Repr

/-- What the text placed last ends with. -/
inductive Layout.Edge where
  | lineStart | word | opening | closing | separator | attached | operator
  deriving DecidableEq, Repr

/-- A text under construction. -/
structure Layout where
  /-- The text so far. -/
  text : String := ""
  /-- Indentation levels of the next line. -/
  indent : Nat := 0
  /-- What the text ends with. -/
  last : Layout.Edge := .lineStart
  deriving DecidableEq, Repr

namespace Layout

/-- Whether a word needs a space after this edge. -/
def Edge.spacesWord : Edge → Bool
  | .word | .closing | .separator | .operator => true
  | .lineStart | .opening | .attached => false

/-- Whether an opening bracket needs a space after this edge. -/
def Edge.spacesOpening : Edge → Bool
  | .separator | .operator => true
  | _ => false

/-- Whether an operator needs a space after this edge. -/
def Edge.spacesOperator : Edge → Bool
  | .lineStart | .opening => false
  | _ => true

/-- The edge that a punctuation mark leaves behind. -/
def Edge.ofPunct : String → Edge
  | "(" | "[" => .opening
  | ")" | "]" => .closing
  | "," | ";" => .separator
  | _ => .attached

/-- A single space where one is needed. -/
def gap (needed : Bool) : String := if needed then " " else ""

/-- The line break together with the indentation of the new line. -/
def newline (indent : Nat) : String := "\n" ++ String.ofList (List.replicate (2 * indent) ' ')

/-- Place one piece. -/
def add (l : Layout) : Piece → Layout
  | .word w => { l with text := l.text ++ gap l.last.spacesWord ++ w, last := .word }
  | .punct p =>
    -- a mark attaches to what stands before it, but a bracket does not open right behind a comma or
    -- an operator
    let edge := Edge.ofPunct p
    let space := gap (edge == .opening && l.last.spacesOpening)
    { l with text := l.text ++ space ++ p, last := edge }
  | .operator o => { l with text := l.text ++ gap l.last.spacesOperator ++ o, last := .operator }
  -- blocks take effect at the next line break
  | .startBlock => { l with indent := l.indent + 1 }
  | .endBlock => { l with indent := l.indent - 1 }
  | .lineBreak => { l with text := l.text ++ newline l.indent, last := .lineStart }

/-- Place pieces one after the other. -/
def addAll (l : Layout) (pieces : List Piece) : Layout := pieces.foldl add l

@[simp] theorem addAll_nil (l : Layout) : l.addAll [] = l := rfl

@[simp] theorem addAll_cons (l : Layout) (p : Piece) (ps : List Piece) :
    l.addAll (p :: ps) = (l.add p).addAll ps := rfl

/-- The laid out text of a list of pieces. -/
def render (pieces : List Piece) : String := (({} : Layout).addAll pieces).text

end Layout

end TupleLang
