import TupleLang.Decimal.Reading
import TupleLang.Error
import TupleLang.Text.Cut
import TupleLang.Token
import TupleLang.Word

/-!
# Scalar literals

The value and the logical type of a literal token. A whole number without a suffix is an `int` if it
fits and a `long` otherwise. A minus sign in front of a number belongs to the literal where
`negative` says so.
-/

namespace TupleLang.Literal

/-- A value together with the name of its logical type. -/
structure Typed where
  type : String
  value : Value

/-- A native value under its default logical type. -/
def native (n : Native) (v : n.Carrier) : Typed := ⟨n.typeName, n.wrap v⟩

/-- The number of a numeral, with the sign in front of it. -/
def integer? (text : String) (negative : Bool) : Except String Int :=
  match Numeral.signed? text with
  | some n => .ok (if negative then -n else n)
  | none => .error s!"integer literal `{text}` out of range"

/-- A number as a word, if it is in range. -/
def word? (w : Word) (n : Int) : Option Typed := (w.ofInt? n).map fun x => native w.native x

/-- A literal, or the message that explains why there is none. -/
def orFail (literal : Option Typed) (message : String) : Except String Typed :=
  match literal with
  | some typed => .ok typed
  | none => .error message

/-- Read a literal token. -/
def read (token : Token) (negative : Bool) : Except String Typed :=
  let text := token.text
  match token.kind with
  | .voidWord => .ok ⟨"void", .void⟩
  | .trueWord => .ok (native .bool true)
  | .falseWord => .ok (native .bool false)
  | .int => do
    let n ← integer? text negative
    orFail ((word? .int n).or (word? .long n)) s!"integer literal `{text}` out of range"
  | .long => do
    let n ← integer? (Cut.inside 0 1 text) negative
    orFail (word? .long n) s!"long literal `{text}` out of range"
  | .float =>
    orFail
      ((Decimal.read? text).map fun (x : Float) => native .float (if negative then -x else x))
      s!"invalid float literal `{text}`"
  | .index =>
    orFail
      ((Numeral.unsigned? 10 UInt64.size (Cut.inside 0 1 text)).map fun n =>
        ⟨"index", .unsigned (UInt64.ofNat n)⟩)
      s!"index literal `{text}` out of range"
  | .bits =>
    orFail
      ((Numeral.unsigned? 16 UInt64.size (Cut.inside 2 0 text)).map fun n =>
        ⟨"bits", .unsigned (UInt64.ofNat n)⟩)
      s!"bits literal `{text}` out of range"
  | .byte =>
    orFail ((Hex.readByte? (Cut.inside 2 1 text)).map fun b => native .byte b)
      s!"invalid byte literal `{text}`"
  | .bytes =>
    orFail ((Hex.readBytes? (Cut.inside 2 1 text).toList).map fun bs => native .bytes bs)
      s!"invalid bytes literal `{text}`"
  | .char =>
    match (Escape.decode (Cut.inside 1 1 text)).toList with
    | [c] => .ok (native .char c)
    | _ => .error s!"invalid char literal `{text}`"
  | .text => .ok (native .text (Escape.decode (Cut.inside 1 1 text)))
  | .regex => .ok (native .regex (Escape.decode (Cut.inside 2 1 text)))
  | .path => .ok (native .path (Escape.decode (Cut.inside 2 1 text)))
  | .namePath =>
    .ok (native .namePath (((Cut.inside 1 0 text).toList.splitOn '.').map String.ofList))
  | .sigil => .ok ⟨"syntax", .name (Cut.inside 1 0 text)⟩
  | .ident => .ok (native .name text)
  | _ => .error s!"`{text}` is not a literal"

end TupleLang.Literal
