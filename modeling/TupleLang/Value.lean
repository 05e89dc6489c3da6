import TupleLang.Decimal.Shortest
import TupleLang.Text.Escape
import TupleLang.Text.Hex
import TupleLang.TypeDesc.Text

/-!
# Values

A `Value` is what a storage place holds. It is the stored form only: the logical type stands beside
it in the cell, and several logical types share one form. `index` and `bits` are both unsigned
numbers, `name` and `syntax` are both names. A nested tuple is stored as its id in the arena.
-/

namespace TupleLang

/-- Handle of a tuple in an arena: a slot and the generation of its occupant. -/
structure TupleId where
  index : Nat
  generation : UInt32
  deriving DecidableEq, Repr

/-- The text of a tuple id. -/
def TupleId.text (id : TupleId) : String := s!"tuple#{id.index}.{id.generation}"

/-- Stored form of a value. -/
inductive Value where
  | void
  | bool (b : Bool)
  | byte (b : UInt8)
  | char (c : Char)
  | int (n : Int32)
  | long (n : Int64)
  | unsigned (n : UInt64)
  | float (x : Float)
  | name (s : String)
  | bytes (bs : List UInt8)
  | text (s : String)
  /-- Source of a regular expression. -/
  | regex (s : String)
  /-- A dotted path of names, by its segments. -/
  | namePath (segments : List String)
  | path (s : String)
  | type (t : TypeDesc)
  /-- A tuple of the arena. -/
  | tuple (id : TupleId)

namespace Value

instance : Inhabited Value := ⟨void⟩

/-- The word for the stored form. -/
def kindName : Value → String
  | void => "void"
  | bool _ => "bool"
  | byte _ => "byte"
  | char _ => "char"
  | int _ => "int"
  | long _ => "long"
  | unsigned _ => "unsigned"
  | float _ => "float"
  | name _ => "name"
  | bytes _ => "bytes"
  | text _ => "text"
  | regex _ => "regex"
  | namePath _ => "namepath"
  | path _ => "path"
  | type _ => "type"
  | tuple _ => "tuple"

/-- Whether there is no value. -/
def isVoid : Value → Bool
  | void => true
  | _ => false

/-- The id of a nested tuple. -/
def tupleId? : Value → Option TupleId
  | tuple id => some id
  | _ => none

/-! ## Text forms -/

/-- The text of a value on its own, without the marks of a literal. -/
def plainText : Value → String
  | void => "void"
  | bool b => if b then "true" else "false"
  | byte b => toString b.toNat
  | char c => String.singleton c
  | int n => toString n.toInt
  | long n => toString n.toInt
  | unsigned n => toString n.toNat
  | float x => Decimal.text x
  | name s => s
  | bytes bs => "[" ++ ", ".intercalate (bs.map fun b => toString b.toNat) ++ "]"
  | text s => s
  | regex s => s
  | namePath segments => ".".intercalate segments
  | path s => s
  | type t => t.text
  | tuple id => id.text

/-- The text of a value with numbers and bytes in base sixteen. -/
def hexText : Value → String
  | byte b => String.ofList (Hex.byte b)
  | unsigned n => Hex.number n.toNat
  | bytes bs => Hex.bytes bs
  | other => other.plainText

/-- The text of a character, escaped for single quotes. -/
def charText : Value → String
  | char c => Escape.encode '\'' (String.singleton c)
  | other => other.plainText

/-- The text of a value, escaped for double quotes. -/
def quotedText : Value → String
  | text s => Escape.encode '"' s
  | regex s => Escape.encode '"' s
  | path s => Escape.encode '"' s
  | other => other.plainText

end Value

end TupleLang
