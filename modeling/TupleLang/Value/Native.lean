import TupleLang.Value

/-!
# Native types

The scalar types that a host reads and writes cells with. Each has a carrier, a default logical type
and the set of logical types whose cells may be read with it; two of them stand for more than one
logical type, which a hint tells apart.
-/

namespace TupleLang

/-- The scalar types of the host. -/
inductive Native where
  | bool | byte | char | int | long | unsigned | float | name | bytes | text | regex | namePath
  | path | type
  deriving DecidableEq, Repr

/-- Tells the logical types of one native type apart. -/
inductive Hint where
  /-- The default mapping. -/
  | default
  /-- An unsigned number as a count or position. -/
  | index
  /-- An unsigned number as a set of bits. -/
  | bits
  /-- A name as a piece of program text. -/
  | sigil
  deriving DecidableEq, Repr

/-- The word for a hint. -/
def Hint.text : Hint → String
  | .default => "None"
  | .index => "Index"
  | .bits => "Bits"
  | .sigil => "Syntax"

namespace Native

/-- The Lean type of the values of a native type. -/
abbrev Carrier : Native → Type
  | bool => Bool
  | byte => UInt8
  | char => Char
  | int => Int32
  | long => Int64
  | unsigned => UInt64
  | float => Float
  | name => String
  | bytes => List UInt8
  | text => String
  | regex => String
  | namePath => List String
  | path => String
  | type => TypeDesc

/-- Name of the default logical type. -/
def typeName : Native → String
  | bool => "bool"
  | byte => "byte"
  | char => "char"
  | int => "int"
  | long => "long"
  | unsigned => "index"
  | float => "float"
  | name => "name"
  | bytes => "bytes"
  | text => "text"
  | regex => "regex"
  | namePath => "namepath"
  | path => "path"
  | type => "type"

/-- The word for the stored form of a native type. -/
def kindName : Native → String
  | unsigned => "unsigned"
  | n => n.typeName

/-- Every native type. -/
def all : List Native :=
  [bool, byte, char, int, long, unsigned, float, name, bytes, text, regex, namePath, path, type]

/-- The native type whose stored form has the given word. -/
def ofKindName? (word : String) : Option Native := all.find? (·.kindName == word)

/-- How the host spells the native type; messages about hints quote it. -/
def hostName : Native → String
  | bool => "bool"
  | byte => "u8"
  | char => "char"
  | int => "i32"
  | long => "i64"
  | unsigned => "u64"
  | float => "f64"
  | name => "tuplex::value::native::Name"
  | bytes => "alloc::vec::Vec<u8>"
  | text => "alloc::string::String"
  | regex => "tuplex::value::native::Pattern"
  | namePath => "tuplex::value::native::NamePath"
  | path => "std::path::PathBuf"
  | type => "tuplex::types::TypeTuple"

/-- Name of the logical type under a hint, if the hint applies. -/
def hinted? : Native → Hint → Option String
  | unsigned, .index => some "index"
  | unsigned, .bits => some "bits"
  | name, .sigil => some "syntax"
  | n, .default => some n.typeName
  | _, _ => none

/-- Whether cells of the logical type `typeName` may be read with this native type. -/
def accepts (n : Native) (typeName : String) : Bool :=
  typeName == n.typeName
    || (n == unsigned && typeName == "bits")
    || (n == name && typeName == "syntax")

/-- The stored form of a native value. -/
def wrap : (n : Native) → n.Carrier → Value
  | bool, b => .bool b
  | byte, b => .byte b
  | char, c => .char c
  | int, n => .int n
  | long, n => .long n
  | unsigned, n => .unsigned n
  | float, x => .float x
  | name, s => .name s
  | bytes, bs => .bytes bs
  | text, s => .text s
  | regex, s => .regex s
  | namePath, segments => .namePath segments
  | path, s => .path s
  | type, t => .type t

/-- The native value of a stored form, if it is of this native type. -/
def unwrap? : (n : Native) → Value → Option n.Carrier
  | bool, .bool b => some b
  | byte, .byte b => some b
  | char, .char c => some c
  | int, .int n => some n
  | long, .long n => some n
  | unsigned, .unsigned n => some n
  | float, .float x => some x
  | name, .name s => some s
  | bytes, .bytes bs => some bs
  | text, .text s => some s
  | regex, .regex s => some s
  | namePath, .namePath segments => some segments
  | path, .path s => some s
  | type, .type t => some t
  | _, _ => none

/-- Reading back a stored native value gives that value. -/
@[simp] theorem unwrap?_wrap (n : Native) (v : n.Carrier) : n.unwrap? (n.wrap v) = some v := by
  cases n <;> rfl

end Native

end TupleLang
