import TupleLang.Builtin.Double
import TupleLang.Store.Registry
import TupleLang.Word.Arithmetic

/-!
# The language's own actions

The actions of the root scope: operators on numbers, truth values and texts, conversions and other
functions, assignment, conditionals, type tests and control signals. Doubles define only the
three-way comparison, and the parser makes the relational operators from it.
-/

namespace TupleLang.Builtin

/-! ## Shapes of signatures -/

/-- An operator on leaf types. -/
def operator (name owner : String) (args : List String) (returns : String) (body : Body) :
    Action where
  signature := .operator (.leaf owner) name (.leaf returns) (.leaves args)
  body := body

/-- A function on leaf types. -/
def function (name : String) (args : List String) (returns : String) (body : Body) : Action where
  signature := .function name (.leaf returns) (.leaves args)
  body := body

/-- A binary operator with a native result. -/
def binary (name owner arg returns : String) (a b r : Native)
    (f : a.Carrier → b.Carrier → Except Condition r.Carrier) : Action :=
  operator name owner [arg] returns (.binary a b r returns f)

/-- A unary operator with a native result. -/
def unary (name owner returns : String) (a r : Native)
    (f : a.Carrier → Except Condition r.Carrier) : Action :=
  operator name owner [] returns (.unary a r returns f)

/-- A compound assignment. -/
def compound (name owner arg : String) (a b : Native)
    (f : a.Carrier → b.Carrier → Except Condition a.Carrier) : Action :=
  operator name owner [arg] owner (.compound a b f)

/-- A function of one native argument. -/
def function1 (name arg returns : String) (a r : Native)
    (f : a.Carrier → Except Condition r.Carrier) : Action :=
  function name [arg] returns (.unary a r returns f)

/-- A function of two native arguments of one type. -/
def function2 (name type : String) (n : Native) (f : n.Carrier → n.Carrier → n.Carrier) : Action :=
  function name [type, type] type (.binary n n n type fun a b => .ok (f a b))

/-! ## Numbers -/

/-- Arithmetic operators and compound assignments of an integer type. -/
def arithmetic (w : Word) (type : String) : List Action :=
  [binary "+" type type type w.native w.native w.native w.add,
   binary "-" type type type w.native w.native w.native w.sub,
   binary "*" type type type w.native w.native w.native w.mul,
   binary "/" type type type w.native w.native w.native w.div,
   binary "%" type type type w.native w.native w.native w.rem,
   compound "+=" type type w.native w.native w.add,
   compound "-=" type type w.native w.native w.sub,
   compound "*=" type type w.native w.native w.mul,
   compound "/=" type type w.native w.native w.div,
   compound "%=" type type w.native w.native w.rem]

/-- Unary minus of an integer type. -/
def negation (w : Word) (type : String) : Action := unary "-" type type w.native w.native w.neg

/-- Bit operators of an integer type. -/
def bitwise (w : Word) (type : String) : List Action :=
  [binary "&" type type type w.native w.native w.native fun a b => .ok (w.bitAnd a b),
   binary "|" type type type w.native w.native w.native fun a b => .ok (w.bitOr a b),
   binary "^" type type type w.native w.native w.native fun a b => .ok (w.bitXor a b),
   unary "~" type type w.native w.native fun a => .ok (w.bitNot a),
   binary "<<" type "int" type w.native .int w.native w.shiftLeft,
   binary ">>" type "int" type w.native .int w.native w.shiftRight]

/-- An operator that tests how two values compare. -/
def relation (name type : String) (n : Native) (compare : n.Carrier → n.Carrier → Ordering)
    (test : Ordering → Bool) : Action :=
  binary name type type "bool" n n .bool fun a b => .ok (test (compare a b))

/-- Minus one, zero or one for less, equal or greater. -/
def orderingCode : Ordering → Int32
  | .lt => -1
  | .eq => 0
  | .gt => 1

/-- The three-way comparison of a type. -/
def threeWay (type : String) (n : Native) (compare : n.Carrier → n.Carrier → Ordering) : Action :=
  binary "<=>" type type "int" n n .int fun a b => .ok (orderingCode (compare a b))

/-- Tests for equality of a type. -/
def equality (type : String) (n : Native) (compare : n.Carrier → n.Carrier → Ordering) :
    List Action :=
  [relation "==" type n compare Ordering.isEq, relation "!=" type n compare Ordering.isNe]

/-- All comparisons of an ordered type. -/
def comparisons (type : String) (n : Native) (compare : n.Carrier → n.Carrier → Ordering) :
    List Action :=
  equality type n compare ++
    [relation "<" type n compare Ordering.isLT,
     relation "<=" type n compare Ordering.isLE,
     relation ">" type n compare Ordering.isGT,
     relation ">=" type n compare Ordering.isGE,
     threeWay type n compare]

/-- Arithmetic and the three-way comparison of doubles. -/
def floats : List Action :=
  let add (a b : Float) : Except Condition Float := .ok (a + b)
  let sub (a b : Float) : Except Condition Float := .ok (a - b)
  let mul (a b : Float) : Except Condition Float := .ok (a * b)
  let div (a b : Float) : Except Condition Float := .ok (a / b)
  [binary "+" "float" "float" "float" .float .float .float add,
   binary "-" "float" "float" "float" .float .float .float sub,
   binary "*" "float" "float" "float" .float .float .float mul,
   binary "/" "float" "float" "float" .float .float .float div,
   compound "+=" "float" "float" .float .float add,
   compound "-=" "float" "float" .float .float sub,
   compound "*=" "float" "float" .float .float mul,
   compound "/=" "float" "float" .float .float div,
   unary "-" "float" "float" .float .float fun (a : Float) => .ok (-a),
   -- the relational operators are made from this one
   threeWay "float" .float Double.compare]

/-- Operators on numbers, characters, texts and truth values that compute or compare. -/
def numeric : List Action :=
  arithmetic .int "int" ++ arithmetic .long "long" ++ arithmetic .unsigned "index"
    ++ [negation .int "int", negation .long "long"]
    ++ bitwise .int "int" ++ bitwise .long "long" ++ bitwise .unsigned "bits"
    ++ comparisons "byte" .byte (fun (a b : UInt8) => compare a.toNat b.toNat)
    ++ comparisons "char" .char (fun (a b : Char) => compare a.toNat b.toNat)
    ++ comparisons "int" .int (Word.compare .int)
    ++ comparisons "long" .long (Word.compare .long)
    ++ comparisons "index" .unsigned (Word.compare .unsigned)
    ++ comparisons "bits" .unsigned (Word.compare .unsigned)
    ++ comparisons "text" .text (fun (a b : String) => compare a b)
    ++ equality "bool" .bool (fun (a b : Bool) => compare a b)
    ++ floats

/-! ## Truth values and texts -/

/-- Operators on truth values. Both operands are always evaluated. -/
def logic : List Action :=
  [binary "&&" "bool" "bool" "bool" .bool .bool .bool fun (a b : Bool) => .ok (a && b),
   binary "||" "bool" "bool" "bool" .bool .bool .bool fun (a b : Bool) => .ok (a || b),
   unary "!" "bool" "bool" .bool .bool fun (a : Bool) => .ok (!a)]

/-- Concatenation of texts. -/
def texts : List Action :=
  let append (a b : String) : Except Condition String := .ok (a ++ b)
  [binary "+" "text" "text" "text" .text .text .text append,
   compound "+=" "text" "text" .text .text append]

/-! ## Conversions and functions -/

/-- Conversions between numeric types; a number that does not fit raises `integer_overflow`. -/
def conversions : List Action :=
  [function1 "int" "long" "int" .long .int fun (a : Int64) => Word.fit .int a.toInt,
   function1 "int" "index" "int" .unsigned .int fun (a : UInt64) => Word.fit .int a.toNat,
   function1 "int" "float" "int" .float .int Double.toInt,
   function1 "int" "byte" "int" .byte .int fun (a : UInt8) => Word.fit .int a.toNat,
   function1 "int" "char" "int" .char .int fun (a : Char) => Word.fit .int a.toNat,
   function1 "long" "int" "long" .int .long fun (a : Int32) => Word.fit .long a.toInt,
   function1 "long" "index" "long" .unsigned .long fun (a : UInt64) => Word.fit .long a.toNat,
   function1 "long" "float" "long" .float .long Double.toLong,
   function1 "float" "int" "float" .int .float fun (a : Int32) => .ok a.toFloat,
   function1 "float" "long" "float" .long .float fun (a : Int64) => .ok a.toFloat,
   function1 "float" "index" "float" .unsigned .float fun (a : UInt64) => .ok a.toFloat,
   function1 "index" "int" "index" .int .unsigned fun (a : Int32) => Word.fit .unsigned a.toInt,
   function1 "index" "long" "index" .long .unsigned fun (a : Int64) => Word.fit .unsigned a.toInt]

/-- The smaller and the greater of two words. -/
def extremes (w : Word) (type : String) : List Action :=
  [function2 "min" type w.native w.min, function2 "max" type w.native w.max]

/-- Absolute values and extremes. -/
def magnitudes : List Action :=
  [function1 "abs" "int" "int" .int .int (Word.abs .int),
   function1 "abs" "long" "long" .long .long (Word.abs .long),
   function1 "abs" "float" "float" .float .float fun (a : Float) => .ok a.abs]
    ++ extremes .int "int" ++ extremes .long "long" ++ extremes .unsigned "index"
    ++ [function2 "min" "float" .float Double.min, function2 "max" "float" .float Double.max]

/-- Functions of any value. -/
def generic : List Action :=
  [function "text" ["any"] "text" .textOf,
   function "len" ["any"] "index" .length,
   function "type_of" ["any"] "type" .typeOf]

/-! ## Control -/

/-- Assignment, conditionals, type tests and signals. -/
def control : List Action :=
  [operator "=" "any" ["any"] "any" .assign,
   -- without and with an `else`
   operator "if" "bool" ["any"] "any" .choose,
   operator "if" "bool" ["any", "any"] "any" .choose,
   operator "is" "any" ["type"] "bool" (.typeTest true),
   operator "is not" "any" ["type"] "bool" (.typeTest false),
   operator "return" "any" [] "any" .returns,
   operator "raise" "name" [] "name" .raises,
   operator "break" "void" [] "void" (.signal .breaks),
   operator "continue" "void" [] "void" (.signal .continues)]

/-- Every action of the language, in the order of registration. -/
def catalogue : List Action :=
  numeric ++ logic ++ texts ++ conversions ++ magnitudes ++ generic ++ control

end TupleLang.Builtin

namespace TupleLang.Store

/-- Register an action at the root scope; one whose signature is taken changes nothing. -/
def define (s : Store) (action : Action) : Store :=
  match StoreM.registerAction s.root action s with
  | .ok _ s => s
  | .error _ s => s

/-- A store with the actions of the language and the default settings. -/
def standard : Store := Builtin.catalogue.foldl define (bare {})

/-- A store with the actions of the language. -/
def withSettings (settings : Settings) : Store := { standard with settings }

end TupleLang.Store
