import TupleLang.TypeDesc.Text

/-!
# Signatures

A signature is what identifies an action: the owner's type, a category, a name, the type of the
result and the types of the arguments. The whole of it can be seen as one type descriptor, its
*key*, under which action tables keep it.
-/

namespace TupleLang

/-- Identity of an action. -/
structure Signature where
  /-- Type of the owner; `void` for functions and constructors. -/
  owner : TypeDesc
  /-- Category, such as `operator`. -/
  category : String
  name : String
  /-- Declared type of the result. -/
  returns : TypeDesc
  /-- Declared arguments, a tree whose children may be named. -/
  args : TypeDesc
  deriving DecidableEq

namespace Signature

/-- The category of operators. -/
abbrev operatorCategory : String := "operator"

/-- The category of functions called as `name(...)`. -/
abbrev functionCategory : String := "function"

/-- The category of type constructors called as `type(...)`. -/
abbrev constructorCategory : String := "constructor"

/-- A signature; a leaf given for the arguments is taken as a single argument. -/
def make (owner : TypeDesc) (category name : String) (returns args : TypeDesc) : Signature :=
  { owner, category, name, returns, args := if args.isLeaf then .ofList [args] else args }

/-- Signature of an operator on `owner`. -/
def operator (owner : TypeDesc) (name : String) (returns args : TypeDesc) : Signature :=
  make owner operatorCategory name returns args

/-- Signature of a free function. -/
def function (name : String) (returns args : TypeDesc) : Signature :=
  make .void functionCategory name returns args

/-- Signature of a type constructor. -/
def constructor (name : String) (returns args : TypeDesc) : Signature :=
  make .void constructorCategory name returns args

/-- The signature as one type descriptor. -/
def key (s : Signature) : TypeDesc :=
  .tree [(some "owner", s.owner), (some "category", .leaf s.category), (some "name", .leaf s.name),
         (some "returns", s.returns), (some "args", s.args)]

/-- Signatures are ordered by their keys. -/
def compare (s t : Signature) : Ordering := TypeDesc.compare s.key t.key

/-- The text of a signature. -/
def text (s : Signature) : String :=
  let owner := if s.owner.isVoid then "" else s!" on {s.owner.text}"
  s!"{s.category} `{s.name}`{owner} {s.args.text} -> {s.returns.text}"

/-! ## Matching -/

/-- Position of the declared argument that an actual one stands for: by its name, or else by its
own position. -/
def declaredPosition? (declared : List TypeDesc.Field) (i : Nat) (name : Option String) :
    Option Nat :=
  match name with
  | some name => declared.findIdx? (·.1 == some name)
  | none => some i

/-- Positions of the declared arguments that the actual ones from the `i`-th on bind to; those in
`taken` are no longer free. -/
def bindArgs (declared : List TypeDesc.Field) : (i : Nat) → (taken : List Nat) →
    List TypeDesc.Field → Option (List Nat)
  | _, _, [] => some []
  | i, taken, (name, type) :: rest =>
    match declaredPosition? declared i name with
    | none => none
    | some pos =>
      -- one argument that finds no place of its own spoils the match
      if !taken.contains pos && declared[pos]?.any (fun d => d.2.compatibleWith type) then
        (bindArgs declared (i + 1) (pos :: taken) rest).map (pos :: ·)
      else none

/-- For each actual argument the position of the declared one it binds to; `none` when the
arguments do not fit. Their number must agree, named arguments bind by name and unnamed ones by
position, and none binds twice. -/
def declaredPositions (s : Signature) (args : TypeDesc) : Option (List Nat) :=
  if s.args.size = args.size then bindArgs s.args.fields 0 [] args.fields else none

/-- Whether an owner and arguments of the given types satisfy the signature. -/
def accepts (s : Signature) (owner args : TypeDesc) : Bool :=
  s.owner.compatibleWith owner && (s.declaredPositions args).isSome

/-- Whether the signature is at least as specific as another one. -/
def refines (s other : Signature) : Bool :=
  other.owner.compatibleWith s.owner
    && other.args.size == s.args.size
    -- place by place, whatever the arguments are called
    && (other.args.fields.zip s.args.fields).all fun (o, t) => o.2.compatibleWith t.2

/-- Type of the result for an owner and arguments of the given types. The wildcard stands for the
actual type bound to the first declared wildcard, the owner before the arguments. -/
def resolveReturn (s : Signature) (owner args : TypeDesc) : TypeDesc :=
  if !s.returns.isAny then s.returns
  else if s.owner.isAny then owner
  else
    -- place by place, also where the actual arguments were bound by name
    match (s.args.fields.zip args.fields).find? (fun (declared, _) => declared.2.isAny) with
    | some (_, actual) => actual.2
    | none => .any

end Signature

end TupleLang
