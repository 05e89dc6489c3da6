import TupleLang.Store.Scope

/-!
# Types and actions

Types are registered in the scope of a tuple and seen from there inwards. Actions are always looked
for at the outermost scope. Registering a tree type also registers its constructor there.
-/

namespace TupleLang

namespace Store

/-- Actions of a name, in the order of registration. -/
def actionsNamed (s : Store) (id : TupleId) (name : String) : List Action :=
  match s.tuple? (s.rootOf id) with
  | some t => t.actionsNamed name
  | none => []

/-- Actions of a name whose signatures accept an owner and arguments of the given types. -/
def actionsMatching (s : Store) (id : TupleId) (name : String) (owner args : TypeDesc) :
    List Action :=
  (s.actionsNamed id name).filter (·.signature.accepts owner args)

/-- Matching actions of one category. -/
def actionsOf (s : Store) (category : String) (id : TupleId) (name : String)
    (owner args : TypeDesc) : List Action :=
  (s.actionsMatching id name owner args).filter (·.signature.category == category)

/-- Constructors of the type called `name` that accept the given arguments. -/
def constructors (s : Store) (id : TupleId) (name : String) (args : TypeDesc) : List Action :=
  s.actionsOf Signature.constructorCategory id name .void args

/-- The action with exactly this signature. -/
def action? (s : Store) (id : TupleId) (signature : Signature) : Option Action :=
  (s.tuple? (s.rootOf id)).bind (·.action? signature)

end Store

namespace StoreM

/-- Register an action in a tuple. -/
def registerAction (id : TupleId) (action : Action) : StoreM Unit :=
  update id fun t => return ((), ← t.insertAction action)

/-- Register a type in a tuple, and the constructor of a tree type at the outermost scope unless the
same one is there already. If that fails, the type is forgotten again. -/
def registerType (id : TupleId) (name : String) (type : TypeDesc) : StoreM Unit := do
  update id fun t => return ((), ← t.insertType name type)
  -- only tree types have constructors
  if type.isLeaf then return
  let constructor := Action.constructorFor name type
  let root := (← get).rootOf id
  -- another scope may have brought the same constructor along
  if ((← get).action? root constructor.signature).isSome then return
  try
    registerAction root constructor
  catch e =>
    match (← get).tuple? id with
    | some t => modify (·.putTuple id (t.removeType name))
    | none => pure ()
    throw e

end StoreM

end TupleLang
