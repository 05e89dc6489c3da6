/-!
# Type descriptors

A type is identified by its structure alone. A descriptor is either a *leaf*, a plain name such
as `int` or `text`, or a *tree*, an ordered list of child descriptors some of which carry a name.

This module holds the descriptors, how they grow, the one-way structural match `compatibleWith`
and the total order `compare`: leaves before trees, leaves by name, trees child by child.
-/

namespace TupleLang

/-- Structural identity of a type. -/
inductive TypeDesc where
  /-- A plain type name. -/
  | leaf (name : String)
  /-- An ordered list of children, each with an optional name. -/
  | tree (fields : List (Option String × TypeDesc))

namespace TypeDesc

/-- One child of a tree: its optional name and its type. -/
abbrev Field := Option String × TypeDesc

/-- The type of no value. -/
abbrev void : TypeDesc := leaf "void"

/-- The wildcard, compatible with every type; it only makes sense in signatures. -/
abbrev any : TypeDesc := leaf "any"

instance : Inhabited TypeDesc := ⟨void⟩

/-- The tree of the given unnamed children. -/
def ofList (children : List TypeDesc) : TypeDesc := tree (children.map (none, ·))

/-- The tree of unnamed leaves with the given names. -/
def leaves (names : List String) : TypeDesc := ofList (names.map leaf)

/-! ## Inspection -/

/-- Children of a tree; a leaf has none. -/
def fields : TypeDesc → List Field
  | leaf _ => []
  | tree fields => fields

/-- Number of children. -/
def size (t : TypeDesc) : Nat := t.fields.length

/-- A leaf and a tree without children are empty. -/
def isEmpty (t : TypeDesc) : Bool := t.fields.isEmpty

/-- The name of a leaf. -/
def leafName? : TypeDesc → Option String
  | leaf name => some name
  | tree _ => none

/-- Whether the descriptor is a leaf. -/
def isLeaf (t : TypeDesc) : Bool := t.leafName?.isSome

/-- Whether the descriptor is the leaf called `name`. -/
def isNamed (t : TypeDesc) (name : String) : Bool := t.leafName? == some name

/-- Whether the descriptor is the wildcard. -/
def isAny (t : TypeDesc) : Bool := t.isNamed "any"

/-- Whether the descriptor is the type of no value. -/
def isVoid (t : TypeDesc) : Bool := t.isNamed "void"

/-- Type of the child at a position. -/
def at? (t : TypeDesc) (index : Nat) : Option TypeDesc := t.fields[index]?.map (·.2)

/-- Type of the first child called `name`. -/
def member? (t : TypeDesc) (name : String) : Option TypeDesc :=
  (t.fields.find? (·.1 == some name)).map (·.2)

/-! ## Growing -/

/-- The children a descriptor has once it is used as a tree: a leaf becomes its own only child. -/
def asFields : TypeDesc → List Field
  | leaf name => [(none, leaf name)]
  | tree fields => fields

/-- Append an unnamed child. -/
def push (t : TypeDesc) (child : TypeDesc) : TypeDesc := tree (t.asFields ++ [(none, child)])

/-- Append a named child; `none` when the name is already taken at this level. -/
def pushNamed? (t : TypeDesc) (name : String) (child : TypeDesc) : Option TypeDesc :=
  if t.fields.any (·.1 == some name) then none
  else some (tree (t.asFields ++ [(some name, child)]))

/-! ## Equality -/

mutual

/-- Decides equality of descriptors. -/
def decEq : (a b : TypeDesc) → Decidable (a = b)
  | leaf a, leaf b =>
    if h : a = b then isTrue (h ▸ rfl) else isFalse fun e => h (leaf.inj e)
  | leaf _, tree _ => isFalse (fun h => nomatch h)
  | tree _, leaf _ => isFalse (fun h => nomatch h)
  | tree fs, tree gs =>
    match decEqFields fs gs with
    | isTrue h => isTrue (h ▸ rfl)
    | isFalse h => isFalse fun e => h (tree.inj e)

/-- Decides equality of lists of children. -/
def decEqFields : (fs gs : List Field) → Decidable (fs = gs)
  | [], [] => isTrue rfl
  | [], _ :: _ => isFalse (fun h => nomatch h)
  | _ :: _, [] => isFalse (fun h => nomatch h)
  | (m, a) :: fs, (n, b) :: gs =>
    if hn : m = n then
      match decEq a b, decEqFields fs gs with
      | isTrue ha, isTrue hs => isTrue (by rw [hn, ha, hs])
      | isFalse ha, _ => isFalse fun e => ha (Prod.mk.inj (List.cons.inj e).1).2
      | _, isFalse hs => isFalse fun e => hs (List.cons.inj e).2
    else isFalse fun e => hn (Prod.mk.inj (List.cons.inj e).1).1

end

instance : DecidableEq TypeDesc := decEq

/-! ## Order -/

/-- Order of optional names: a missing name comes first. -/
def compareName : Option String → Option String → Ordering
  | none, none => .eq
  | none, some _ => .lt
  | some _, none => .gt
  | some a, some b => Ord.compare a b

mutual

/-- Total order of descriptors: leaves by name, then trees. -/
def compare : TypeDesc → TypeDesc → Ordering
  | leaf a, leaf b => Ord.compare a b
  | leaf _, tree _ => .lt
  | tree _, leaf _ => .gt
  | tree fs, tree gs => compareFields fs gs

/-- Lexicographic order of lists of children, each by name and then by type. -/
def compareFields : List Field → List Field → Ordering
  | [], [] => .eq
  | [], _ :: _ => .lt
  | _ :: _, [] => .gt
  | (m, a) :: fs, (n, b) :: gs =>
    ((compareName m n).then (compare a b)).then (compareFields fs gs)

end

instance : Ord TypeDesc := ⟨compare⟩

/-- The descriptors in ascending order; equal ones keep their places. -/
def sort (types : List TypeDesc) : List TypeDesc := types.mergeSort fun a b => (compare a b).isLE

/-! ## Compatibility -/

mutual

/-- One-way structural match.

Every named child must occur in the other tree under the same name with a compatible type, and
every unnamed child must have a compatible counterpart at its own position. The other tree may
have further children. The wildcard matches everything. -/
def compatibleWith : TypeDesc → TypeDesc → Bool
  | leaf a, other => a == "any" || other.isNamed a
  | tree _, leaf _ => false
  | tree fs, tree others => compatibleFields others 0 fs

/-- Whether the children from position `i` on all find a counterpart among `others`. -/
def compatibleFields (others : List Field) (i : Nat) : List Field → Bool
  | [] => true
  -- a named child is looked for at every position, an unnamed one at its own
  | (some name, t) :: fs =>
    others.any (fun o => o.1 == some name && t.compatibleWith o.2)
      && compatibleFields others (i + 1) fs
  | (none, t) :: fs =>
    others[i]?.any (fun o => t.compatibleWith o.2) && compatibleFields others (i + 1) fs

end

end TypeDesc

end TupleLang
