import TupleLang.Proofs.LinearParser
import TupleLang.Proofs.TypedActions

/-!
# Types of expressions

A tree is *typed* if its leaves are in places of their types, and every operator is bound to a body
for operands of the types that its own have, with the result that the type of the node announces
(`Node.Typed`). What is parsed in a store without actions besides the language's own is typed
(`typed_of_parse`).
-/

namespace TupleLang

open Store (typing)

/-- The leaves are in places of their types, and every operator is bound to an action of the
language with a body for its operands and its type. Conditionals, and no other operators, are bound
to bodies that pick a branch. -/
inductive Node.Typed (w : PlaceTypes) : Node → Prop
  | value {cell : Cell} {label : Option String} : cell.Placed w → Typed w (.value cell label)
  | apply {b : Binding} {children : List Node} : b.action ∈ Builtin.catalogue →
      b.action.body.Types (children.map Node.type) b.type →
      b.action.body.isChoose = b.op.isConditional → (∀ n ∈ children, Typed w n) →
      Typed w (.apply b children)

/-- Typed nodes stay typed in later worlds. -/
theorem Node.Typed.lasts {v w : PlaceTypes} {node : Node} (h : node.Typed v)
    (hlater : typing.Later v w) : node.Typed w := by
  induction h with
  | value hcell => exact .value (Store.placed_lasts hlater hcell)
  | apply hown hbody hchoose _ ih => exact .apply hown hbody hchoose ih

/-! ## Literals -/

namespace Literal

variable {typed : Typed}

/-- A native literal, under one of the logical types of its native type. -/
theorem suits_of_accepts {n : Native} {u : n.Carrier} (hn : n.accepts typed.type = true)
    (hvalue : typed.value = n.wrap u) : typed.value.Suits (.leaf typed.type) := by
  rw [hvalue]
  exact Value.suits_leaf hn u

/-- A native value suits its type. -/
theorem suits_native (n : Native) (u : n.Carrier) :
    (native n u).value.Suits (.leaf (native n u).type) :=
  suits_of_accepts n.accepts_typeName rfl

theorem suits_word {w : Word} {n : Int} (h : word? w n = some typed) :
    typed.value.Suits (.leaf typed.type) := by
  obtain ⟨x, -, rfl⟩ := Option.map_eq_some_iff.mp h
  exact suits_native _ _

theorem suits_map {α : Type} {x : Option α} {f : α → Typed} {message : String}
    (h : orFail (x.map f) message = .ok typed)
    (hf : ∀ a, (f a).value.Suits (.leaf (f a).type)) : typed.value.Suits (.leaf typed.type) := by
  obtain ⟨a, -, rfl⟩ := Option.map_eq_some_iff.mp (eq_of_orFail h)
  exact hf a

/-- The value of a literal suits its type. -/
theorem suits_of_read {token : Token} {negative : Bool} (h : read token negative = .ok typed) :
    typed.value.Suits (.leaf typed.type) := by
  unfold read at h
  dsimp only at h
  split at h
  case h_1 =>
    cases h
    exact Value.suits_void
  case h_4 =>
    cases hint : integer? token.text negative with
    | error e => simp [hint, bind, Except.bind] at h
    | ok n =>
      simp only [hint, bind, Except.bind] at h
      -- what is too large for an int is a long
      rcases Option.or_eq_some_iff.mp (eq_of_orFail h) with h | ⟨-, h⟩
      · exact suits_word h
      · exact suits_word h
  case h_5 =>
    cases hint : integer? (Cut.inside 0 1 token.text) negative with
    | error e => simp [hint, bind, Except.bind] at h
    | ok n =>
      simp only [hint, bind, Except.bind] at h
      exact suits_word (eq_of_orFail h)
  case h_6 => exact suits_map h fun _ => suits_native .float _
  case h_7 => exact suits_map h fun _ => suits_of_accepts (n := .unsigned) rfl rfl
  case h_8 => exact suits_map h fun _ => suits_of_accepts (n := .unsigned) rfl rfl
  case h_9 => exact suits_map h fun _ => suits_native .byte _
  case h_10 => exact suits_map h fun _ => suits_native .bytes _
  case h_11 =>
    split at h
    · cases h
      exact suits_native .char _
    · cases h
  case h_16 =>
    cases h
    exact suits_of_accepts (n := .name) rfl rfl
  case h_18 => cases h
  all_goals
    cases h
    exact suits_native _ _

end Literal

/-! ## Tuples of literals -/

namespace Arena

/-- What a new id stands for, if it is live. -/
theorem eq_of_get?_alloc {a : Arena} {t u : Tuple}
    (h : (a.alloc t).2.get? (a.alloc t).1 = some u) : u = t := by
  obtain ⟨n, hslot, -⟩ := get?_eq_some_iff.mp h
  unfold alloc at hslot
  split at hslot
  · rw [Array.getElem?_modify, if_pos rfl] at hslot
    obtain ⟨slot, -, hslot⟩ := Option.map_eq_some_iff.mp hslot
    cases hslot
    rfl
  · rw [Array.getElem?_push_size] at hslot
    cases hslot
    rfl

end Arena

namespace StoreM

variable {kind : TupleKind} {id : TupleId} {s s' : Store}

/-- Filling a tuple does not change its kind. -/
theorem kind_of_fill {entries : List (Option String × Cell)} {u : Unit}
    (hrun : fill id entries s = .ok u s') (hs : ∀ t, s.tuple? id = some t → t.kind = kind) :
    ∀ t, s'.tuple? id = some t → t.kind = kind := by
  induction entries generalizing s with
  | nil =>
    cases hrun
    exact hs
  | cons entry rest ih =>
    obtain ⟨name, cell⟩ := entry
    unfold fill at hrun
    obtain ⟨_, _, hget, hrun⟩ := StoreM.bind_eq_ok.mp hrun
    cases hget
    obtain ⟨_, s₁, hinsert, hrun⟩ := StoreM.bind_eq_ok.mp hrun
    obtain ⟨_, _, hupdate, hdone⟩ := StoreM.bind_eq_ok.mp (StoreM.cleanup_eq_ok.mp hinsert)
    obtain ⟨t, t', ht, ht', rfl⟩ := StoreM.update_eq_ok.mp hupdate
    cases hdone
    obtain ⟨_, _, hadopt, hrun⟩ := StoreM.bind_eq_ok.mp hrun
    cases hadopt
    refine ih hrun fun u hu => ?_
    -- taking a tuple in changes nothing but parents
    have hsame := (Store.tuple?_adoptOwned (s.putTuple id t') id (cell.ownedTuple? s.heap) id).1
    rw [hu, Store.tuple?_putTuple ht, if_pos rfl, Option.map_some, Option.map_some] at hsame
    have hkind : u.kind = t'.kind := by
      change u.orphan.kind = t'.orphan.kind
      rw [Option.some.inj hsame]
    rw [hkind, Tuple.insertInitial_eq_ok ht']
    exact hs t ht

/-- A tuple that was built is of the kind that was asked for. -/
theorem kind_of_createFrom {parent : Option TupleId} {entries : List (Option String × Cell)}
    (hrun : createFrom kind parent entries s = .ok id s') {t : Tuple} (ht : s'.tuple? id = some t) :
    t.kind = kind := by
  obtain ⟨k, s₁, hcreate, hrun⟩ := StoreM.bind_eq_ok.mp hrun
  obtain ⟨_, s₂, hfill, hrun⟩ := StoreM.bind_eq_ok.mp hrun
  cases hrun
  cases hcreate
  refine kind_of_fill hfill (fun u hu => ?_) t ht
  rw [Arena.eq_of_get?_alloc hu]

end StoreM

namespace Store

variable {w : PlaceTypes} {s : Store} {scope : TupleId} {c : Cell}

/-- The cell of a tuple that was built is in a place of the type of tuples of its kind. -/
theorem parses_build_typing {kind : TupleKind} {entries : List (Option String × Cell)}
    (hkind : kind.fixedPermissions?.isSome) (hentries : ∀ p ∈ entries, p.2.Placed w) :
    typing.Parses w (ValueReader.build scope kind entries) fun v c => c.Placed v := by
  -- what was built, with its type: this suits it whatever becomes of the store
  let built : StoreM (TupleId × TypeDesc) := do
    let id ← StoreM.createFrom kind (some scope) entries
    let type ← StoreM.ofExcept ((← get).typeOf id)
    return (id, type)
  have hsuits : ∀ s r s', built s = .ok r s' → (Value.tuple r.1).Suits r.2 := by
    intro s r s' hrun
    obtain ⟨id, s₁, hcreate, hrun⟩ := StoreM.bind_eq_ok.mp hrun
    obtain ⟨_, _, hget, hrun⟩ := StoreM.bind_eq_ok.mp hrun
    cases hget
    obtain ⟨type, _, htype, hdone⟩ := StoreM.bind_eq_ok.mp hrun
    cases hdone
    obtain ⟨htype, rfl⟩ := StoreM.ofExcept_eq_ok.mp htype
    unfold Store.typeOf Store.tuple at htype
    split at htype
    · rename_i t ht
      cases htype
      refine Value.suits_typeDesc ?_ _
      rw [StoreM.kind_of_createFrom hcreate ht]
      exact hkind
    · cases htype
  have hbuilt : typing.Keeps w built (fun _ _ => True) fun _ => True := by
    have hcreate := typingCopying.createFrom (typingCopying.create w kind {} (some scope)) hentries
    refine .bind (hcreate.mono (fun _ _ _ h => h) fun _ _ => trivial) fun id _ _ _ => ?_
    refine .get_bind fun _ _ _ _ => .andThen ?_ fun _ _ _ => .pure fun _ _ => trivial
    exact .ofExcept (fun _ _ _ _ => trivial) fun _ _ => trivial
  have hcell : typing.Keeps w (built >>= fun r => StoreM.newCell r.2 (.tuple r.1))
      (fun v c => c.Placed v) fun _ => True :=
    .bind (hbuilt.also hsuits) fun r _ _ hr =>
      (keeps_newCell_typing hr.2).weaken fun _ _ _ hc => hc.1
  simpa [built, ValueReader.build] using hcell.parser

/-- Giving cells up keeps the types of places. -/
theorem Typed.releaseAll (hs : s.Typed w) (cells : List Cell) : (s.releaseAll cells).Typed w := by
  induction cells generalizing s with
  | nil => exact hs
  | cons c rest ih =>
    refine ih ?_
    unfold release
    split
    · exact hs.destroy _
    · exact hs

/-- A variable is in the place of an attribute. -/
theorem Typed.placed_of_variableCell? (hs : s.Typed w) {name : String}
    (hc : s.variableCell? scope name = some c) : c.Placed w := by
  simp only [variableCell?, bind, Option.bind_eq_some_iff] at hc
  obtain ⟨⟨owner, pos⟩, -, t, ht, cell, hcell, hc⟩ := hc
  simp only [pure, Option.some.injEq] at hc
  obtain ⟨e, he, rfl⟩ := Option.map_eq_some_iff.mp hcell
  have hplaced := (hs.tuples.of_get? ht).2 e (List.mem_of_getElem? he)
  rw [← hc]
  split <;> exact hplaced

/-- What is found under a name is one of the language's own actions of this name. -/
theorem Typed.of_mem_actionsNamed (hs : s.Typed w) {name : String} {a : Action}
    (ha : a ∈ s.actionsNamed scope name) : a ∈ Builtin.catalogue ∧ a.name = name := by
  obtain ⟨t, ht, hnamed⟩ := mem_actionsNamed ha
  exact (hs.tuples.of_get? ht).1.of_mem_actionsNamed hnamed

end Store

/-! ## Bindings -/

/-- Whether the body does nothing but change how control goes on. -/
def Body.isSignal : Body → Bool
  | .signal s => s != .normal
  | _ => false

/-- Such a body is for any operands: its result is not gone on with. -/
theorem Body.types_of_isSignal {body : Body} (h : body.isSignal = true) (types : List TypeDesc)
    (type : TypeDesc) : body.Types types type := by
  cases body <;> first | cases h | exact .signal (bne_iff_ne.mp h)

namespace Builtin

variable {a : Action} {op : Operator}

/-- The actions called `if`, and no others, pick a branch. -/
theorem isChoose_of_mem_catalogue (ha : a ∈ catalogue) : a.body.isChoose = (a.name == "if") := by
  have hall : (catalogue.all fun a => a.body.isChoose == (a.name == "if")) = true := by
    decide +kernel
  exact beq_iff_eq.mp (List.all_eq_true.mp hall a ha)

/-- Only operators pick a branch. -/
theorem not_isChoose_of_category (ha : a ∈ catalogue)
    (hcategory : a.signature.category ≠ Signature.operatorCategory) : a.body.isChoose = false := by
  have hall : (catalogue.all fun a => a.signature.category == Signature.operatorCategory ||
      !a.body.isChoose) = true := by decide +kernel
  simpa [hcategory] using List.all_eq_true.mp hall a ha

/-- The actions for operators without operands change how control goes on. -/
theorem isSignal_of_arity (ha : a ∈ catalogue) (hname : a.name = op.actionName)
    (hop : op ≠ .call) (harity : op.arity = 0) : a.body.isSignal = true := by
  have hall : (catalogue.all fun a => a.name != "break" && a.name != "continue" ||
      a.body.isSignal) = true := by decide +kernel
  have hcases : op = .breaks ∨ op = .continues := by
    cases op <;> first | exact .inl rfl | exact .inr rfl | exact absurd rfl hop | cases harity
  have hsignal := List.all_eq_true.mp hall a ha
  rw [hname] at hsignal
  rcases hcases with rfl | rfl <;> simpa [Operator.actionName, Operator.spelling] using hsignal

end Builtin

/-- The conditionals are the operators that are implemented by actions called `if`. -/
theorem Operator.isConditional_eq (op : Operator) : op.isConditional = (op.actionName == "if") := by
  cases op <;> decide

theorem Operator.arity_of_isRelational {op : Operator} (h : op.isRelational = true) :
    op.arity = 2 := by
  cases op <;> first | rfl | cases h

/-- Owner and arguments of an operator that is no call, by the types of its operands. -/
def Node.ownerAndArgs : List Node → TypeDesc × TypeDesc
  | owner :: rest => (owner.type, .ofList (rest.map Node.type))
  | [] => (.void, .tree [])

theorem Draft.operandTypes_of_ne_call {draft : Draft} (hop : draft.op ≠ .call) :
    draft.operandTypes = Node.ownerAndArgs draft.children := if_neg hop

/-- A call is accepted by actions of the language only if it names no arguments. Then its operands
are typed one by one. -/
theorem Draft.operandTypes_of_call {draft : Draft} {owner args : TypeDesc} {a : Action}
    (hop : draft.op = .call) (hlength : draft.argNames.length = draft.children.length)
    (htypes : draft.operandTypes = (owner, args)) (ha : a ∈ Builtin.catalogue)
    (haccepts : a.signature.accepts owner args = true) :
    draft.argNames.any Option.isSome = false ∧ args = .ofList (draft.children.map Node.type) := by
  rw [operandTypes, if_pos hop] at htypes
  obtain ⟨rfl, rfl⟩ := Prod.mk.inj htypes
  obtain ⟨positions, hpositions⟩ :=
    Option.isSome_iff_exists.mp (Bool.and_eq_true _ _ |>.mp haccepts).2
  obtain ⟨-, hbind⟩ := Signature.declaredPositions_eq_some.mp hpositions
  have hnames : draft.argNames.any Option.isSome = false := by
    by_contra hnamed
    rw [Bool.not_eq_false, List.any_eq_true] at hnamed
    obtain ⟨name, hname, hsome⟩ := hnamed
    obtain ⟨i, hi, rfl⟩ := List.mem_iff_getElem.mp hname
    -- one of the fields has a name, and none that is declared has
    rw [Signature.bindArgs_eq_none (Builtin.unnamed_of_mem_catalogue ha)] at hbind
    · cases hbind
    · have hi' : i < draft.children.length := hlength ▸ hi
      refine List.any_eq_true.mpr ⟨(draft.argNames[i], draft.children[i].type), ?_, hsome⟩
      exact List.mem_mapIdx.mpr ⟨i, hi', by simp [hi]⟩
  refine ⟨hnames, ?_⟩
  rw [TypeDesc.ofList, List.map_map]
  refine congrArg TypeDesc.tree (List.ext_getElem (by simp) fun i hi hi' => ?_)
  have hnone : (draft.argNames[i]?).getD none = none := by
    rw [List.any_eq_false] at hnames
    cases hname : draft.argNames[i]? with
    | none => rfl
    | some name => simpa using hnames name (List.mem_of_getElem? hname)
  simp [hnone]

namespace Store

variable {w : PlaceTypes} {s : Store} {scope : TupleId}

/-- An operator is bound to an action for its operands. -/
theorem Typed.operator {u : PlaceTypes} (hs : s.Typed u) {b : Binding} {children : List Node}
    {owner args : TypeDesc} (hop : b.op ≠ .call) (harity : children = [] → b.op.arity = 0)
    (hchildren : ∀ n ∈ children, n.Typed w)
    (htypes : Node.ownerAndArgs children = (owner, args))
    (ha : b.action ∈ s.operators scope b.op.actionName owner args)
    (htype : b.type = b.action.signature.resolveReturn owner args) :
    (Node.apply b children).Typed w := by
  obtain ⟨hnamed, haccepts, hcategory⟩ := mem_actionsOf.mp ha
  obtain ⟨hown, hname⟩ := hs.of_mem_actionsNamed hnamed
  refine .apply hown ?_ ?_ hchildren
  · cases children with
    | nil =>
      exact Body.types_of_isSignal (Builtin.isSignal_of_arity hown hname hop (harity rfl)) _ _
    | cons owner' rest =>
      cases htypes
      rw [htype]
      exact Action.types_of_operator hown hcategory haccepts
  · rw [Builtin.isChoose_of_mem_catalogue hown, hname, Operator.isConditional_eq]

/-- What a draft is bound to is for its operands. -/
theorem Typed.bound (hs : s.Typed w) {draft : Draft} {owner args : TypeDesc} {a : Action}
    (hregular : draft.Regular) (hchildren : ∀ n ∈ draft.children, n.Typed w)
    (htypes : draft.operandTypes = (owner, args)) (ha : a ∈ s.candidates scope draft owner args) :
    (draft.bound a owner args).Typed w := by
  rcases mem_candidates ha with ⟨hop, hoperator⟩ | ⟨hop, hcall⟩
  · obtain ⟨hdraft, -, harity⟩ := (if_neg hop).mp hregular
    rw [hdraft] at hoperator
    rw [Draft.bound, if_neg (by simp [hop])]
    rw [Draft.operandTypes_of_ne_call hop] at htypes
    exact hs.operator hop harity hchildren htypes hoperator rfl
  · obtain ⟨hown, -⟩ := hs.of_mem_actionsNamed (named_of_mem_candidates ha)
    obtain rfl : owner = .void := by
      rw [Draft.operandTypes, if_pos hop] at htypes
      exact (Prod.mk.inj htypes).1.symm
    have hfunction : a.signature.category ≠ Signature.operatorCategory ∧
        a.signature.accepts .void args = true := by
      rcases hcall with h | ⟨-, h⟩
      all_goals
        obtain ⟨-, haccepts, hcategory⟩ := mem_actionsOf.mp h
        rw [hcategory]
        exact ⟨by decide, haccepts⟩
    obtain ⟨hcategory, haccepts⟩ := hfunction
    have hlength := (if_pos hop).mp hregular
    obtain ⟨hnames, rfl⟩ := Draft.operandTypes_of_call hop hlength htypes hown haccepts
    rw [Draft.bound, if_neg (by simp [hnames])]
    refine .apply hown (Action.types_of_function hown hcategory haccepts) ?_ hchildren
    rw [Builtin.not_isChoose_of_category hown hcategory]
    dsimp only
    rw [hop]
    rfl

/-- A comparison that is made of the three-way one is for its operands. -/
theorem Typed.compared {u : PlaceTypes} (hs : s.Typed u) {draft : Draft}
    {owner args ordering returns : TypeDesc}
    {compare relation : Action} {zero : Cell} (hregular : draft.Regular)
    (hop : draft.op.isRelational) (hchildren : ∀ n ∈ draft.children, n.Typed w)
    (htypes : draft.operandTypes = (owner, args))
    (h : s.comparison? scope draft owner args = some (compare, ordering, relation, returns))
    (hzero : zero.Placed w) (htype : zero.type = .leaf "int") :
    (Node.apply { op := draft.op, name := draft.name, action := relation, type := returns }
      [.apply { op := .cmp, name := Operator.cmp.actionName, action := compare, type := ordering }
        draft.children, .literal zero]).Typed w := by
  obtain ⟨hcompare, hordering, hrelation, hreturns⟩ := comparison?_eq_some h
  have hcall : draft.op ≠ .call := by
    intro hcall
    rw [hcall] at hop
    cases hop
  obtain ⟨hdraft, -, harity⟩ := (if_neg hcall).mp hregular
  rw [hdraft] at hrelation
  have hoperands : draft.children ≠ [] := by
    intro hnil
    have hzero := harity hnil
    rw [Operator.arity_of_isRelational hop] at hzero
    cases hzero
  rw [Draft.operandTypes_of_ne_call hcall] at htypes
  have hcompared : (Node.apply
      { op := .cmp, name := Operator.cmp.actionName, action := compare, type := ordering }
      draft.children).Typed w :=
    hs.operator nofun (fun hnil => absurd hnil hoperands) hchildren htypes hcompare hordering
  refine hs.operator hcall nofun (fun n hn => ?_) ?_ hrelation hreturns
  · rcases List.mem_cons.mp hn with rfl | hn
    · exact hcompared
    · rw [List.mem_singleton.mp hn]
      exact .value hzero
  · simp [Node.ownerAndArgs, Node.type, Node.literal, htype, TypeDesc.leaves]

/-! ## Parsing -/

/-- Parsing makes typed trees. -/
def typedParsing (scope : TupleId) : Parsing typing scope where
  CellOk w c := c.Placed w
  NodeOk w n := n.Typed w
  cell_lasts := placed_lasts
  node_lasts hlater hn := hn.lasts hlater
  scalar _ _ _ _ hread :=
    (keeps_newCell_typing (Literal.suits_of_read hread)).weaken fun _ _ _ hc => hc.1
  native _ n u := keeps_newNative_typing n u
  build _ _ _ hkind hentries := parses_build_typing hkind hentries
  giveUp _ cells _ := fun v _ _ hs => ⟨v, typing.refl v, Typed.releaseAll hs cells⟩
  giveUpNodes _ nodes _ := fun v _ _ hs =>
    ⟨v, typing.refl v, Typed.releaseAll hs (Node.cellsOf nodes)⟩
  literal _ _ hc := .value hc
  variableCell _ _ _ _ hs hc := .value (Typed.placed_of_variableCell? hs hc)
  bound _ _ _ _ _ _ hs hregular hchildren htypes hchoice :=
    Typed.bound hs hregular hchildren htypes (Choice.mem_of_mostSpecific hchoice)
  compared _ _ _ _ _ _ _ _ _ _ _ hs hregular hop hchildren htypes h hlater hzero htype :=
    Typed.compared hs hregular hop (fun n hn => (hchildren n hn).lasts hlater) htypes h hzero htype

/-- What is parsed in a store with typed places is typed. -/
theorem Typed.typed_of_parse (hs : s.Typed w) {cursor : Cursor} {e : Expression}
    (he : (Expression.parse s scope cursor).result = .ok e) : ∃ v, typing.Later w v ∧
      (Expression.parse s scope cursor).store.Typed v ∧ ∀ n ∈ e.roots, n.Typed v := by
  obtain ⟨-, hparsed⟩ := (typedParsing scope).parse (w := w) hs he
  exact hparsed

end Store

end TupleLang
