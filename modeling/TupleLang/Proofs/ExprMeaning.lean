import TupleLang.Proofs.ExprGrammar
import TupleLang.Proofs.Proviso

/-!
# What nodes stand for

A node of an expression stands for a tree (`Store.Means`): its literals denote the data of the tree,
and everything else is the same. Two expressions in two stores are equal, but for the places of
their literals, when they stand for the same trees.

Nodes go on to stand for the same trees while the store is enlarged, and binding an operator to
nodes gives a node for the tree that the operator is bound to (`Draft.binds`). For this the scope
has to look the same all the time (`Store.Sees`).
-/

namespace TupleLang

open ParseM

namespace Store

variable {s s' s'' : Store} {nodes nodes' : List Node} {trees trees' : List Tree}

/-! ## Stores with more tuples -/

/-- The store `s'` is `s` with more tuples and cells. Slots may have moved on. -/
structure Enlarges (s s' : Store) : Prop where
  trade : ∃ new, s.Trade [] s' new
  ages : s.Ages s'

namespace Enlarges

/-- A store enlarges itself. -/
protected theorem refl (hs : s.Sound) : s.Enlarges s := ⟨⟨[], .refl hs []⟩, .refl s⟩

/-- Enlarging twice is enlarging. -/
protected theorem trans (h : s.Enlarges s') (h' : s'.Enlarges s'') : s.Enlarges s'' := by
  obtain ⟨new, htrade⟩ := h.trade
  obtain ⟨new', htrade'⟩ := h'.trade
  have hframe := htrade'.frame new
  rw [List.append_nil] at hframe
  exact ⟨⟨_, htrade.trans hframe⟩, h.ages.trans h'.ages⟩

/-- A store that has been enlarged is sound. -/
theorem sound (h : s.Enlarges s') : s'.Sound := by
  obtain ⟨new, htrade⟩ := h.trade
  exact htrade.sound

end Enlarges

/-- Gaining cells enlarges a store. -/
theorem Gains.enlarges {cells : List Cell} {data : List Datum} (h : s.Gains s' cells data)
    (hages : s.Ages s') : s.Enlarges s' := by
  obtain ⟨ids, -, -, -, htrade⟩ := h
  exact ⟨⟨ids, htrade⟩, hages⟩

/-! ## Nodes and trees -/

/-- The nodes stand for the trees. -/
inductive Means (s : Store) : List Node → List Tree → Prop
  | nil : Means s [] []
  | literal {c : Cell} {d : Datum} {ids : List TupleId} {nodes : List Node} {trees : List Tree} :
      s.Denotes [c] [d] ids → ids.Nodup → Means s nodes trees →
      Means s (.value c none :: nodes) (.literal d :: trees)
  | named {c : Cell} {label : String} {nodes : List Node} {trees : List Tree} :
      Means s nodes trees → Means s (.value c (some label) :: nodes) (.named c label :: trees)
  | apply {b : Binding} {children nodes : List Node} {operands trees : List Tree} :
      Means s children operands → Means s nodes trees →
      Means s (.apply b children :: nodes) (.apply b operands :: trees)

namespace Means

/-- What nodes stand for stays the same while the store is enlarged. -/
theorem mono (h : s.Means nodes trees) (hs : s.Enlarges s') : s'.Means nodes trees := by
  induction h with
  | nil => exact .nil
  | literal hd hnodup _ ih =>
    obtain ⟨new, htrade⟩ := hs.trade
    exact .literal (hd.keeps htrade (by simp)) hnodup ih
  | named _ ih => exact .named ih
  | apply _ _ ih₁ ih₂ => exact .apply ih₁ ih₂

/-- The types of nodes are those of the trees. -/
theorem map_type (h : s.Means nodes trees) : nodes.map Node.type = trees.map Tree.type := by
  induction h with
  | nil => rfl
  | literal hd _ _ ih =>
    obtain ⟨htype, -⟩ := List.cons.inj hd.map_type
    rw [List.map_cons, List.map_cons, ih, Tree.type, ← htype, Node.type]
  | named _ ih => rw [List.map_cons, List.map_cons, ih, Tree.type, Node.type]
  | apply _ _ _ ih => rw [List.map_cons, List.map_cons, ih, Tree.type, Node.type]

/-- Nodes mean trees one by one. -/
theorem cons_iff {node : Node} {tree : Tree} :
    s.Means (node :: nodes) (tree :: trees) ↔ s.Means [node] [tree] ∧ s.Means nodes trees := by
  constructor
  · intro h
    cases h with
    | literal hd hnodup hrest => exact ⟨.literal hd hnodup .nil, hrest⟩
    | named hrest => exact ⟨.named .nil, hrest⟩
    | apply hchildren hrest => exact ⟨.apply hchildren .nil, hrest⟩
  · rintro ⟨h, hrest⟩
    cases h with
    | literal hd hnodup _ => exact .literal hd hnodup hrest
    | named _ => exact .named hrest
    | apply hchildren _ => exact .apply hchildren hrest

/-- Nodes stand for trees one by one. -/
theorem iff_forall₂ :
    s.Means nodes trees ↔ List.Forall₂ (fun node tree => s.Means [node] [tree]) nodes trees := by
  induction nodes generalizing trees with
  | nil =>
    cases trees with
    | nil => simp [Means.nil]
    | cons tree trees => exact iff_of_false nofun nofun
  | cons node nodes ih =>
    cases trees with
    | nil => exact iff_of_false nofun nofun
    | cons tree trees => rw [cons_iff, List.forall₂_cons, ih]

/-- Nodes mean trees part by part. -/
protected theorem append (h : s.Means nodes trees) (h' : s.Means nodes' trees') :
    s.Means (nodes ++ nodes') (trees ++ trees') := by
  rw [iff_forall₂] at h h' ⊢
  exact List.rel_append h h'

/-- In reverse, nodes mean the trees in reverse. -/
protected theorem reverse (h : s.Means nodes trees) : s.Means nodes.reverse trees.reverse := by
  rw [iff_forall₂] at h ⊢
  exact List.rel_reverse h

/-- The first nodes mean the first trees. -/
protected theorem take (h : s.Means nodes trees) (n : Nat) :
    s.Means (nodes.take n) (trees.take n) := by
  rw [iff_forall₂] at h ⊢
  exact List.forall₂_take n h

/-- Nodes behind the first ones mean the trees behind the first ones. -/
protected theorem drop (h : s.Means nodes trees) (n : Nat) :
    s.Means (nodes.drop n) (trees.drop n) := by
  rw [iff_forall₂] at h ⊢
  exact List.forall₂_drop n h

/-- Nodes without the last one mean the trees without the last one. -/
protected theorem dropLast (h : s.Means nodes trees) : s.Means nodes.dropLast trees.dropLast := by
  rw [iff_forall₂] at h
  rw [List.dropLast_eq_take, List.dropLast_eq_take, h.length_eq]
  exact (iff_forall₂.mpr h).take _

/-- There are as many nodes as trees. -/
theorem length_eq (h : s.Means nodes trees) : nodes.length = trees.length :=
  (iff_forall₂.mp h).length_eq

/-- Nodes stand for one list of trees only. -/
theorem unique (h : s.Means nodes trees) (h' : s.Means nodes trees') : trees = trees' := by
  induction h generalizing trees' with
  | nil =>
    cases h'
    rfl
  | literal hd _ _ ih =>
    cases h' with
    | literal hd' _ hrest =>
      obtain ⟨rfl, -⟩ := List.cons.inj (hd.unique hd')
      rw [ih hrest]
  | named _ ih =>
    cases h' with
    | named hrest => rw [ih hrest]
  | apply _ _ ihchildren ih =>
    cases h' with
    | apply hchildren hrest => rw [ihchildren hchildren, ih hrest]

end Means

/-- A cell that denotes a datum is a literal. -/
theorem Gains.means {c : Cell} {d : Datum} (h : s.Gains s' [c] [d]) :
    s'.Means [.literal c] [.literal d] := by
  obtain ⟨ids, hden, hnodup, -, -⟩ := h
  exact .literal hden hnodup .nil

/-- A new cell with a scalar is a literal. -/
theorem means_newCell (hs : s.Sound) (type : String) {v : Value} (hv : v.tupleId? = none) :
    let made := Cell.make s.heap (.leaf type) v
    s.Enlarges { s with heap := made.2 } ∧
      ({ s with heap := made.2 } : Store).Means [.literal made.1] [.literal (.scalar type v)] :=
  ⟨(Gains.newCell hs type hv).enlarges (.make s _ v), (Gains.newCell hs type hv).means⟩

/-! ## What is seen from a scope -/

/-- Nothing is seen of the values in the heap. -/
theorem env_withHeap (s : Store) (heap : Heap) (scope : TupleId) :
    ({ s with heap } : Store).env scope = s.env scope := by
  have hchain : ∀ n id, ({ s with heap } : Store).chainWithin n id = s.chainWithin n id := by
    intro n id
    induction n generalizing id with
    | zero => rfl
    | succ n ih => simp only [chainWithin, tuple?, ih]
  have hscopes : ({ s with heap } : Store).scopeChain scope = s.scopeChain scope := hchain _ _
  unfold env candidates operators constructors isType actionsOf actionsMatching actionsNamed rootOf
    lookupType variableCell? lookupVariable
  simp only [hscopes, tuple?]

/-- However the store is enlarged, the scope looks the same, as long as the proviso is fulfilled. -/
def Sees (base : Store) (φ : Proviso) (scope : TupleId) (Γ : Env) : Prop :=
  ∀ s, base.Enlarges s → φ.Holds s → s.env scope = Γ

end Store

/-! ## Binding -/

/-- A cell is read as a name where it denotes one. -/
theorem Store.Denotes.read_name_iff {s : Store} {c : Cell} {d : Datum} {ids : List TupleId}
    (h : s.Denotes [c] [d] ids) {name : String} : c.read s.heap .name = .ok name ↔
      ∃ type, d = .scalar type (.name name) ∧ Native.name.accepts type = true := by
  unfold Cell.read Cell.checkType
  cases h with
  | @scalar _ _ type v _ _ htype hv _ _ =>
    -- whether the cell can be read as a name depends on its type alone
    have hadmits : c.admits .name = Native.name.accepts type := by
      rw [Cell.admits, htype]
      rfl
    rw [hadmits, hv.value_eq]
    cases haccepts : Native.name.accepts type with
    | false => exact iff_of_false nofun (by rintro ⟨_, heq, h⟩; cases heq; simp [haccepts] at h)
    | true => cases v <;> simp [bind, Except.bind, Native.unwrap?, haccepts]
  | tuple _ hv _ _ _ _ _ =>
    refine iff_of_false (fun hread => ?_) nofun
    rw [hv.value_eq] at hread
    cases hadmits : c.admits .name <;> rw [hadmits] at hread <;> cases hread

namespace Draft

variable {s : Store} {scope : TupleId} {draft : Draft} {trees : List Tree}

/-- Nodes have the type in the place of a name that their trees have. -/
theorem typeOperand?_eq (h : s.Means draft.children trees) :
    draft.typeOperand? s scope = (s.env scope).typeOperand? trees := by
  have hlast := h.reverse
  rw [typeOperand?, Env.typeOperand?, ← List.head?_reverse, ← List.head?_reverse]
  generalize draft.children.reverse = children at hlast
  generalize trees.reverse = operands at hlast
  -- only a literal that is a name can be a type operand
  cases hlast with
  | nil => rfl
  | named _ => rfl
  | apply _ _ => rfl
  | @literal c d ids _ _ hd _ _ =>
    rw [List.head?_cons, List.head?_cons]
    dsimp only
    cases hname : c.read s.heap .name with
    | ok name =>
      obtain ⟨type, rfl, haccepts⟩ := hd.read_name_iff.mp hname
      simp [haccepts, Store.env]
    | error e =>
      dsimp only
      split
      · rename_i type name heq
        obtain rfl := Tree.literal.inj (Option.some.inj heq)
        rw [if_neg fun haccepts => ?_]
        have hok := hd.read_name_iff.mpr ⟨type, rfl, haccepts⟩
        rw [hname] at hok
        cases hok
      · rfl

/-- The types of the operands are those of the trees. -/
theorem operandTypes_eq (h : s.Means draft.children trees) :
    draft.operandTypes = Env.operandTypes draft.op trees draft.argNames := by
  have htypes := h.map_type
  unfold operandTypes Env.operandTypes
  by_cases hcall : draft.op = .call
  · rw [if_pos hcall, if_pos hcall]
    -- the fields agree one by one, for each has the type of its node
    refine congrArg (fun fields => (TypeDesc.void, TypeDesc.tree fields))
      (List.ext_getElem (by simp [h.length_eq]) fun i hi hi' => ?_)
    rw [List.length_mapIdx] at hi hi'
    have htype := List.getElem_of_eq htypes (by rwa [List.length_map] : i < _)
    rw [List.getElem_map, List.getElem_map] at htype
    rw [List.getElem_mapIdx, List.getElem_mapIdx, htype]
  · rw [if_neg hcall, if_neg hcall]
    revert htypes
    cases draft.children <;> cases trees <;> intro htypes
    · rfl
    · cases htypes
    · cases htypes
    · obtain ⟨howner, hrest⟩ := List.cons.inj htypes
      dsimp only
      rw [howner, hrest]

/-- At every position there are a node and its tree, with the same name, or there is nothing. -/
theorem lookup_slots {nodes : List Node} (h : s.Means nodes trees) (names : List (Option String))
    (positions : List Nat) (p : Nat) :
    (positions.zip (nodes.zip names)).lookup p = none ∧
        (positions.zip (trees.zip names)).lookup p = none ∨
      ∃ node tree name, (positions.zip (nodes.zip names)).lookup p = some (node, name) ∧
        (positions.zip (trees.zip names)).lookup p = some (tree, name) ∧ s.Means [node] [tree] := by
  rw [Store.Means.iff_forall₂] at h
  induction h generalizing names positions with
  | nil => exact .inl ⟨by simp, by simp⟩
  | @cons node tree nodes trees hnode _ ih =>
    cases names with
    | nil => exact .inl ⟨by simp, by simp⟩
    | cons name names =>
      cases positions with
      | nil => exact .inl ⟨rfl, rfl⟩
      | cons position positions =>
        simp only [List.zip_cons_cons, List.lookup_cons]
        -- the first position is the one looked for, or it is further on
        cases p == position with
        | true => exact .inr ⟨node, tree, name, rfl, rfl, hnode⟩
        | false => exact ih names positions

/-- In the order of declaration, nodes stand for the trees in the same order, with the same names.
-/
theorem means_declaredOrder (h : s.Means draft.children trees) (positions : List Nat) :
    s.Means (draft.declaredOrder positions).1
        (Env.declaredOrder trees draft.argNames positions).1 ∧
      (draft.declaredOrder positions).2 = (Env.declaredOrder trees draft.argNames positions).2 := by
  have hlength : (positions.zip (draft.children.zip draft.argNames)).length =
      (positions.zip (trees.zip draft.argNames)).length := by simp [h.length_eq]
  unfold declaredOrder Env.declaredOrder
  dsimp only
  rw [hlength]
  generalize List.range _ = places
  induction places with
  | nil => exact ⟨.nil, rfl⟩
  | cons p places ih =>
    rcases lookup_slots h draft.argNames positions p with
      ⟨hnone, hnone'⟩ | ⟨node, tree, name, hsome, hsome', hnode⟩
    · simp only [List.filterMap_cons, hnone, hnone']
      exact ih
    · simp only [List.filterMap_cons, hsome, hsome']
      exact ⟨Store.Means.cons_iff.mpr ⟨hnode, ih.1⟩, congrArg (name :: ·) ih.2⟩

/-- What is bound to an action stands for the tree that is bound to it. -/
theorem means_bound (h : s.Means draft.children trees) (action : Action) (owner args : TypeDesc) :
    s.Means [draft.bound action owner args]
      [Env.bound draft.op draft.name trees draft.argNames action owner args] := by
  unfold bound Env.bound
  by_cases hnamed : draft.op = .call ∧ draft.argNames.any Option.isSome
  · rw [if_pos hnamed, if_pos hnamed]
    cases action.signature.declaredPositions args with
    | none => exact .apply h .nil
    | some positions =>
      obtain ⟨hordered, hnames⟩ := means_declaredOrder h positions
      dsimp only
      rw [hnames]
      exact .apply hordered .nil
  · rw [if_neg hnamed, if_neg hnamed]
    exact .apply h .nil

/-- The actions that may be bound are those that are seen from the scope. -/
theorem candidates_eq (owner args : TypeDesc) : s.candidates scope draft owner args =
    (s.env scope).candidates draft.op draft.name owner args := rfl

/-- The ordering that a comparison falls back on is the one that the scope has. -/
theorem comparison?_eq (hrelational : draft.op.isRelational = true)
    (hname : draft.name = draft.op.actionName) (owner args : TypeDesc) :
    s.comparison? scope draft owner args = (s.env scope).comparison? draft.op owner args := by
  have hoperators : ∀ op name owner args, op ≠ .call →
      (s.env scope).candidates op name owner args = s.operators scope name owner args :=
    fun op name owner args hop => if_pos hop
  -- a relational operator is no call, so its candidates are operators
  have hcall : draft.op ≠ .call := by
    intro hcall
    rw [hcall] at hrelational
    cases hrelational
  unfold Store.comparison? Env.comparison?
  rewrite [hoperators .cmp _ _ _ (by decide)]
  cases Choice.mostSpecific (s.operators scope Operator.cmp.actionName owner args) with
  | one compare =>
    dsimp only
    rewrite [hname, hoperators _ _ _ _ hcall]
    rfl
  | nothing => rfl
  | ambiguous count => rfl

end Draft

namespace ParseM

/-- The parser gives a node for the tree that the grammar gives, and enlarges the store. -/
def Parses (φ : Store.Proviso) (m : ParseM Node) (s : ParseState)
    (o : Option (Tree × List Lexeme)) : Prop :=
  FollowsWhile φ (fun node tree t => s.store.Enlarges t ∧ t.Means [node] [tree]) m s o

end ParseM

namespace Draft

variable {base : Store} {scope : TupleId} {Γ : Env} {s : ParseState} {draft : Draft}
  {trees : List Tree}

section Binds

variable (hs : s.store.Sound) (hΓ : s.store.env scope = Γ) (hcursor : s.cursor.Regular)
  (h : s.store.Means draft.children trees)

include hs hcursor h

/-- A comparison that falls back on an ordering means the tree that says so. -/
theorem follows_compared (comparison : Action × TypeDesc × Action × TypeDesc)
    (hname : draft.name = draft.op.actionName) :
    Follows (fun node tree t => s.store.Enlarges t ∧ t.Means [node] [tree])
      (draft.compared comparison) s
      (some (Env.compared draft.op trees comparison, s.cursor.lexemes)) := by
  obtain ⟨compare, ordering, relation, returns⟩ := comparison
  have hv : (Value.int 0).tupleId? = none := rfl
  obtain ⟨hzero, hliteral⟩ := Store.means_newCell hs "int" hv
  refine ⟨hcursor, rfl, hzero, ?_⟩
  rw [Env.compared, ← hname]
  exact .apply (.apply (h.mono hzero) hliteral) .nil

include hΓ

/-- A type in the place of the last operand is one more value in the heap, and nothing else is seen
from the scope. -/
theorem follows_coerceTypeOperand :
    Follows (fun d operands t => s.store.Enlarges t ∧ t.Means d.children operands ∧
        t.env scope = Γ ∧ d = { draft with children := d.children })
      (draft.coerceTypeOperand scope) s (some (Γ.coerce draft.op trees, s.cursor.lexemes)) := by
  unfold coerceTypeOperand Env.coerce
  by_cases htest : draft.op = .is ∨ draft.op = .isNot
  · rw [if_pos htest, if_pos htest]
    refine .store_bind ?_
    rw [typeOperand?_eq h, hΓ]
    cases Γ.typeOperand? trees with
    | none => exact .pure hcursor ⟨.refl hs, h, hΓ, rfl⟩
    | some type =>
      have hv : (Value.type type).tupleId? = none := rfl
      obtain ⟨henlarges, hmeans⟩ := Store.means_newCell hs "type" hv
      exact ⟨hcursor, rfl, henlarges, (h.dropLast.mono henlarges).append hmeans,
        (Store.env_withHeap _ _ _).trans hΓ, rfl⟩
  · rw [if_neg htest, if_neg htest]
    exact .pure hcursor ⟨.refl hs, h, hΓ, rfl⟩

/-- Binding an operator or a call to nodes gives a node for what it is bound to with their trees. -/
theorem follows_bind (span : Span)
    (hname : draft.op.isRelational = true → draft.name = draft.op.actionName) :
    Follows (fun node tree t => s.store.Enlarges t ∧ t.Means [node] [tree])
      (draft.bind scope span) s
      ((Γ.bind draft.op draft.name trees draft.argNames).map (·, s.cursor.lexemes)) := by
  obtain ⟨d, s₁, hrun, hcursor₁, hlexemes, henlarges, hmeans, hΓ₁, hd⟩ :=
    (follows_coerceTypeOperand hs hΓ hcursor h).of_some
  obtain ⟨op, name, children, names⟩ := draft
  obtain ⟨op', name', operands, names'⟩ := d
  simp only [mk.injEq, true_and] at hd
  obtain ⟨rfl, rfl, rfl⟩ := hd
  dsimp only at hname hmeans hrun ⊢
  -- the operands of the draft have the types of the trees, so the same actions are candidates
  have htypes : operandTypes ⟨op', name', operands, names'⟩ =
      Env.operandTypes op' (Γ.coerce op' trees) names' := operandTypes_eq hmeans
  have hbound : ∀ action owner args,
      s₁.store.Means [bound ⟨op', name', operands, names'⟩ action owner args]
        [Env.bound op' name' (Γ.coerce op' trees) names' action owner args] := means_bound hmeans
  unfold Draft.bind
  refine .bind_of_ok hrun ?_
  rw [Env.bind, htypes]
  dsimp only
  refine .store_bind ?_
  rw [candidates_eq, hΓ₁]
  generalize Env.operandTypes op' (Γ.coerce op' trees) names' = types
  obtain ⟨owner, args⟩ := types
  dsimp only
  cases Choice.mostSpecific (Γ.candidates op' name' owner args) with
  | one action =>
    rw [← hlexemes]
    exact .pure hcursor₁ ⟨henlarges, hbound action owner args⟩
  | ambiguous count => exact (Follows.complain _ _).holding _
  | nothing =>
    dsimp only
    -- without an action of its own a relational operator falls back on the comparison
    cases hrelational : op'.isRelational with
    | false => exact (Follows.complain _ _).holding _
    | true =>
      rw [if_pos rfl, if_pos rfl, comparison?_eq hrelational (hname hrelational), hΓ₁]
      cases Γ.comparison? op' owner args with
      | none => exact (Follows.complain _ _).holding _
      | some comparison =>
        rw [← hlexemes]
        refine Follows.imp (follows_compared henlarges.sound hcursor₁ hmeans comparison
          (hname hrelational)) fun node tree t ht => ⟨henlarges.trans ht.1, ht.2⟩

end Binds

/-- Binding a draft follows binding the trees that its operands mean. -/
theorem binds {φ : Store.Proviso} (hsees : base.Sees φ scope Γ) (hs : base.Enlarges s.store)
    (hcursor : s.cursor.Regular) (h : s.store.Means draft.children trees) (span : Span)
    (hname : draft.op.isRelational = true → draft.name = draft.op.actionName) :
    Parses φ (draft.bind scope span) s
      ((Γ.bind draft.op draft.name trees draft.argNames).map (·, s.cursor.lexemes)) :=
  .of_start (ages_bind draft span) fun hp =>
    .of_follows (follows_bind hs.sound (hsees _ hs hp) hcursor h span hname)

end Draft

end TupleLang
