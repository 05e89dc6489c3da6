import TupleLang.Proofs.Tasks
import TupleLang.Proofs.Temporaries

/-!
# Assigning scalars

Assigning a scalar to a scalar changes a value, but every place keeps the tuple that it has, or
stays without one (`Heap.Retains`). Who owns what depends on that alone, so the account of what is
in flight can be kept in the heap as it has become: `Store.Conveys base s cells` says that it comes
out for the tuples of `base` with the heap of `s`.

It comes out after every tree that assigns nothing but scalars to scalars (`Node.AssignsScalars`,
`conveyed_evaluate`). Unlike in a tree without assignments, values may change here, also that of a
condition after the branch has been chosen; what goes out of hand is not followed any further.
-/

namespace TupleLang

/-! ## Trees that assign scalars -/

/-- Whether the body writes to a place that was there before and hands it on. -/
def Body.isAssignment : Body → Bool
  | compound .. | assign => true
  | _ => false

namespace Node

/-- Where the tree ends normally its value is no tuple, as long as tuples stay where `h` has them:
it is a leaf with a scalar, it is computed, it has been assigned, or it comes from such a branch. -/
inductive Scalar (h : Heap) : Node → Prop
  | value {cell : Cell} {label : Option String} : cell.IsScalar h → Scalar h (.value cell label)
  | computed {binding : Binding} {children : List Node} : binding.action.body.isScalar →
      Scalar h (.apply binding children)
  | assigned {binding : Binding} {children : List Node} : binding.action.body.isAssignment →
      Scalar h (.apply binding children)
  | choice {binding : Binding} {children : List Node} : binding.action.body = .choose →
      (∀ n ∈ children.tail, Scalar h n) → Scalar h (.apply binding children)

end Node

/-- The operator assigns nothing but scalars to scalars. Compound assignments compute what they
assign; what the bodies of the host do is not known. -/
def Binding.AssignsScalars (h : Heap) (b : Binding) (children : List Node) : Prop :=
  match b.action.body with
  | .assign => ∀ n ∈ children, n.Scalar h
  | .host _ => False
  | _ => True

/-- All operators of the tree assign nothing but scalars to scalars. -/
def Node.AssignsScalars (h : Heap) : Node → Prop := Node.Each (Binding.AssignsScalars h)

/-- A tree that assigns nothing does not assign tuples. -/
theorem Node.Quiet.assignsScalars {node : Node} {h : Heap} (hquiet : node.Quiet) :
    node.AssignsScalars h := by
  induction hquiet with
  | value _ => exact .value
  | @apply binding children hbody _ ih =>
    refine .apply ?_ ih
    unfold Binding.AssignsScalars
    split
    · rename_i hassign
      rw [hassign] at hbody
      cases hbody
    · rename_i hhost
      rw [hhost] at hbody
      cases hbody
    · trivial

/-! ## The account of what is in flight -/

namespace Store

variable {base s s' s₁ : Store} {cells extra : Multiset Cell} {c x y : Cell} {v : Value}
  {signal : Signal}

/-- What is in flight stays so in another heap that has the tuples in the same places. -/
theorem Brings.withHeap (h : base.Brings s cells) {heap : Heap} (hheap : s.heap.Retains heap) :
    ({ base with heap } : Store).Brings { s with heap } cells := by
  obtain ⟨ids, hheld, hmakes⟩ := h
  obtain ⟨l, hl, hown⟩ := hheld.owns
  refine ⟨ids, ⟨⟨l, hl, hown.congr (fun _ _ => rfl) hheap⟩, hheld.nodup, hheld.root⟩, ?_, ?_,
    hmakes.ages, hmakes.young⟩
  · exact { hmakes.trade with
      sound := ⟨hmakes.trade.sound.arena, hmakes.trade.sound.root_live⟩
      heap := .refl _ }
  · exact hheld.closed.encloses (fun _ _ => rfl) hheap hmakes.encloses

/-- The store has come about from `base` with these cells in flight, among others that nobody has in
hand any more. Tuples have stayed where they were in the heap. -/
def Conveys (base s : Store) (cells : Multiset Cell) : Prop :=
  base.heap.Retains s.heap ∧
    ∃ lost, ({ base with heap := s.heap } : Store).Brings s (cells + lost)

namespace Conveys

/-- Cells that were brought are conveyed. -/
theorem of_brings (h : base.Brings s cells) : base.Conveys s cells :=
  ⟨h.grows.retains, 0, by simpa using h.withHeap (.refl _)⟩

/-- What cells are conveyed to is sound. -/
theorem sound (h : base.Conveys s cells) : s.Sound := h.2.choose_spec.sound

/-- Cells go out of hand. -/
theorem lose (h : base.Conveys s (cells + extra)) : base.Conveys s cells := by
  obtain ⟨hheap, lost, hbrings⟩ := h
  exact ⟨hheap, extra + lost, by rwa [← add_assoc]⟩

/-- A cell without a tuple may join in. -/
theorem loose (h : base.Conveys s cells) (hc : c.Loose s.heap) : base.Conveys s (c ::ₘ cells) := by
  obtain ⟨hheap, lost, hbrings⟩ := h
  exact ⟨hheap, lost, by simpa using hbrings.loose hc⟩

/-- What is in flight stays so while more is conveyed along. -/
protected theorem trans (h : base.Conveys s cells) (hnext : s.Conveys s' extra) :
    base.Conveys s' (extra + cells) := by
  obtain ⟨hheap, lost, hbrings⟩ := h
  obtain ⟨hheap', lost', hbrings'⟩ := hnext
  refine ⟨hheap.trans hheap', lost' + lost, ?_⟩
  rw [add_add_add_comm]
  exact (hbrings.withHeap hheap').trans hbrings'

/-- Only the last cell stays in hand. -/
theorem next (h : base.Conveys s cells) (hnext : s.Conveys s' {c}) : base.Conveys s' {c} :=
  (h.trans hnext).lose

/-- A value that is no tuple may be written over another one. -/
theorem write (h : base.Conveys s cells) (hx : x.IsScalar s.heap) (hv : v.tupleId? = none) :
    base.Conveys { s with heap := s.heap.put x.loc v } cells := by
  obtain ⟨hheap, lost, hbrings⟩ := h
  obtain ⟨w, hw, hnone⟩ := hx
  have hput := Heap.Retains.put hw hnone hv
  exact ⟨hheap.trans hput, lost, hbrings.withHeap hput⟩

end Conveys

/-! ## Bodies -/

/-- A handle on the place where a scalar has been written over another one is in hand. -/
theorem Conveys.write_place (h : base.Conveys s cells) (hx : x.IsScalar s.heap)
    (hv : v.tupleId? = none) (hc : c.loc = x.loc) :
    base.Conveys { s with heap := s.heap.put x.loc v } {c} ∧
      c.IsScalar (s.heap.put x.loc v) := by
  have hwritten := h.write hx hv
  obtain ⟨w, hw, -⟩ := hx
  have hlt := (Array.getElem?_eq_some_iff.mp hw).1
  have hscalar : c.IsScalar (s.heap.put x.loc v) :=
    ⟨v, by simp [Cell.Stores, Heap.put, hc, hlt], hv⟩
  exact ⟨lose (hwritten.loose hscalar.loose), hscalar⟩

/-- Assigning a scalar to a scalar writes to the place of the target. -/
theorem eq_of_assignCell (hx : x.IsScalar s.heap) (hy : y.IsScalar s.heap)
    (hrun : Body.assignCell x y s = .ok c s') :
    ∃ v, v.tupleId? = none ∧ s' = { s with heap := s.heap.put x.loc v } ∧ c.loc = x.loc := by
  obtain ⟨u, hu, hnone⟩ := hx
  obtain ⟨v, hv, hnone'⟩ := hy
  have hx : x.tupleId? s.heap = none := hu.tupleId?_eq.trans hnone
  have hy : y.tupleId? s.heap = none := hv.tupleId?_eq.trans hnone'
  simp only [Body.assignCell_eq, StoreM.bind_eq_ok, StoreM.ofExcept_eq_ok] at hrun
  obtain ⟨_, _, ⟨-, rfl⟩, hrest⟩ := hrun
  split at hrest
  · obtain ⟨_, _, hthrow, -⟩ := StoreM.bind_eq_ok.mp hrest
    cases hthrow
  · simp only [StoreM.bind_eq_ok] at hrest
    obtain ⟨_, _, hget, _, _, hget', hput⟩ := hrest
    cases hget
    cases hget'
    -- nothing is copied, and no tuple was there before
    simp only [hx, hy, Option.isSome_none, Bool.and_false, Bool.false_eq_true, if_false, pure_bind,
      Body.putInto, StoreM.bind_eq_ok, StoreM.tryHeap_eq_ok] at hput
    obtain ⟨target, _, ⟨heap, hclone, rfl⟩, hdone⟩ := hput
    cases hdone
    obtain ⟨-, rfl, rfl⟩ := Cell.replace_eq_ok_iff.mp hclone
    exact ⟨_, hy, rfl, rfl⟩

/-- Storing a computed value, or raising the condition, keeps the account. -/
theorem Conveys.deposit {n : Native} {result : Except Condition n.Carrier}
    (h : base.Conveys s cells) (hx : x.IsScalar s.heap)
    (hrun : Body.deposit x n result s = .ok (signal, c) s') :
    base.Conveys s' {c} ∧ c.IsScalar s'.heap := by
  cases result with
  | ok w =>
    simp only [Body.deposit, StoreM.write, StoreM.bind_eq_ok, StoreM.tryHeap_eq_ok] at hrun
    obtain ⟨_, _, ⟨heap, hset, rfl⟩, hdone⟩ := hrun
    cases hdone
    cases hplace : c.set s.heap n w with
    | error e =>
      rw [hplace] at hset
      cases hset
    | ok heap' =>
      rw [hplace] at hset
      cases hset
      obtain ⟨-, -, rfl⟩ := Cell.set_eq_ok_iff.mp hplace
      exact h.write_place hx (Literal.tupleId?_native n w) rfl
  | error condition =>
    obtain ⟨hbrings, hscalar, -⟩ := brings_raised h.sound hrun
    exact ⟨h.next (.of_brings hbrings), hscalar⟩

/-- Running a body that assigns nothing but scalars to scalars on its operands. -/
theorem Conveys.effect {body : Body} {name : String} {operands : List Cell}
    (h : base.Conveys s operands) (hchoose : body ≠ .choose) (hhost : ∀ label, body ≠ .host label)
    (hassign : body = .assign → ∀ x ∈ operands, x.IsScalar s.heap)
    (hrun : body.effect name operands.reverse s = .ok (signal, c) s') :
    base.Conveys s' {c} ∧
      (body.isScalar ∨ body.isAssignment → signal.isNormal → c.IsScalar s'.heap) := by
  obtain ⟨stack, rfl⟩ : ∃ stack : List Cell, operands = stack.reverse :=
    ⟨operands.reverse, operands.reverse_reverse.symm⟩
  by_cases hquiet : body.isQuiet
  · obtain ⟨hheap, lost, hbrings⟩ := h
    obtain ⟨hgrows, hbrings, hscalar, -⟩ := hbrings.effect hquiet hchoose hrun
    have hin : base.Conveys s' ({c} + (body.forgotten stack.reverse : Multiset Cell)) := by
      refine ⟨hheap.trans hgrows.retains, lost, ?_⟩
      rw [add_assoc, Multiset.singleton_add]
      exact hbrings.withHeap (.refl _)
    refine ⟨hin.lose, fun hbody => hscalar (hbody.resolve_right fun hassigns => ?_)⟩
    cases body <;> simp_all [Body.isQuiet, Body.isAssignment]
  · rw [List.reverse_reverse] at hrun
    cases body with
    | compound a b f =>
      rcases stack with _ | ⟨y, _ | ⟨x, rest⟩⟩
      · cases hrun
      · cases hrun
      · simp only [Body.effect, StoreM.bind_eq_ok, StoreM.read_eq_ok] at hrun
        obtain ⟨u, _, ⟨hx, rfl⟩, v, s₁, ⟨-, rfl⟩, hrest⟩ := hrun
        have hdeposit : Body.deposit x a (f u v) s₁ = .ok (signal, c) s' := by
          cases hf : f u v <;> (rw [hf] at hrest; exact hrest)
        obtain ⟨hconveys, hscalar⟩ := h.deposit (Cell.stores_of_read hx) hdeposit
        exact ⟨hconveys, fun _ _ => hscalar⟩
    | assign =>
      rcases stack with _ | ⟨y, _ | ⟨x, rest⟩⟩
      · cases hrun
      · cases hrun
      · simp only [Body.effect, StoreM.bind_eq_ok] at hrun
        obtain ⟨target, s₁, hcell, hdone⟩ := hrun
        cases hdone
        have hx := hassign rfl x (by simp)
        obtain ⟨v, hv, rfl, hloc⟩ := eq_of_assignCell hx (hassign rfl y (by simp)) hcell
        obtain ⟨hconveys, hscalar⟩ := h.write_place hx hv hloc
        exact ⟨hconveys, fun _ _ => hscalar⟩
    | host label => exact absurd rfl (hhost label)
    | _ => exact absurd rfl hquiet

/-! ## Evaluation -/

/-- What evaluating a tree comes to, where tuples were in the places that `h` has them in. -/
structure Conveyed (h : Heap) (s : Store) (node : Node) (s' : Store) (signal : Signal) (c : Cell) :
    Prop where
  conveys : s.Conveys s' {c}
  scalar : node.Scalar h → signal.isNormal → c.IsScalar s'.heap

/-- What evaluating operands comes to. -/
def ConveyedAll (h : Heap) (s : Store) (nodes : List Node) (s' : Store) : Operands → Prop
  | .interrupted signal c => s.Conveys s' {c} ∧ ¬signal.isNormal
  | .ready cells => s.Conveys s' (cells : Multiset Cell) ∧
      List.Forall₂ (fun n c => n.Scalar h → c.IsScalar s'.heap) nodes cells

section Operands

variable {h : Heap} {host : Host} {node : Node} {nodes : List Node} {operands : Operands}
  {depth : Nat}

/-- An operand in front of others. -/
theorem ConveyedAll.cons (hfirst : s.Conveys s₁ {c}) (hscalar : node.Scalar h → c.IsScalar s₁.heap)
    (hrest : s₁.ConveyedAll h nodes s' operands) :
    s.ConveyedAll h (node :: nodes) s' (operands.cons c) := by
  cases operands with
  | interrupted signal cell => exact ⟨hfirst.next hrest.1, hrest.2⟩
  | ready cells =>
    refine ⟨?_, .cons (fun hn => (hscalar hn).retains hrest.1.1) hrest.2⟩
    have hboth := hfirst.trans hrest.1
    rwa [add_comm, Multiset.singleton_add] at hboth

/-- Branches that are not evaluated are void. -/
theorem conveyedAll_skipBranches (hs : s.Sound)
    (hrun : Node.skipBranches nodes s = .ok operands s') : s.ConveyedAll h nodes s' operands := by
  induction nodes generalizing s operands with
  | nil =>
    cases hrun
    exact ⟨.of_brings (.refl hs), .nil⟩
  | cons node rest ih =>
    simp only [Node.skipBranches, StoreM.bind_eq_ok] at hrun
    obtain ⟨void, s₁, hvoid, operands', s₂, hrest, hdone⟩ := hrun
    cases hdone
    obtain ⟨hbrings, hscalar⟩ := brings_newVoid hs hvoid
    exact .cons (.of_brings hbrings) (fun _ => hscalar) (ih hbrings.sound hrest)

/-- Evaluating trees from left to right. -/
theorem conveyedAll_evaluateAll
    (ih : ∀ n ∈ nodes, ∀ (s s' : Store) signal c, s.Sound → h.Retains s.heap →
      n.evaluate host depth s = .ok (signal, c) s' → s.Conveyed h n s' signal c)
    (hs : s.Sound) (hheap : h.Retains s.heap)
    (hrun : Node.evaluateAll host nodes depth s = .ok operands s') :
    s.ConveyedAll h nodes s' operands := by
  induction nodes generalizing s operands with
  | nil =>
    cases hrun
    exact ⟨.of_brings (.refl hs), .nil⟩
  | cons node rest ihrest =>
    simp only [Node.evaluateAll, StoreM.bind_eq_ok] at hrun
    obtain ⟨⟨signal, cell⟩, s₁, hnode, hrun⟩ := hrun
    have hnode := ih node List.mem_cons_self s s₁ signal cell hs hheap hnode
    split at hrun
    · rename_i hnormal
      simp only [StoreM.bind_eq_ok] at hrun
      obtain ⟨operands', s₂, hrest, hdone⟩ := hrun
      cases hdone
      refine .cons hnode.conveys (fun hn => hnode.scalar hn hnormal) ?_
      exact ihrest (fun n hn => ih n (List.mem_cons_of_mem _ hn)) hnode.conveys.sound
        (hheap.trans hnode.conveys.1) hrest
    · rename_i hnormal
      cases hrun
      exact ⟨hnode.conveys, hnormal⟩

/-- Evaluating the branches behind a condition. -/
theorem conveyedAll_evaluateBranches {truth : Bool}
    (ih : ∀ n ∈ nodes, ∀ (s s' : Store) signal c, s.Sound → h.Retains s.heap →
      n.evaluate host depth s = .ok (signal, c) s' → s.Conveyed h n s' signal c)
    (hs : s.Sound) (hheap : h.Retains s.heap)
    (hrun : Node.evaluateBranches host truth nodes depth s = .ok operands s') :
    s.ConveyedAll h nodes s' operands := by
  cases nodes with
  | nil =>
    cases hrun
    exact ⟨.of_brings (.refl hs), .nil⟩
  | cons branch rest =>
    rw [Node.evaluateBranches] at hrun
    cases truth with
    | true =>
      simp only [if_true, StoreM.bind_eq_ok] at hrun
      obtain ⟨⟨signal, cell⟩, s₁, hbranch, hrun⟩ := hrun
      have hbranch := ih branch List.mem_cons_self s s₁ signal cell hs hheap hbranch
      split at hrun
      · rename_i hnormal
        simp only [StoreM.bind_eq_ok] at hrun
        obtain ⟨operands', s₂, hrest, hdone⟩ := hrun
        cases hdone
        exact .cons hbranch.conveys (fun hn => hbranch.scalar hn hnormal)
          (conveyedAll_skipBranches hbranch.conveys.sound hrest)
      · rename_i hnormal
        cases hrun
        exact ⟨hbranch.conveys, hnormal⟩
    | false =>
      simp only [Bool.false_eq_true, if_false, StoreM.bind_eq_ok] at hrun
      obtain ⟨void, s₁, hvoid, operands', s₂, hrest, hdone⟩ := hrun
      cases hdone
      obtain ⟨hbrings, hscalar⟩ := brings_newVoid hs hvoid
      exact .cons (.of_brings hbrings) (fun _ => hscalar)
        (conveyedAll_evaluateAll (fun n hn => ih n (List.mem_cons_of_mem _ hn)) hbrings.sound
          (hheap.trans hbrings.grows.retains) hrest)

/-- Evaluating a condition and the branch that it chooses. -/
theorem conveyedAll_evaluateChoice {name : String}
    (ih : ∀ n ∈ nodes, ∀ (s s' : Store) signal c, s.Sound → h.Retains s.heap →
      n.evaluate host depth s = .ok (signal, c) s' → s.Conveyed h n s' signal c)
    (hs : s.Sound) (hheap : h.Retains s.heap)
    (hrun : Node.evaluateChoice host name nodes depth s = .ok operands s') :
    s.ConveyedAll h nodes s' operands := by
  cases nodes with
  | nil => cases hrun
  | cons condition branches =>
    simp only [Node.evaluateChoice, StoreM.bind_eq_ok] at hrun
    obtain ⟨⟨signal, cell⟩, s₁, hcondition, hrun⟩ := hrun
    have hcondition := ih condition List.mem_cons_self s s₁ signal cell hs hheap hcondition
    split at hrun
    · rename_i hnormal
      simp only [StoreM.bind_eq_ok] at hrun
      obtain ⟨truth, s₂, hread, operands', s₃, hbranches, hdone⟩ := hrun
      obtain ⟨-, rfl⟩ := StoreM.read_eq_ok.mp hread
      cases hdone
      exact .cons hcondition.conveys (fun hn => hcondition.scalar hn hnormal)
        (conveyedAll_evaluateBranches (fun n hn => ih n (List.mem_cons_of_mem _ hn))
          hcondition.conveys.sound (hheap.trans hcondition.conveys.1) hbranches)
    · rename_i hnormal
      cases hrun
      exact ⟨hcondition.conveys, hnormal⟩

/-- Choosing between operands. -/
theorem ConveyedAll.choose {children : List Node} {name : String} {cells : List Cell}
    (hall : s.ConveyedAll h children s₁ (.ready cells))
    (hrun : Body.choose.effect name cells.reverse s₁ = .ok (signal, c) s') :
    s.Conveys s' {c} ∧ ((∀ n ∈ children.tail, n.Scalar h) → c.IsScalar s'.heap) := by
  obtain ⟨⟨hheap, lost, hbrings⟩, hscalars⟩ := hall
  cases cells with
  | nil => cases hrun
  | cons condition branches =>
    obtain ⟨-, hgrows, hcell, _, left, -, hbrings, -⟩ := hbrings.choose hrun
    have hconveys : s.Conveys s' ({c} + (left : Multiset Cell)) := by
      refine ⟨hheap.trans hgrows.retains, lost, ?_⟩
      rw [add_assoc, Multiset.singleton_add]
      exact hbrings.withHeap (.refl _)
    refine ⟨hconveys.lose, fun hchildren => ?_⟩
    refine hcell.elim (fun hmem => ?_) id
    cases hscalars with
    | cons _ hbranches =>
      exact (forall_of_forall₂ hbranches hchildren c hmem).retains hgrows.retains

/-- Applying an operator that assigns nothing but scalars to scalars. -/
theorem ConveyedAll.apply {binding : Binding} {children : List Node} {cells : List Cell}
    (hall : s.ConveyedAll h children s₁ (.ready cells))
    (hbinding : binding.AssignsScalars h children)
    (hrun : binding.action.apply host binding.name cells s₁ = .ok (signal, c) s') :
    s.Conveyed h (.apply binding children) s' signal c := by
  have hhost : ∀ label, binding.action.body ≠ .host label := by
    intro label hlabel
    simp only [Binding.AssignsScalars, hlabel] at hbinding
  rw [Action.apply_eq hhost] at hrun
  by_cases hchoose : binding.action.body = .choose
  · rw [hchoose] at hrun
    obtain ⟨hconveys, hscalar⟩ := hall.choose hrun
    refine ⟨hconveys, fun hnode _ => ?_⟩
    cases hnode with
    | choice _ hbranches => exact hscalar hbranches
    | computed hbody | assigned hbody =>
      rw [hchoose] at hbody
      cases hbody
  · have hassign : binding.action.body = .assign → ∀ x ∈ cells, x.IsScalar s₁.heap := by
      intro hassign
      simp only [Binding.AssignsScalars, hassign] at hbinding
      exact forall_of_forall₂ hall.2 hbinding
    obtain ⟨hconveys, hscalar⟩ := hall.1.effect hchoose hhost hassign hrun
    refine ⟨hconveys, fun hnode hnormal => ?_⟩
    cases hnode with
    | computed hbody => exact hscalar (.inl hbody) hnormal
    | assigned hbody => exact hscalar (.inr hbody) hnormal
    | choice hbody => exact absurd hbody hchoose

/-- Evaluating a tree that assigns nothing but scalars to scalars. -/
theorem conveyed_evaluate (hnode : node.AssignsScalars h) (hs : s.Sound) (hheap : h.Retains s.heap)
    (hrun : node.evaluate host depth s = .ok (signal, c) s') : s.Conveyed h node s' signal c := by
  induction hnode generalizing s s' signal c depth with
  | value =>
    simp only [Node.evaluate, StoreM.bind_eq_ok] at hrun
    obtain ⟨_, s₁, hdepth, c', s₂, hyield, hdone⟩ := hrun
    cases hdone
    rw [eq_of_checkDepth hdepth] at hyield
    obtain ⟨hbrings, -, hscalar⟩ := brings_yieldCell hs hyield
    refine ⟨.of_brings hbrings, fun hnode _ => hscalar ?_⟩
    cases hnode with
    | value hcell => exact hcell.retains hheap
  | @apply binding children hbinding _ ih =>
    simp only [Node.evaluate, StoreM.bind_eq_ok] at hrun
    obtain ⟨_, s₁, hdepth, hrun⟩ := hrun
    rw [eq_of_checkDepth hdepth] at hrun
    have ih : ∀ n ∈ children, ∀ (s s' : Store) signal c, s.Sound → h.Retains s.heap →
        n.evaluate host (depth + 1) s = .ok (signal, c) s' → s.Conveyed h n s' signal c :=
      fun n hn s s' signal c hs hheap hrun => ih n hn hs hheap hrun
    -- however the operands were evaluated, the action is applied to them in the same way
    have happly : ∀ operands s₂, s.ConveyedAll h children s₂ operands →
        (match operands with
          | .interrupted signal cell => return (signal, cell)
          | .ready cells => binding.action.apply host binding.name cells :
            StoreM (Signal × Cell)) s₂ = .ok (signal, c) s' →
        s.Conveyed h (.apply binding children) s' signal c := by
      intro operands s₂ hall hrun
      cases operands with
      | interrupted signal' cell =>
        cases hrun
        exact ⟨hall.1, fun _ hnormal => absurd hnormal hall.2⟩
      | ready cells => exact hall.apply hbinding hrun
    split at hrun
    · simp only [StoreM.bind_eq_ok] at hrun
      obtain ⟨operands, s₂, hoperands, hrun⟩ := hrun
      exact happly operands s₂ (conveyedAll_evaluateChoice ih hs hheap hoperands) hrun
    · simp only [StoreM.bind_eq_ok] at hrun
      obtain ⟨operands, s₂, hoperands, hrun⟩ := hrun
      exact happly operands s₂ (conveyedAll_evaluateAll ih hs hheap hoperands) hrun

/-- Evaluating statements: the outcomes are in flight. -/
theorem conveys_evaluateRoots {roots : List Node} {outcomes : List Outcome}
    (hroots : ∀ n ∈ roots, n.AssignsScalars h) (hs : s.Sound) (hheap : h.Retains s.heap)
    (hrun : Expression.evaluateRoots host roots s = .ok outcomes s') :
    s.Conveys s' (outcomes.map (·.cell) : List Cell) := by
  induction roots generalizing s outcomes with
  | nil =>
    cases hrun
    exact .of_brings (.refl hs)
  | cons root rest ih =>
    simp only [Expression.evaluateRoots, StoreM.bind_eq_ok] at hrun
    obtain ⟨⟨signal, cell⟩, s₁, hroot, hrun⟩ := hrun
    have hfirst := (conveyed_evaluate (hroots root List.mem_cons_self) hs hheap hroot).conveys
    split at hrun
    · cases hrun
      exact hfirst
    · simp only [StoreM.bind_eq_ok] at hrun
      obtain ⟨outcomes', s₂, hrest, hdone⟩ := hrun
      cases hdone
      have hrest := ih (fun n hn => hroots n (List.mem_cons_of_mem _ hn)) hfirst.sound
        (hheap.trans hfirst.1) hrest
      have hboth := hfirst.trans hrest
      rwa [add_comm, Multiset.singleton_add] at hboth

end Operands

end Store

end TupleLang
