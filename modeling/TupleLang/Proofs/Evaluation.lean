import TupleLang.Expr
import TupleLang.Proofs.Regime
import TupleLang.Proofs.Trees

/-!
# What evaluation keeps

Evaluation hands cells from the leaves of a tree through the actions of its operators. `Evaluating R
host` says what the single steps keep, in the words of a regime: which cells may be leaves, which
may be on the way, and that applying an action to the latter gives one of the latter. Then
evaluating a tree keeps the regime (`Evaluating.evaluate`).
-/

namespace TupleLang

/-- What a regime has to offer for evaluation to keep it. -/
structure Evaluating (R : Regime Store) (host : Host) where
  /-- The cells at the leaves of trees. -/
  LeafOk : R.World → Cell → Prop
  /-- The cells that are on the way. -/
  ValueOk : R.World → Cell → Prop
  /-- The bindings of operators. -/
  Bound : Binding → Prop
  leaf_lasts : ∀ {v w c}, R.Later v w → LeafOk v c → LeafOk w c
  value_lasts : ∀ {v w c}, R.Later v w → ValueOk v c → ValueOk w c
  yield : ∀ {w c}, LeafOk w c → R.Keeps w (Node.yieldCell c) ValueOk fun _ => True
  void : ∀ w, R.Keeps w StoreM.newVoid ValueOk fun _ => True
  apply : ∀ {w binding cells}, Bound binding → (∀ c ∈ cells, ValueOk w c) →
    R.Keeps w (binding.action.apply host binding.name cells) (fun v r => ValueOk v r.2)
      fun _ => True

section Parts

variable {R : Regime Store} {w : R.World}

/-- Reading changes nothing. -/
theorem Regime.Keeps.read (c : Cell) (n : Native) :
    R.Keeps w (StoreM.read c n) (fun _ _ => True) fun _ => True :=
  .get_bind fun _ _ _ _ => .ofExcept (fun _ _ _ _ => trivial) fun _ _ => trivial

/-- Checking the depth changes nothing. -/
theorem Regime.Keeps.checkDepth (depth : Nat) :
    R.Keeps w (Node.checkDepth depth) (fun _ _ => True) fun _ => True :=
  .get_bind fun _ _ _ _ => .ite (fun _ => .pure fun _ _ => trivial) fun _ => .throw trivial

/-- A leaf yields a handle that owns nothing, or a copy of a scalar of its own. -/
theorem Regime.Keeps.yieldCell {c : Cell} {Q : R.World → Cell → Prop} {E : Error → Prop}
    (hborrow : ∀ v, R.Later w v → Q v c.borrow)
    (hcopy : c.owned = true → ∀ v, R.Later w v → ∀ s, R.Holds v s → c.tupleId? s.heap = none →
      R.Leads v s (StoreM.newCell c.type (c.value s.heap)) Q E) :
    R.Keeps w (Node.yieldCell c) Q E := by
  intro v hv s hs
  change R.Leads v s (if (c.tupleId? s.heap).isSome then pure c.borrow
    else StoreM.onHeap (Cell.reborrow · c)) Q E
  split
  · exact ⟨v, R.refl v, hs, hborrow v hv⟩
  · rename_i hnone
    refine .onHeap ?_
    by_cases howned : c.owned = true
    · have hmade := hcopy howned v hv s hs (by simpa using hnone)
      rw [Cell.reborrow, if_pos howned]
      exact hmade
    · rw [Cell.reborrow, if_neg howned]
      exact ⟨v, R.refl v, hs, hborrow v hv⟩

end Parts

namespace Evaluating

variable {R : Regime Store} {host : Host} (X : Evaluating R host) {w : R.World}

/-- The operands that are ready are on the way, and so is the value that ended their evaluation. -/
def OperandsOk (w : R.World) : Operands → Prop
  | .interrupted _ cell => X.ValueOk w cell
  | .ready cells => ∀ c ∈ cells, X.ValueOk w c

variable {X}

/-- One more value in front of the operands. -/
theorem OperandsOk.cons {operands : Operands} {c : Cell} (hc : X.ValueOk w c)
    (h : X.OperandsOk w operands) : X.OperandsOk w (operands.cons c) := by
  cases operands with
  | interrupted signal cell => exact h
  | ready cells => exact List.forall_mem_cons.mpr ⟨hc, h⟩

/-- Operands stay good. -/
theorem OperandsOk.lasts {operands : Operands} {v : R.World} (h : X.OperandsOk w operands)
    (hlater : R.Later w v) : X.OperandsOk v operands := by
  cases operands with
  | interrupted signal cell => exact X.value_lasts hlater h
  | ready cells => exact fun c hc => X.value_lasts hlater (h c hc)

variable (X)

/-- A cell in front of the operands that a program gives. -/
theorem cons {m : StoreM Operands} {c : Cell} (hc : X.ValueOk w c)
    (hm : R.Keeps w m X.OperandsOk fun _ => True) :
    R.Keeps w (do return (← m).cons c) X.OperandsOk fun _ => True :=
  .bind hm fun _ _ hv hops => .pure fun _ hu =>
    .cons (X.value_lasts (R.trans hv hu) hc) (hops.lasts hu)

/-- Evaluating an operand and going on with those behind it. -/
theorem operand {m : StoreM (Signal × Cell)} (rest : Cell → StoreM Operands)
    (hm : R.Keeps w m (fun v r => X.ValueOk v r.2) fun _ => True)
    (hrest : ∀ c v, R.Later w v → X.ValueOk v c →
      R.Keeps v (rest c) X.OperandsOk fun _ => True) :
    R.Keeps w (do
      let (signal, cell) ← m
      if signal.isNormal then rest cell else return .interrupted signal cell)
      X.OperandsOk fun _ => True := by
  refine .bind hm fun r v hv hr => .ite (fun _ => hrest r.2 v hv hr) fun _ => ?_
  exact .pure fun u hu => X.value_lasts hu hr

/-- Branches that are not evaluated are void. -/
theorem skipBranches (branches : List Node) (w : R.World) :
    R.Keeps w (Node.skipBranches branches) X.OperandsOk fun _ => True := by
  induction branches generalizing w with
  | nil => exact .pure fun _ _ c hc => by simp at hc
  | cons branch rest ih => exact .bind (X.void w) fun _ v _ hc => X.cons hc (ih v)

/-- Evaluating nodes from left to right keeps what holds if each of them does. -/
theorem evaluateAll {nodes : List Node} {w : R.World}
    (hnodes : ∀ n ∈ nodes, ∀ depth, R.Keeps w (n.evaluate host depth)
      (fun v r => X.ValueOk v r.2) fun _ => True) (depth : Nat) :
    R.Keeps w (Node.evaluateAll host nodes depth) X.OperandsOk fun _ => True := by
  induction nodes generalizing w with
  | nil =>
    rw [Node.evaluateAll]
    exact .pure fun _ _ c hc => by simp at hc
  | cons node rest ih =>
    rw [Node.evaluateAll]
    refine X.operand _ (hnodes node List.mem_cons_self depth) fun c v hv hc => X.cons hc ?_
    exact ih fun n hn depth => (hnodes n (List.mem_cons_of_mem _ hn) depth).of_later hv

/-- Evaluating the chosen branch keeps what holds if each branch does. -/
theorem evaluateBranches (truth : Bool) {branches : List Node}
    (hbranches : ∀ n ∈ branches, ∀ depth, R.Keeps w (n.evaluate host depth)
      (fun v r => X.ValueOk v r.2) fun _ => True) (depth : Nat) :
    R.Keeps w (Node.evaluateBranches host truth branches depth) X.OperandsOk fun _ => True := by
  cases branches with
  | nil =>
    rw [Node.evaluateBranches]
    exact .pure fun _ _ c hc => by simp at hc
  | cons branch rest =>
    rw [Node.evaluateBranches]
    refine .ite (fun _ => ?_) fun _ => ?_
    · exact X.operand _ (hbranches branch List.mem_cons_self depth) fun c v _ hc =>
        X.cons hc (X.skipBranches rest v)
    · refine .bind (X.void w) fun c v hv hc => X.cons hc (X.evaluateAll ?_ depth)
      exact fun n hn depth => (hbranches n (List.mem_cons_of_mem _ hn) depth).of_later hv

/-- Evaluating a good tree keeps the regime. -/
theorem evaluate {node : Node} (h : node.Forms (X.LeafOk w) X.Bound) (depth : Nat) :
    R.Keeps w (node.evaluate host depth) (fun v r => X.ValueOk v r.2) fun _ => True := by
  induction h generalizing depth with
  | value hcell =>
    rw [Node.evaluate]
    refine .andThen (.checkDepth depth) fun _ v hv => ?_
    exact .bind (X.yield (X.leaf_lasts hv hcell)) fun c u _ hc => .pure fun _ hx =>
      X.value_lasts hx hc
  | @apply binding children hbound _ ih =>
    rw [Node.evaluate]
    refine .andThen (.checkDepth depth) fun _ v hv => ?_
    replace ih : ∀ n ∈ children, ∀ depth, R.Keeps v (n.evaluate host depth)
        (fun v r => X.ValueOk v r.2) fun _ => True := fun n hn d => (ih n hn d).of_later hv
    -- however the operands were evaluated, the action is applied to them in the same way
    have happly : ∀ (operands : Operands) u, R.Later v u → X.OperandsOk u operands →
        R.Keeps u (match operands with
          | .interrupted signal cell => return (signal, cell)
          | .ready cells => binding.action.apply host binding.name cells)
          (fun v r => X.ValueOk v r.2) fun _ => True := by
      intro operands u _ hops
      cases operands with
      | interrupted signal cell => exact .pure fun x hx => X.value_lasts hx hops
      | ready cells => exact X.apply hbound hops
    refine .ite (fun _ => .bind ?_ happly) fun _ => .bind (X.evaluateAll ih _) happly
    cases children with
    | nil =>
      rw [Node.evaluateChoice]
      exact .throw trivial
    | cons condition branches =>
      rw [Node.evaluateChoice]
      refine X.operand (fun cell => do
        let truth ← StoreM.read cell .bool
        return (← Node.evaluateBranches host truth branches (depth + 1)).cons cell)
        (ih condition List.mem_cons_self _) fun c u hu hc => ?_
      refine .andThen (.read c .bool) fun truth x hx => X.cons (X.value_lasts hx hc) ?_
      exact X.evaluateBranches truth
        (fun n hn d => (ih n (List.mem_cons_of_mem _ hn) d).of_later (R.trans hu hx)) _

/-- Evaluating statements keeps what holds. -/
theorem evaluateRoots {roots : List Node} {w : R.World}
    (hroots : ∀ n ∈ roots, n.Forms (X.LeafOk w) X.Bound) :
    R.Keeps w (Expression.evaluateRoots host roots) (fun _ _ => True) fun _ => True := by
  induction roots generalizing w with
  | nil => exact .pure fun _ _ => trivial
  | cons root rest ih =>
    rw [Expression.evaluateRoots]
    refine .bind (X.evaluate (hroots root List.mem_cons_self) 1) fun r v hv _ => ?_
    refine .ite (fun _ => .pure fun _ _ => trivial) fun _ => .andThen (ih fun n hn => ?_) ?_
    · exact (hroots n (List.mem_cons_of_mem _ hn)).mono fun c hc => X.leaf_lasts hv hc
    · exact fun _ _ _ => .pure fun _ _ => trivial

end Evaluating

end TupleLang
