import TupleLang.Expr
import TupleLang.Proofs.Conditionals

/-!
# Parts of an evaluation

To evaluate a node is to evaluate nodes within it: operands one after the other, or a condition and
the branch that it chooses. Each is a *task* of its own, a node with a depth and with the store that
has been left so far. `Task.Enters` says which tasks a task enters by itself, `Task.Visits` which it
comes to in the end, and `Expression.Visits` which tasks evaluating the statements of an expression
comes to.

A conditional is *decided* if its condition reads after the branch as it did before
(`Task.Decided`). Then its value is that of the branch.
-/

namespace TupleLang

/-- A branch that is chosen is one of the branches. -/
theorem Node.mem_of_chosen? {t branch : Node} {e : Option Node} {truth : Bool}
    (h : chosen? t e truth = some branch) : branch ∈ t :: e.toList := by
  cases truth with
  | true =>
    cases h
    exact List.mem_cons_self
  | false =>
    obtain rfl : e = some branch := h
    exact List.mem_cons_of_mem _ (Option.mem_toList.mpr rfl)

/-- Every operator of the tree satisfies `P`, together with its operands. -/
inductive Node.Each (P : Binding → List Node → Prop) : Node → Prop
  | value {cell : Cell} {label : Option String} : Each P (.value cell label)
  | apply {b : Binding} {children : List Node} : P b children → (∀ n ∈ children, Each P n) →
      Each P (.apply b children)

/-- A node to be evaluated at a depth, in a store. -/
structure Task where
  node : Node
  depth : Nat
  store : Store

namespace Task

/-- What the task comes to. -/
abbrev run (host : Host) (t : Task) : EStateM.Result Error Store (Signal × Cell) :=
  t.node.evaluate host t.depth t.store

/-- The task is a conditional. Its condition ends normally in the cell `x`, which reads `truth`, and
the last task is that of the branch which is chosen. -/
inductive Takes (host : Host) : Task → (x : Cell) → (truth : Bool) → Task → Prop
  | intro {b : Binding} {c t branch : Node} {e : Option Node} {d : Nat} {s s₁ : Store} {x : Cell}
      {truth : Bool} : b.op.isConditional = true → s.settings.allows d = true →
      c.evaluate host (d + 1) s = .ok (.normal, x) s₁ → x.read s₁.heap .bool = .ok truth →
      Node.chosen? t e truth = some branch →
      Takes host ⟨.conditional b c t e, d, s⟩ x truth ⟨branch, d + 1, s₁.atBranch truth⟩

/-- The first task evaluates the node of the second: an operand, after those in front of it have
ended normally, or a condition, or a branch that was chosen. -/
inductive Enters (host : Host) : Task → Task → Prop
  | operand {b : Binding} {front rest : List Node} {child : Node} {cells : List Cell} {d : Nat}
      {s s₁ : Store} : b.op.isConditional = false → s.settings.allows d = true →
      Node.evaluateAll host front (d + 1) s = .ok (.ready cells) s₁ →
      Enters host ⟨.apply b (front ++ child :: rest), d, s⟩ ⟨child, d + 1, s₁⟩
  | condition {b : Binding} {c : Node} {branches : List Node} {d : Nat} {s : Store} :
      b.op.isConditional = true → s.settings.allows d = true →
      Enters host ⟨.apply b (c :: branches), d, s⟩ ⟨c, d + 1, s⟩
  | branch {t u : Task} {x : Cell} {truth : Bool} : Takes host t x truth u → Enters host t u

/-- The node of a task that is entered is an operand. -/
theorem Enters.exists_mem {host : Host} {t u : Task} (h : Enters host t u) :
    ∃ b children, t.node = .apply b children ∧ u.node ∈ children := by
  cases h with
  | operand => exact ⟨_, _, rfl, by simp⟩
  | condition => exact ⟨_, _, rfl, List.mem_cons_self⟩
  | branch htakes =>
    cases htakes with | intro _ _ _ _ hchosen =>
    exact ⟨_, _, rfl, List.mem_cons_of_mem _ (Node.mem_of_chosen? hchosen)⟩

/-- A task enters tasks on smaller nodes. -/
theorem Enters.sizeOf_lt {host : Host} {t u : Task} (h : Enters host t u) :
    sizeOf u.node < sizeOf t.node := by
  obtain ⟨b, children, hnode, hmem⟩ := h.exists_mem
  have hlt := List.sizeOf_lt_of_mem hmem
  rw [hnode, Node.apply.sizeOf_spec]
  omega

/-- The first task comes to the second. -/
abbrev Visits (host : Host) : Task → Task → Prop := Relation.ReflTransGen (Enters host)

variable {P : Binding → List Node → Prop}

/-- What holds of every operator of a task's node holds of those of the tasks it enters. -/
theorem Enters.each {host : Host} {t u : Task} (h : Enters host t u) (ht : t.node.Each P) :
    u.node.Each P := by
  obtain ⟨b, children, hnode, hmem⟩ := h.exists_mem
  rw [hnode] at ht
  cases ht with | apply _ hchildren =>
  exact hchildren _ hmem

/-- What is true of all operators of a tree is true of all that its evaluation comes to. -/
theorem Visits.each {host : Host} {t u : Task} (h : Visits host t u) (ht : t.node.Each P) :
    u.node.Each P := by
  induction h with
  | refl => exact ht
  | tail _ henters ih => exact henters.each ih

/-- If the task is a conditional and its branch ends normally, the condition reads as before. -/
def Decided (host : Host) (t : Task) : Prop :=
  ∀ x truth u, Takes host t x truth u → ∀ y s, u.run host = .ok (.normal, y) s →
    x.read s.heap .bool = .ok truth

end Task

/-- Evaluating the expression comes to the task: statements have ended without leaving the
expression, and the next one comes to it. -/
def Expression.Visits (host : Host) (e : Expression) (s : Store) (t : Task) : Prop :=
  ∃ front root rest outcomes s₁, e.roots = front ++ root :: rest ∧
    evaluateRoots host front s = .ok outcomes s₁ ∧ (∀ o ∈ outcomes, o.signal ≠ .returns) ∧
    Task.Visits host ⟨root, 1, s₁⟩ t

/-- A task that is visited leads to the tasks it visits itself. -/
theorem Expression.Visits.trans {host : Host} {e : Expression} {s : Store} {t u : Task}
    (h : e.Visits host s t) (hvisits : Task.Visits host t u) : e.Visits host s u := by
  obtain ⟨front, root, rest, outcomes, s₁, hsplit, hfront, hon, hroot⟩ := h
  exact ⟨front, root, rest, outcomes, s₁, hsplit, hfront, hon,
    Relation.ReflTransGen.trans hroot hvisits⟩

/-- What holds of every operator of the roots holds in every task that is visited. -/
theorem Expression.Visits.each {host : Host} {e : Expression} {s : Store} {t : Task}
    {P : Binding → List Node → Prop} (h : e.Visits host s t) (he : ∀ n ∈ e.roots, n.Each P) :
    t.node.Each P := by
  obtain ⟨front, root, rest, outcomes, s₁, hsplit, -, -, hvisits⟩ := h
  exact hvisits.each (he root (by simp [hsplit]))

/-- If evaluating statements fails, one of them has failed, and none before it has left the
expression. -/
theorem Expression.exists_of_error {host : Host} {roots : List Node} {s s' : Store} {error : Error}
    (h : evaluateRoots host roots s = .error error s') :
    ∃ front root rest outcomes s₁, roots = front ++ root :: rest ∧
      evaluateRoots host front s = .ok outcomes s₁ ∧ (∀ o ∈ outcomes, o.signal ≠ .returns) ∧
      root.evaluate host 1 s₁ = .error error s' := by
  induction roots generalizing s with
  | nil => cases h
  | cons root rest ih =>
    cases hrun : root.evaluate host 1 s with
    | error e s₁ =>
      simp only [evaluateRoots, bind, EStateM.bind, hrun] at h
      cases h
      -- the first statement fails, and there is nothing in front of it
      exact ⟨[], root, rest, [], s, rfl, rfl, by simp, hrun⟩
    | ok r s₁ =>
      obtain ⟨signal, cell⟩ := r
      by_cases hreturns : signal = .returns
      · simp only [evaluateRoots, bind, EStateM.bind, hrun, if_pos hreturns] at h
        cases h
      · simp only [evaluateRoots, bind, EStateM.bind, hrun, if_neg hreturns] at h
        cases hrest : evaluateRoots host rest s₁ with
        | ok outcomes s₂ =>
          rw [hrest] at h
          cases h
        | error e s₂ =>
          rw [hrest] at h
          cases h
          -- the first statement is good, so the failure is further on
          obtain ⟨front, next, rest, outcomes, s₃, rfl, hfront, hon, hnext⟩ := ih hrest
          refine ⟨root :: front, next, rest, ⟨signal, cell⟩ :: outcomes, s₃, rfl, ?_,
            List.forall_mem_cons.mpr ⟨hreturns, hon⟩, hnext⟩
          simp only [evaluateRoots, bind, EStateM.bind, hrun, if_neg hreturns, hfront]
          rfl

namespace Node

variable {host : Host} {nodes : List Node} {d : Nat} {s s' : Store} {cells : List Cell}

/-- The operands are ready, or one behind others that are ready has not ended normally. -/
theorem evaluateAll_cases (host : Host) (nodes : List Node) (d : Nat) (s : Store) :
    (∃ cells s', evaluateAll host nodes d s = .ok (.ready cells) s') ∨
      ∃ front child rest cells s₁, nodes = front ++ child :: rest ∧
        evaluateAll host front d s = .ok (.ready cells) s₁ ∧
        Interrupts (child.evaluate host d s₁) := by
  induction nodes generalizing s with
  | nil => exact .inl ⟨[], s, evaluateAll_nil⟩
  | cons node nodes ih =>
    by_cases hnode : Interrupts (node.evaluate host d s)
    · -- the first node is the one that interrupts
      exact .inr ⟨[], node, nodes, [], s, rfl, evaluateAll_nil, hnode⟩
    · obtain ⟨c, s₁, hrun⟩ : ∃ c s₁, node.evaluate host d s = .ok (.normal, c) s₁ := by
        simpa [Interrupts] using hnode
      rcases ih s₁ with ⟨cells, s', hready⟩ | ⟨front, child, rest, cells, s₂, rfl, hready, hchild⟩
      · exact .inl ⟨c :: cells, s', evaluateAll_cons_eq_ready.mpr ⟨c, s₁, cells, hrun, hready, rfl⟩⟩
      · exact .inr ⟨node :: front, child, rest, c :: cells, s₂, rfl,
          evaluateAll_cons_eq_ready.mpr ⟨c, s₁, cells, hrun, hready, rfl⟩, hchild⟩

/-- The values of operands that are ready have the types of the operands, if each operand that ends
normally comes to a value of its type. -/
theorem types_of_ready (h : evaluateAll host nodes d s = .ok (.ready cells) s')
    (hnodes : ∀ front child rest cells₁ s₁, nodes = front ++ child :: rest →
      evaluateAll host front d s = .ok (.ready cells₁) s₁ →
      ∀ c s₂, child.evaluate host d s₁ = .ok (.normal, c) s₂ → c.type = child.type) :
    cells.map Cell.type = nodes.map Node.type := by
  induction nodes generalizing s cells with
  | nil =>
    rw [evaluateAll_nil] at h
    cases h
    rfl
  | cons node nodes ih =>
    obtain ⟨c, s₁, cells', hrun, hready, rfl⟩ := evaluateAll_cons_eq_ready.mp h
    rw [List.map_cons, List.map_cons, hnodes [] node nodes [] s rfl evaluateAll_nil c s₁ hrun]
    -- what comes in front of a later node now includes the first one
    refine congrArg _ (ih hready fun front child rest cells₁ s₂ hsplit hfront => ?_)
    exact hnodes (node :: front) child rest (c :: cells₁) s₂ (by rw [hsplit]; rfl)
      (evaluateAll_cons_eq_ready.mpr ⟨c, s₁, cells₁, hrun, hfront, rfl⟩)

end Node

end TupleLang
