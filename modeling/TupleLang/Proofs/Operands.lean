import TupleLang.Proofs.Effect
import TupleLang.Proofs.Flight

/-!
# Evaluating operands

The operands of an operator are evaluated one after another, each once and one level deeper. The
first that fails, or that does not end normally, ends the operator with what it came to itself
(`Node.evaluate_of_interrupts`). When all have ended normally, the action is applied to their
values (`Node.evaluate_of_ready`).
-/

namespace TupleLang

/-- Whether an evaluation does not end normally: it fails, or raises a signal. -/
def Interrupts (result : EStateM.Result Error Store (Signal × Cell)) : Prop :=
  ∀ cell s, result ≠ .ok (.normal, cell) s

/-- What an operand that does not end normally leaves of its operator. -/
def Operands.ofInterrupted :
    EStateM.Result Error Store (Signal × Cell) → EStateM.Result Error Store Operands
  | .ok (signal, cell) s => .ok (.interrupted signal cell) s
  | .error error s => .error error s

namespace Node

variable {host : Host} {b : Binding} {node : Node} {front rest : List Node} {cells : List Cell}
  {d : Nat} {s s₁ : Store}

/-- A depth that the settings allow passes the check. -/
theorem checkDepth_of_allows (hd : s.settings.allows d = true) : checkDepth d s = .ok () s := by
  simp only [checkDepth, bind, EStateM.bind, get, getThe, MonadStateOf.get, EStateM.get, hd,
    if_true]
  rfl

/-- An operand, and what comes after it if it ends normally. -/
def operand (m : StoreM (Signal × Cell)) (next : Cell → StoreM Operands) : StoreM Operands := do
  let (signal, cell) ← m
  if signal.isNormal then next cell else return .interrupted signal cell

/-- An operand that ends normally is handed on. -/
theorem operand_of_normal {m : StoreM (Signal × Cell)} {cell : Cell}
    (h : m s = .ok (.normal, cell) s₁) (next : Cell → StoreM Operands) :
    operand m next s = next cell s₁ := by
  simp only [operand, bind, EStateM.bind, h]
  rfl

/-- An operand that does not end normally ends the list. -/
theorem operand_of_interrupts {m : StoreM (Signal × Cell)} (h : Interrupts (m s))
    (next : Cell → StoreM Operands) : operand m next s = Operands.ofInterrupted (m s) := by
  cases hm : m s with
  | error error s₁ => simp only [operand, bind, EStateM.bind, hm, Operands.ofInterrupted]
  | ok outcome s₁ =>
    obtain ⟨signal, cell⟩ := outcome
    cases signal with
    | normal => exact absurd hm (h cell s₁)
    | _ =>
      simp only [operand, bind, EStateM.bind, hm]
      rfl

/-- No operands are ready at once. -/
theorem evaluateAll_nil : evaluateAll host [] d s = .ok (.ready []) s := by rw [evaluateAll]; rfl

/-- Operands are evaluated from the first one on. -/
theorem evaluateAll_cons : evaluateAll host (node :: rest) d =
    operand (node.evaluate host d) fun cell => do
      return (← evaluateAll host rest d).cons cell := by
  rw [evaluateAll]
  rfl

/-- The branches of a condition that is true: the first one, and a void cell for each other one. -/
theorem evaluateBranches_true : evaluateBranches host true (node :: rest) d =
    operand (node.evaluate host d) fun cell => do return (← skipBranches rest).cons cell := by
  rw [evaluateBranches]
  rfl

/-- A condition is read before its branches are looked at. -/
theorem evaluateChoice_cons {name : String} : evaluateChoice host name (node :: rest) d =
    operand (node.evaluate host d) fun cell => do
      let truth ← StoreM.read cell .bool
      return (← evaluateBranches host truth rest d).cons cell := by
  rw [evaluateChoice]
  rfl

/-- Operands are ready when the first has ended normally and what comes next is ready. -/
theorem operand_eq_ready {m : StoreM (Signal × Cell)} {next : Cell → StoreM Operands} :
    operand m next s = .ok (.ready cells) s₁ ↔
      ∃ c s', m s = .ok (.normal, c) s' ∧ next c s' = .ok (.ready cells) s₁ := by
  constructor
  · intro h
    by_cases hm : Interrupts (m s)
    · rw [operand_of_interrupts hm] at h
      cases hrun : m s <;> simp [hrun, Operands.ofInterrupted] at h
    · obtain ⟨c, s', hrun⟩ : ∃ c s', m s = .ok (.normal, c) s' := by simpa [Interrupts] using hm
      rw [operand_of_normal hrun] at h
      exact ⟨c, s', hrun, h⟩
  · rintro ⟨c, s', hrun, h⟩
    rw [operand_of_normal hrun, h]

/-- A value in front of operands that are ready. -/
theorem cons_eq_ready {c : Cell} {others : StoreM Operands} :
    (do return (← others).cons c : StoreM Operands) s = .ok (.ready cells) s₁ ↔
      ∃ cells', others s = .ok (.ready cells') s₁ ∧ cells = c :: cells' := by
  constructor
  · intro h
    obtain ⟨operands, s', hrun, h⟩ := StoreM.bind_eq_ok.mp h
    cases operands <;> cases h
    exact ⟨_, hrun, rfl⟩
  · rintro ⟨cells', hrun, rfl⟩
    exact StoreM.bind_eq_ok.mpr ⟨_, s₁, hrun, rfl⟩

/-- Nodes are all evaluated normally when the first is, and then the rest. -/
theorem evaluateAll_cons_eq_ready : evaluateAll host (node :: rest) d s = .ok (.ready cells) s₁ ↔
    ∃ c s' cells', node.evaluate host d s = .ok (.normal, c) s' ∧
      evaluateAll host rest d s' = .ok (.ready cells') s₁ ∧ cells = c :: cells' := by
  rw [evaluateAll_cons, operand_eq_ready]
  simp only [cons_eq_ready, exists_and_left]

/-- The first node that does not end normally ends the evaluation. -/
theorem evaluateAll_of_interrupts (hfront : evaluateAll host front d s = .ok (.ready cells) s₁)
    (h : Interrupts (node.evaluate host d s₁)) :
    evaluateAll host (front ++ node :: rest) d s =
      Operands.ofInterrupted (node.evaluate host d s₁) := by
  induction front generalizing s cells with
  | nil =>
    rw [evaluateAll_nil] at hfront
    cases hfront
    rw [List.nil_append, evaluateAll_cons, operand_of_interrupts h]
  | cons first front ih =>
    obtain ⟨c, s', cells', hrun, hrest, -⟩ := evaluateAll_cons_eq_ready.mp hfront
    rw [List.cons_append, evaluateAll_cons, operand_of_normal hrun]
    simp only [bind, EStateM.bind, ih hrest]
    rcases node.evaluate host d s₁ with ⟨_, _⟩ | _ <;> rfl

section Apply

variable (hop : b.op.isConditional = false) (hd : s.settings.allows d = true)

include hop hd

/-- The action is applied to the values of the operands. -/
theorem evaluate_of_ready {children : List Node}
    (h : evaluateAll host children (d + 1) s = .ok (.ready cells) s₁) :
    (apply b children).evaluate host d s = b.action.apply host b.name cells s₁ := by
  rw [evaluate, hop]
  simp only [bind, EStateM.bind, checkDepth_of_allows hd, Bool.false_eq_true, if_false, h]

/-- An operator comes to what its first operand comes to that does not end normally. -/
theorem evaluate_of_interrupts (front : List Node)
    (hfront : evaluateAll host front (d + 1) s = .ok (.ready cells) s₁)
    (h : Interrupts (node.evaluate host (d + 1) s₁)) :
    (apply b (front ++ node :: rest)).evaluate host d s = node.evaluate host (d + 1) s₁ := by
  rw [evaluate, hop]
  simp only [bind, EStateM.bind, checkDepth_of_allows hd, Bool.false_eq_true, if_false,
    evaluateAll_of_interrupts hfront h]
  rcases node.evaluate host (d + 1) s₁ with ⟨_, _⟩ | _ <;> rfl

end Apply

end Node

end TupleLang
