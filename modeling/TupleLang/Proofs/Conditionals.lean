import TupleLang.Builtin.Catalogue
import TupleLang.Proofs.Operands

/-!
# Conditionals

A conditional evaluates its condition and the branch that the condition chooses, and comes to what
the branch comes to: the same signal, cell and store, or the same error. The other branch is not
looked at (`conditional_is_its_branch`).

The action of the conditional reads the condition once more, when the branch has been evaluated. A
condition that is a variable is a handle, and the branch may have assigned to the variable. Then the
action picks what stands for the branch that was left out, and the value is lost
(`branch_that_changes_its_condition_is_lost`).

A branch that is left out is handed to the action as a void cell, for which a place is taken
(`Store.reserve`). Nothing refers to this place afterwards.
-/

namespace TupleLang

/-- The store with one more place in its heap, which holds nothing. -/
def Store.reserve (s : Store) : Store := { s with heap := (s.heap.alloc .void).2 }

/-- The void cell that is made next. -/
def Store.nextVoid (s : Store) : Cell := { type := .void, loc := s.heap.values.size }

namespace Store

/-- Taking a place changes no value. -/
theorem get_reserve (s : Store) (loc : Nat) : s.reserve.heap.get loc = s.heap.get loc := by
  unfold reserve Heap.get Heap.alloc
  rw [Array.getElem?_push]
  split
  · rename_i hloc
    rw [hloc, Array.getElem?_eq_none (Nat.le_refl _)]
    rfl
  · rfl

/-- Taking a place changes nothing that is read. -/
@[simp] theorem read_reserve (s : Store) (c : Cell) (n : Native) :
    c.read s.reserve.heap n = c.read s.heap n := by
  unfold Cell.read Cell.value
  rw [get_reserve]

end Store

/-! ## The action -/

/-- Whether the body picks a branch. -/
def Body.isChoose : Body → Bool
  | .choose => true
  | _ => false

/-- The language's own actions called `if` pick a branch. -/
theorem body_of_if {action : Action} (h : action ∈ Builtin.catalogue) (hname : action.name = "if") :
    action.body = .choose := by
  have hall : (Builtin.catalogue.all fun a => a.name != "if" || a.body.isChoose) = true := by
    decide +kernel
  have hif := List.all_eq_true.mp hall action h
  rw [hname] at hif
  cases hbody : action.body <;> simp_all [Body.isChoose]

namespace Action

variable {host : Host} {action : Action} {name : String} {x : Cell} {branches : List Cell}
  {s : Store}

/-- The condition is read, and picks one of the branches. -/
theorem apply_choose (h : action.body = .choose) {truth : Bool}
    (hread : x.read s.heap .bool = .ok truth) :
    action.apply host name (x :: branches) s =
      (do return (.normal, ← Body.pick truth branches) : StoreM (Signal × Cell)) s := by
  rw [apply_eq (fun label => by rw [h]; exact nofun), h]
  simp only [Body.effect, List.reverse_reverse, StoreM.read, bind, EStateM.bind, get, getThe,
    MonadStateOf.get, EStateM.get, hread, StoreM.ofExcept, pure, EStateM.pure]

end Action

/-! ## Evaluation -/

/-- The store in which a chosen branch is evaluated. A place is taken for one left out before it. -/
def Store.atBranch (s : Store) (truth : Bool) : Store := if truth then s else s.reserve

@[simp] theorem Store.atBranch_true (s : Store) : s.atBranch true = s := rfl

@[simp] theorem Store.atBranch_false (s : Store) : s.atBranch false = s.reserve := rfl

/-- The store after a chosen branch. A place is taken for one left out after it. -/
def Store.pastBranch (s : Store) (truth : Bool) (e : Option Node) : Store :=
  if truth && e.isSome then s.reserve else s

/-- The place that is taken for the second branch changes nothing that is read. -/
theorem Store.read_pastBranch (s : Store) (truth : Bool) (e : Option Node) (c : Cell) (n : Native) :
    c.read (s.pastBranch truth e).heap n = c.read s.heap n := by
  unfold Store.pastBranch
  split
  · exact s.read_reserve c n
  · rfl

namespace Node

variable {host : Host} {b : Binding} {c t branch : Node} {e : Option Node} {d : Nat}
  {s s₁ s₂ : Store} {x y : Cell} {truth : Bool} {error : Error}

/-- The branch that a condition chooses, if there is one. -/
def chosen? (t : Node) (e : Option Node) (truth : Bool) : Option Node := if truth then some t else e

/-- A conditional on `c`, with a first branch `t` and perhaps a second one. -/
def conditional (b : Binding) (c t : Node) (e : Option Node) : Node := .apply b (c :: t :: e.toList)

/-- The operator is a conditional with one branch, or with a second one `e`, and is bound to one of
the language's own actions called `if`. -/
structure Chooses (b : Binding) (e : Option Node) : Prop where
  op : b.op = .ifThen ∧ e = none ∨ (b.op = .ifThenElse ∨ b.op = .select) ∧ e.isSome = true
  action : b.action ∈ Builtin.catalogue
  name : b.action.name = "if"

/-- What chooses between branches is a conditional. -/
theorem Chooses.isConditional (h : Chooses b e) : b.op.isConditional = true := by
  rcases h.op with ⟨hop, -⟩ | ⟨hop | hop, -⟩ <;> rw [hop] <;> rfl

/-- A conditional evaluates its condition, and then its branches if the condition can be read. -/
theorem evaluate_conditional (h : Chooses b e) (hd : s.settings.allows d = true) :
    (conditional b c t e).evaluate host d s = (do
      let operands ← operand (c.evaluate host (d + 1)) fun x => do
        let truth ← StoreM.read x .bool
        return (← evaluateBranches host truth (t :: e.toList) (d + 1)).cons x
      match operands with
      | .interrupted signal cell => return (signal, cell)
      | .ready cells => b.action.apply host b.name cells : StoreM (Signal × Cell)) s := by
  rw [conditional, evaluate, h.isConditional, if_pos rfl]
  simp only [bind, EStateM.bind, checkDepth_of_allows hd]
  rw [evaluateChoice_cons]
  rfl

/-- Where the condition is false the first branch counts as void. -/
theorem evaluateBranches_false {rest : List Node} : evaluateBranches host false (t :: rest) d s =
    (do return (← evaluateAll host rest d).cons s.nextVoid : StoreM Operands) s.reserve := by
  rw [evaluateBranches]
  rfl

/-- A skipped second branch leaves a void cell. -/
theorem skipBranches_toList : skipBranches e.toList s =
    .ok (.ready (e.toList.map fun _ => s.nextVoid)) (s.pastBranch true e) := by
  cases e <;> rfl

section Branch

variable (h : Chooses b e) (hd : s.settings.allows d = true)

include h hd

/-- A condition that does not end normally ends the conditional. -/
theorem evaluate_of_condition_interrupts (hc : Interrupts (c.evaluate host (d + 1) s)) :
    (conditional b c t e).evaluate host d s = c.evaluate host (d + 1) s := by
  rw [evaluate_conditional h hd]
  simp only [bind, EStateM.bind, operand_of_interrupts hc]
  rcases c.evaluate host (d + 1) s with ⟨_, _⟩ | _ <;> rfl

/-- A condition that cannot be read fails the conditional. -/
theorem evaluate_of_condition_unreadable (hc : c.evaluate host (d + 1) s = .ok (.normal, x) s₁)
    (hread : x.read s₁.heap .bool = .error error) :
    (conditional b c t e).evaluate host d s = .error error s₁ := by
  rw [evaluate_conditional h hd]
  simp only [bind, EStateM.bind, operand_of_normal hc, StoreM.read, get, getThe, MonadStateOf.get,
    EStateM.get, hread, StoreM.ofExcept]
  rfl

/-- The branches are evaluated in the store that the condition leaves. -/
theorem evaluate_of_truth (hc : c.evaluate host (d + 1) s = .ok (.normal, x) s₁)
    (hread : x.read s₁.heap .bool = .ok truth) :
    (conditional b c t e).evaluate host d s = (do
      match ← evaluateBranches host truth (t :: e.toList) (d + 1) with
      | .interrupted signal cell => return (signal, cell)
      | .ready cells => b.action.apply host b.name (x :: cells) : StoreM (Signal × Cell)) s₁ := by
  rw [evaluate_conditional h hd]
  simp only [bind, EStateM.bind, operand_of_normal hc, StoreM.read, get, getThe, MonadStateOf.get,
    EStateM.get, hread, StoreM.ofExcept, pure, EStateM.pure]
  rcases evaluateBranches host truth (t :: e.toList) (d + 1) s₁ with ⟨⟨_, _⟩ | _, _⟩ | _ <;> rfl

/-- A branch that does not end normally ends the conditional. -/
theorem evaluate_of_branch_interrupts (hc : c.evaluate host (d + 1) s = .ok (.normal, x) s₁)
    (hread : x.read s₁.heap .bool = .ok truth) (hbranch : chosen? t e truth = some branch)
    (hrun : Interrupts (branch.evaluate host (d + 1) (s₁.atBranch truth))) :
    (conditional b c t e).evaluate host d s =
      branch.evaluate host (d + 1) (s₁.atBranch truth) := by
  rw [evaluate_of_truth h hd hc hread]
  cases truth with
  | true =>
    cases hbranch
    simp only [bind, EStateM.bind, evaluateBranches_true]
    rw [Store.atBranch_true] at hrun ⊢
    rw [operand_of_interrupts hrun]
    rcases t.evaluate host (d + 1) s₁ with ⟨_, _⟩ | _ <;> rfl
  | false =>
    cases (show e = some branch from hbranch)
    simp only [bind, EStateM.bind, evaluateBranches_false, Option.toList]
    rw [Store.atBranch_false] at hrun ⊢
    rw [evaluateAll_cons, operand_of_interrupts hrun]
    rcases branch.evaluate host (d + 1) s₁.reserve with ⟨_, _⟩ | _ <;> rfl

/-- The cells among which the action picks, the chosen branch having come to `y`. -/
theorem evaluate_of_branch_normal (hc : c.evaluate host (d + 1) s = .ok (.normal, x) s₁)
    (hread : x.read s₁.heap .bool = .ok truth) (hbranch : chosen? t e truth = some branch)
    (hrun : branch.evaluate host (d + 1) (s₁.atBranch truth) = .ok (.normal, y) s₂) :
    (conditional b c t e).evaluate host d s =
      b.action.apply host b.name
        (x :: if truth then y :: e.toList.map fun _ => s₂.nextVoid else [s₁.nextVoid, y])
        (s₂.pastBranch truth e) := by
  rw [evaluate_of_truth h hd hc hread]
  cases truth with
  | true =>
    -- a void cell stands for the second branch, if there is one, and is made after the first
    cases hbranch
    simp only [bind, EStateM.bind, evaluateBranches_true]
    rw [Store.atBranch_true] at hrun
    rw [operand_of_normal hrun]
    simp only [EStateM.bind, skipBranches_toList]
    rfl
  | false =>
    -- a void cell stands for the first branch, and is made before the second
    cases (show e = some branch from hbranch)
    simp only [bind, EStateM.bind, evaluateBranches_false, Option.toList]
    rw [Store.atBranch_false] at hrun
    rw [evaluateAll_cons, operand_of_normal hrun]
    simp only [EStateM.bind, bind, evaluateAll_nil]
    rfl

/-- Without a branch to choose, the conditional comes to void. -/
theorem evaluate_of_no_branch (hc : c.evaluate host (d + 1) s = .ok (.normal, x) s₁)
    (hread : x.read s₁.heap .bool = .ok truth) (hbranch : chosen? t e truth = none) :
    (conditional b c t e).evaluate host d s =
      .ok (.normal, s₁.reserve.nextVoid) s₁.reserve.reserve := by
  rw [evaluate_of_truth h hd hc hread]
  cases truth with
  | true => cases hbranch
  | false =>
    cases (show e = none from hbranch)
    simp only [bind, EStateM.bind, evaluateBranches_false, Option.toList, evaluateAll_nil]
    have hread' : x.read s₁.reserve.heap .bool = .ok false := by rw [Store.read_reserve, hread]
    exact (Action.apply_choose (body_of_if h.action h.name) hread').trans rfl

end Branch

/-- A conditional is its branch: it ends as the condition does if that does not end normally, and
else as the branch that the condition chooses, in whose place a void cell stands if there is none.
The value of the branch is lost if the condition reads otherwise afterwards. -/
theorem conditional_is_its_branch (host : Host) (c t : Node) (h : Chooses b e)
    (hd : s.settings.allows d = true) :
    (Interrupts (c.evaluate host (d + 1) s) →
      (conditional b c t e).evaluate host d s = c.evaluate host (d + 1) s) ∧
    ∀ x s₁, c.evaluate host (d + 1) s = .ok (.normal, x) s₁ →
      (∀ error, x.read s₁.heap .bool = .error error →
        (conditional b c t e).evaluate host d s = .error error s₁) ∧
      ∀ truth, x.read s₁.heap .bool = .ok truth →
        (chosen? t e truth = none → (conditional b c t e).evaluate host d s =
          .ok (.normal, s₁.reserve.nextVoid) s₁.reserve.reserve) ∧
        ∀ branch, chosen? t e truth = some branch →
          (Interrupts (branch.evaluate host (d + 1) (s₁.atBranch truth)) →
            (conditional b c t e).evaluate host d s =
              branch.evaluate host (d + 1) (s₁.atBranch truth)) ∧
          ∀ y s₂, branch.evaluate host (d + 1) (s₁.atBranch truth) = .ok (.normal, y) s₂ →
            (x.read s₂.heap .bool = .ok truth →
              (conditional b c t e).evaluate host d s =
                .ok (.normal, y) (s₂.pastBranch truth e)) ∧
            (x.read s₂.heap .bool = .ok (!truth) →
              ∃ void s₃, (conditional b c t e).evaluate host d s =
                .ok (.normal, void) s₃ ∧ void.type = .void) := by
  refine ⟨evaluate_of_condition_interrupts h hd, fun x s₁ hc => ⟨fun error hread => ?_,
    fun truth hread => ⟨fun hnone => ?_, fun branch hbranch =>
      ⟨evaluate_of_branch_interrupts h hd hc hread hbranch, fun y s₂ hrun => ?_⟩⟩⟩⟩
  · exact evaluate_of_condition_unreadable h hd hc hread
  · exact evaluate_of_no_branch h hd hc hread hnone
  · rw [evaluate_of_branch_normal h hd hc hread hbranch hrun]
    -- behind the branch the action reads the condition once more
    have hbody := body_of_if h.action h.name
    constructor
    · intro hagain
      rw [Action.apply_choose hbody ((Store.read_pastBranch ..).trans hagain)]
      -- it reads what it read: the branch stays on top
      cases truth <;> rfl
    · intro hagain
      rw [Action.apply_choose hbody ((Store.read_pastBranch ..).trans hagain)]
      -- it reads the opposite: the void of the branch not taken is picked
      cases truth with
      | true => cases e <;> exact ⟨_, _, rfl, rfl⟩
      | false => exact ⟨_, _, rfl, rfl⟩

/-! ## A condition that is assigned to -/

/-- Two truth values. -/
def flagStore : Store := { root := ⟨0, 0⟩, heap := ⟨#[.bool true, .bool false]⟩ }

/-- The variable `b`, which is true. -/
def flag : Node := .value { type := .leaf "bool", loc := 0, owned := false } (some "b")

/-- The literal `false`. -/
def falsehood : Node := .literal { type := .leaf "bool", loc := 1 }

/-- The assignment `b = false`. -/
def clearFlag : Node :=
  .apply { op := .assign, name := "=", action := Builtin.operator "=" "any" ["any"] "any" .assign
           type := .leaf "bool" } [flag, falsehood]

/-- The conditional without a second branch. -/
def ifThen : Binding where
  op := .ifThen
  name := "if"
  action := Builtin.operator "if" "bool" ["any"] "any" .choose
  type := .leaf "bool"

theorem ifThen_chooses : Chooses ifThen none :=
  ⟨.inl ⟨rfl, rfl⟩, List.mem_append_right _ (List.mem_cons_of_mem _ List.mem_cons_self), rfl⟩

/-- `if b then false` is `false`. -/
theorem conditional_is_its_branch_flag :
    Chooses ifThen none ∧ flagStore.settings.allows 1 = true ∧
      ∃ s₂, falsehood.evaluate .none 2 flagStore =
        .ok (.normal, { type := .leaf "bool", loc := 2 }) s₂ ∧
      (conditional ifThen flag falsehood none).evaluate .none 1 flagStore =
        .ok (.normal, { type := .leaf "bool", loc := 2 }) s₂ := by
  have hd : flagStore.settings.allows 1 = true := rfl
  obtain ⟨-, hnormal⟩ := conditional_is_its_branch .none flag falsehood ifThen_chooses hd
  obtain ⟨-, hbranch⟩ := hnormal _ _ rfl
  obtain ⟨-, hthen⟩ := hbranch true rfl
  obtain ⟨-, hvalue⟩ := hthen falsehood rfl
  exact ⟨ifThen_chooses, hd, _, rfl, (hvalue _ _ rfl).1 rfl⟩

/-- `if b then b = false` is void, where `b` is true and `b = false` comes to a truth value. -/
theorem branch_that_changes_its_condition_is_lost :
    Chooses ifThen none ∧ flagStore.settings.allows 1 = true ∧
      ∃ x y z s₂ s₃, flag.evaluate .none 2 flagStore = .ok (.normal, x) flagStore ∧
        x.read flagStore.heap .bool = .ok true ∧
        clearFlag.evaluate .none 2 flagStore = .ok (.normal, y) s₂ ∧ y.type = .leaf "bool" ∧
        (conditional ifThen flag clearFlag none).evaluate .none 1 flagStore = .ok (.normal, z) s₃ ∧
        z.type = .void :=
  ⟨ifThen_chooses, rfl, _, _, _, _, _, rfl, rfl, rfl, rfl, rfl, rfl⟩

end Node

end TupleLang
