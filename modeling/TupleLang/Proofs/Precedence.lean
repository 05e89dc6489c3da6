import Mathlib.Tactic.Common
import TupleLang.Operator

/-!
# Precedence of operators

What a sequence of operands and operators of one token means, apart from tokens and nodes. A tree is
*ordered* when every operator has taken the operands that its precedences give it: what stands on
its left was complete before it came, and what begins on its right binds tighter than it does.

A sequence is the in-order reading of at most one ordered tree (`OpTree.Ordered.unique`). `Shunt` is
the machine that finds it: a stack of the operators that wait for their right operand, each binary
one with its left operand. Its answer is ordered (`Shunt.ordered_of_run?`), and it finds every
ordered tree from its reading (`Shunt.run?_inorder`).
-/

namespace TupleLang

/-! ## Trees and their readings -/

/-- An expression of operands and operators in front of one or between two of them. -/
inductive OpTree (α : Type) where
  | operand (a : α)
  | unary (op : Operator) (t : OpTree α)
  | binary (op : Operator) (left right : OpTree α)

/-- An operand or an operator of a sequence. -/
inductive OpItem (α : Type) where
  | operand (a : α)
  | unary (op : Operator)
  | binary (op : Operator)

namespace OpTree

variable {α : Type}

/-- Operands and operators from left to right. -/
def inorder : OpTree α → List (OpItem α)
  | operand a => [.operand a]
  | unary op t => .unary op :: t.inorder
  | binary op left right => left.inorder ++ .binary op :: right.inorder

/-- The operators on the way down to the last operand. -/
def rightSpine : OpTree α → List Operator
  | operand _ => []
  | unary op t => op :: t.rightSpine
  | binary op _ right => op :: right.rightSpine

/-- The binary operators on the way down along left operands. An operator in front of its operand
has no left operand. -/
def leftSpine : OpTree α → List Operator
  | binary op left _ => op :: left.leftSpine
  | _ => []

/-- Every operator has taken what its precedences give it: the operators on the right spine of a
binary operator's left operand bind at least as tightly as it does, and the binary operators on the
left spine of any operator's last operand bind tighter. -/
def Ordered : OpTree α → Prop
  | operand _ => True
  | unary op t => (∀ o ∈ t.leftSpine, op.stackPrecedence < o.inputPrecedence) ∧ t.Ordered
  | binary op left right =>
    (∀ o ∈ left.rightSpine, op.inputPrecedence ≤ o.stackPrecedence) ∧
      (∀ o ∈ right.leftSpine, op.stackPrecedence < o.inputPrecedence) ∧ left.Ordered ∧ right.Ordered

instance decidableOrdered : (t : OpTree α) → Decidable t.Ordered
  | operand _ => isTrue trivial
  | unary _ t =>
    have := decidableOrdered t
    inferInstanceAs (Decidable (_ ∧ _))
  | binary _ left right =>
    have := decidableOrdered left
    have := decidableOrdered right
    inferInstanceAs (Decidable (_ ∧ _ ∧ _ ∧ _))

end OpTree

/-! ## The machine -/

/-- An operator that waits for its last operand. -/
inductive OpEntry (α : Type) where
  | unary (op : Operator)
  | binary (op : Operator) (left : OpTree α)

namespace OpEntry

variable {α : Type}

/-- The operator that waits. -/
def op : OpEntry α → Operator
  | unary op => op
  | binary op _ => op

/-- The operator with its last operand. -/
def complete : OpEntry α → OpTree α → OpTree α
  | unary op, t => .unary op t
  | binary op left, t => .binary op left t

/-- What has been read of the operator. -/
def items : OpEntry α → List (OpItem α)
  | unary op => [.unary op]
  | binary op left => left.inorder ++ [.binary op]

@[simp] theorem inorder_complete (e : OpEntry α) (t : OpTree α) :
    (e.complete t).inorder = e.items ++ t.inorder := by
  cases e with
  | unary op => rfl
  | binary op left => simp [complete, items, OpTree.inorder]

@[simp] theorem rightSpine_complete (e : OpEntry α) (t : OpTree α) :
    (e.complete t).rightSpine = e.op :: t.rightSpine := by
  cases e <;> rfl

end OpEntry

/-- Operators that wait, the innermost first, and the operand that was read last, if nothing has
come behind it. -/
structure Shunt (α : Type) where
  stack : List (OpEntry α) := []
  last : Option α := none

namespace Shunt

variable {α : Type} {stack : List (OpEntry α)} {t : OpTree α} {p : Nat}

/-- Complete the operators that bind at least as tightly as `p`. -/
def settle (p : Nat) : List (OpEntry α) → OpTree α → List (OpEntry α) × OpTree α
  | e :: stack, t =>
    if p ≤ e.op.stackPrecedence then settle p stack (e.complete t) else (e :: stack, t)
  | [], t => ([], t)

/-- Complete all operators. -/
def close (stack : List (OpEntry α)) (t : OpTree α) : OpTree α :=
  stack.foldl (fun t e => e.complete t) t

/-- Take in an item, if it can stand here. -/
def take? : Shunt α → OpItem α → Option (Shunt α)
  | ⟨stack, none⟩, .operand a => some ⟨stack, some a⟩
  | ⟨stack, none⟩, .unary op => some ⟨.unary op :: stack, none⟩
  | ⟨stack, some a⟩, .binary op =>
    let settled := settle op.inputPrecedence stack (.operand a)
    some ⟨.binary op settled.2 :: settled.1, none⟩
  | _, _ => none

/-- Take in items to the end. -/
def run? : Shunt α → List (OpItem α) → Option (OpTree α)
  | ⟨stack, last⟩, [] => last.map fun a => close stack (.operand a)
  | s, item :: rest => (s.take? item).bind fun s => s.run? rest

/-- What has been read of the operators that wait. -/
def stackItems : List (OpEntry α) → List (OpItem α)
  | [] => []
  | e :: stack => stackItems stack ++ e.items

/-! ## The answer is ordered -/

/-- The operators begin what the innermost of the waiting ones takes: they bind tighter. -/
def Above (stack : List (OpEntry α)) (ops : List Operator) : Prop :=
  ∀ e ∈ stack.head?, ∀ o ∈ ops, e.op.stackPrecedence < o.inputPrecedence

/-- The operators that wait have taken their left operands rightly, and begin, together with these,
what the next one takes. -/
inductive Stacked : List (OpEntry α) → Prop
  | nil : Stacked []
  | unary {op : Operator} {stack : List (OpEntry α)} :
      Stacked stack → Stacked (.unary op :: stack)
  | binary {op : Operator} {left : OpTree α} {stack : List (OpEntry α)} :
      Stacked stack → left.Ordered →
      (∀ o ∈ left.rightSpine, op.inputPrecedence ≤ o.stackPrecedence) →
      Above stack (op :: left.leftSpine) → Stacked (.binary op left :: stack)

/-- An ordered tree may be taken by the innermost of the operators that wait. -/
structure Ready (stack : List (OpEntry α)) (t : OpTree α) : Prop where
  stacked : Stacked stack
  ordered : t.Ordered
  above : Above stack t.leftSpine

/-- An operand alone may be taken. -/
theorem Stacked.ready (h : Stacked stack) (a : α) : Ready stack (.operand a) :=
  ⟨h, trivial, fun _ _ _ ho => by cases ho⟩

/-- Completing the innermost operator. -/
theorem Ready.complete {e : OpEntry α} (h : Ready (e :: stack) t) : Ready stack (e.complete t) := by
  have habove := h.above e rfl
  cases h.stacked with
  | unary hstack => exact ⟨hstack, ⟨habove, h.ordered⟩, fun _ _ _ ho => by cases ho⟩
  | binary hstack hleft hright hbegins =>
    exact ⟨hstack, ⟨hright, habove, hleft, h.ordered⟩, hbegins⟩

/-- Completing the operators that bind at least as tightly as an operator to come: what it gets as
its left operand was to be complete, and the next operator leaves it alone. -/
theorem Ready.settle (h : Ready stack t) (hright : ∀ o ∈ t.rightSpine, p ≤ o.stackPrecedence) :
    Ready (settle p stack t).1 (settle p stack t).2 ∧
      (∀ o ∈ (Shunt.settle p stack t).2.rightSpine, p ≤ o.stackPrecedence) ∧
      (∀ e ∈ (Shunt.settle p stack t).1.head?, e.op.stackPrecedence < p) ∧
      stackItems (Shunt.settle p stack t).1 ++ (Shunt.settle p stack t).2.inorder =
        stackItems stack ++ t.inorder := by
  induction stack generalizing t with
  | nil =>
    refine ⟨h, hright, ?_, rfl⟩
    rintro e ⟨⟩
  | cons e stack ih =>
    unfold Shunt.settle
    split
    · -- the completed operator is now the first one on the right spine
      rename_i hbinds
      have hnext := ih h.complete (by simpa using ⟨hbinds, hright⟩)
      simpa [stackItems] using hnext
    · -- the first operator that binds looser ends it
      rename_i hlooser
      refine ⟨h, hright, fun e' he' => ?_, rfl⟩
      cases he'
      exact Nat.lt_of_not_le hlooser

/-- Completing all operators. -/
theorem Ready.close (h : Ready stack t) :
    (close stack t).Ordered ∧ (Shunt.close stack t).inorder = stackItems stack ++ t.inorder := by
  induction stack generalizing t with
  | nil => exact ⟨h.ordered, rfl⟩
  | cons e stack ih => simpa [Shunt.close, stackItems] using ih h.complete

/-- What has been read so far. -/
def items (s : Shunt α) : List (OpItem α) :=
  stackItems s.stack ++ s.last.toList.map .operand

/-- Taking in an item keeps the stack in order. -/
theorem Stacked.take? {s s' : Shunt α} {item : OpItem α} (h : Stacked s.stack)
    (htake : s.take? item = some s') : Stacked s'.stack ∧ s'.items = s.items ++ [item] := by
  obtain ⟨stack, last⟩ := s
  cases item with
  | operand a =>
    cases last with
    | none =>
      cases htake
      exact ⟨h, by simp [items]⟩
    | some b => cases htake
  | unary op =>
    cases last with
    | none =>
      cases htake
      exact ⟨h.unary, by simp [items, stackItems, OpEntry.items]⟩
    | some b => cases htake
  | binary op =>
    cases last with
    | none => cases htake
    | some a =>
      cases htake
      -- what was completed becomes the left operand, and the next operator may take both
      obtain ⟨hready, hright, hhead, hitems⟩ :=
        (h.ready a).settle (p := op.inputPrecedence) (fun _ ho => by cases ho)
      refine ⟨.binary hready.stacked hready.ordered hright fun e he o ho => ?_, ?_⟩
      · rcases List.mem_cons.mp ho with rfl | ho
        · exact hhead e he
        · exact hready.above e he o ho
      · simp only [OpTree.inorder] at hitems
        simp [items, stackItems, OpEntry.items, ← hitems]

/-- The answer is an ordered tree, and its reading is what was taken in. -/
theorem ordered_of_run? {s : Shunt α} {rest : List (OpItem α)} (h : Stacked s.stack)
    (hrun : s.run? rest = some t) : t.Ordered ∧ t.inorder = s.items ++ rest := by
  induction rest generalizing s with
  | nil =>
    obtain ⟨stack, last⟩ := s
    obtain ⟨a, rfl, rfl⟩ := Option.map_eq_some_iff.mp hrun
    simpa [items, OpTree.inorder] using (h.ready a).close
  | cons item rest ih =>
    obtain ⟨s', htake, hrun⟩ := Option.bind_eq_some_iff.mp hrun
    obtain ⟨hstack, hitems⟩ := h.take? htake
    simpa [hitems] using ih hstack hrun

/-! ## Every ordered tree is found -/

end Shunt

namespace OpTree

variable {α : Type}

/-- The operators on the way down to the last operand, as they wait while that is read. -/
def spine : OpTree α → List (OpEntry α)
  | operand _ => []
  | unary op t => t.spine ++ [.unary op]
  | binary op left right => right.spine ++ [.binary op left]

/-- The last operand. -/
def lastOperand : OpTree α → α
  | operand a => a
  | unary _ t => t.lastOperand
  | binary _ _ right => right.lastOperand

/-- The operators of the spine are on the right spine. -/
theorem op_mem_rightSpine (t : OpTree α) : ∀ e ∈ t.spine, e.op ∈ t.rightSpine := by
  intro e he
  induction t with
  | operand a => cases he
  | unary op t ih =>
    rcases List.mem_append.mp he with he | he
    · exact List.mem_cons_of_mem _ (ih he)
    · rw [List.mem_singleton.mp he]
      exact List.mem_cons_self
  | binary op left right _ ih =>
    rcases List.mem_append.mp he with he | he
    · exact List.mem_cons_of_mem _ (ih he)
    · rw [List.mem_singleton.mp he]
      exact List.mem_cons_self

/-- Completing what waits gives the tree back. -/
theorem close_spine (t : OpTree α) : Shunt.close t.spine (.operand t.lastOperand) = t := by
  induction t with
  | operand a => rfl
  | unary op t ih => simp_all [spine, lastOperand, Shunt.close, OpEntry.complete]
  | binary op left right _ ih => simp_all [spine, lastOperand, Shunt.close, OpEntry.complete]

end OpTree

namespace Shunt

variable {α : Type} {stack : List (OpEntry α)} {t : OpTree α} {p : Nat}

/-- Operators that bind tightly enough are all completed. -/
theorem settle_append {inner : List (OpEntry α)}
    (hinner : ∀ e ∈ inner, p ≤ e.op.stackPrecedence) :
    settle p (inner ++ stack) t = settle p stack (close inner t) := by
  induction inner generalizing t with
  | nil => rfl
  | cons e inner ih =>
    rw [List.cons_append, settle, if_pos (hinner e List.mem_cons_self),
      ih fun e' he' => hinner e' (List.mem_cons_of_mem _ he')]
    rfl

/-- Operators that bind loosely wait on. -/
theorem settle_of_head (hhead : ∀ e ∈ stack.head?, e.op.stackPrecedence < p) :
    settle p stack t = (stack, t) := by
  cases stack with
  | nil => rfl
  | cons e stack => rw [settle, if_neg (Nat.not_le.mpr (hhead e rfl))]

/-- Reading an ordered tree, while others wait that do not take parts of it. -/
theorem run?_inorder_append (stack : List (OpEntry α)) (ht : t.Ordered)
    (habove : Above stack t.leftSpine) (rest : List (OpItem α)) :
    run? ⟨stack, none⟩ (t.inorder ++ rest) = run? ⟨t.spine ++ stack, some t.lastOperand⟩ rest := by
  induction t generalizing stack rest with
  | operand a => rfl
  | unary op t ih =>
    obtain ⟨hleft, ht⟩ := ht
    -- the operator waits while its operand is read
    have hnext := ih (.unary op :: stack) ht (fun e he => by cases he; exact hleft) rest
    simpa [OpTree.inorder, OpTree.spine, OpTree.lastOperand, run?, take?] using hnext
  | binary op left right ihleft ihright =>
    obtain ⟨hinner, hbegins, hleft, hright⟩ := ht
    -- the left operand is read first, and then completed by the operator
    have hfirst := ihleft stack hleft
      (fun e he o ho => habove e he o (List.mem_cons_of_mem _ ho))
      (.binary op :: (right.inorder ++ rest))
    have hsettle : settle op.inputPrecedence (left.spine ++ stack) (.operand left.lastOperand) =
        (stack, left) := by
      rw [settle_append fun e he => hinner _ (left.op_mem_rightSpine e he), left.close_spine]
      exact settle_of_head fun e he => habove e he op List.mem_cons_self
    -- then the operator waits with it while the right operand is read
    have hsecond := ihright (.binary op left :: stack) hright
      (fun e he => by cases he; exact hbegins) rest
    rw [show (OpTree.binary op left right).inorder ++ rest =
      left.inorder ++ .binary op :: (right.inorder ++ rest) by simp [OpTree.inorder], hfirst]
    simpa [run?, take?, hsettle, OpTree.spine, OpTree.lastOperand] using hsecond

/-- The machine finds an ordered tree from its reading. -/
theorem run?_inorder (ht : t.Ordered) : run? {} t.inorder = some t := by
  have hrun := run?_inorder_append [] ht (fun e he => by cases he) []
  rw [List.append_nil, List.append_nil] at hrun
  rw [show ({} : Shunt α) = ⟨[], none⟩ from rfl, hrun, run?, Option.map_some, t.close_spine]

end Shunt

/-- A sequence is the reading of at most one ordered tree. -/
theorem OpTree.Ordered.unique {α : Type} {t t' : OpTree α} (ht : t.Ordered) (ht' : t'.Ordered)
    (hinorder : t.inorder = t'.inorder) : t = t' := by
  have hfound := Shunt.run?_inorder ht
  rw [hinorder, Shunt.run?_inorder ht'] at hfound
  exact (Option.some.inj hfound).symm

/-- In `1 * return 2 + 3` the sum is returned: `return` takes all that follows. -/
example : (OpTree.binary .mul (.operand 1)
    (.unary .returns (.binary .add (.operand 2) (.operand 3)))).Ordered := by decide

example : ¬(OpTree.binary .add (.binary .mul (.operand 1) (.unary .returns (.operand 2)))
    (.operand 3)).Ordered := by decide

end TupleLang
