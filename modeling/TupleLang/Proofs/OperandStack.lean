import TupleLang.Proofs.Conditionals
import TupleLang.Proofs.Relations

/-!
# Operands on a shared stack

An action finds its operands on top of the stack. What lies below them is none of its business: it
does the same whatever is there, leaves it where it is, and puts one result on top, or none if it
only signals where to go on (`ActionM.Frames`, `Body.frames_run`).

The language's own actions keep to this, and so do constructors (`Action.actions_keep_to_operands`),
except for the conditional: it takes the lowest cell of the whole stack for its condition, and
nothing is left of what was below its operands (`Action.conditional_takes_what_is_below`). The
evaluator gives every action a stack of its own, where nothing is below the operands.
-/

namespace TupleLang

namespace ActionM

variable {α β : Type} {m : ActionM α} {f : α → ActionM β} {top : List Cell}
  {Q : α → List Cell → Prop} {P : β → List Cell → Prop}

/-- The outcome of a program, with further cells below those that it leaves. -/
def above (below : List Cell) :
    EStateM.Result Error Activation α → EStateM.Result Error Activation α
  | .ok x a => .ok x ⟨a.store, a.stack.action, a.stack.cells ++ below⟩
  | .error e a => .error e ⟨a.store, a.stack.action, a.stack.cells ++ below⟩

/-- On top of any cells the program does what it does with the cells `top` alone. If it succeeds,
`Q` holds of its result and of the cells that it leaves in their place. -/
structure Frames (m : ActionM α) (top : List Cell) (Q : α → List Cell → Prop) : Prop where
  frame : ∀ s name below, m ⟨s, name, top ++ below⟩ = above below (m ⟨s, name, top⟩)
  leaves : ∀ {s name x after}, m ⟨s, name, top⟩ = .ok x after →
    after.stack.action = name ∧ Q x after.stack.cells

namespace Frames

/-! ## Putting programs together -/

/-- A result leaves the stack alone. -/
protected theorem pure {x : α} (h : Q x top) : Frames (pure x) top Q where
  frame _ _ _ := rfl
  leaves hrun := by
    cases hrun
    exact ⟨rfl, h⟩

/-- So does an error. -/
protected theorem throw (e : Error) : Frames (throw e : ActionM α) top Q where
  frame _ _ _ := rfl
  leaves hrun := by cases hrun

/-- Programs that keep to the top of the stack may follow each other. -/
protected theorem bind (hm : Frames m top Q) (hf : ∀ x left, Q x left → Frames (f x) left P) :
    Frames (m >>= f) top P where
  frame s name below := by
    simp only [bind, EStateM.bind, hm.frame s name below]
    cases hrun : m ⟨s, name, top⟩ with
    | error e after => rfl
    | ok x after =>
      -- the rest runs on what has been left on top, with the same cells below
      obtain ⟨-, hQ⟩ := hm.leaves hrun
      exact (hf x _ hQ).frame _ _ _
  leaves {s name y after} hrun := by
    simp only [bind, EStateM.bind] at hrun
    cases hfirst : m ⟨s, name, top⟩ with
    | error e mid => simp [hfirst] at hrun
    | ok x mid =>
      rw [hfirst] at hrun
      obtain ⟨rfl, hQ⟩ := hm.leaves hfirst
      exact (hf x _ hQ).leaves hrun

/-- A program may look at the store, but not at the stack. -/
theorem bind_get {f : Activation → ActionM β} (hf : ∀ a, f a = f ⟨a.store, "", []⟩)
    (hstore : ∀ s, Frames (f ⟨s, "", []⟩) top P) : Frames (get >>= f) top P where
  frame s name below := by
    have hrun : ∀ a, (get >>= f) a = f ⟨a.store, "", []⟩ a := fun a => congrFun (hf a) a
    rw [hrun, hrun]
    exact (hstore s).frame s name below
  leaves {s name y after} hrun :=
    (hstore s).leaves ((congrFun (hf ⟨s, name, top⟩) _).symm.trans hrun)

/-! ## Steps -/

/-- An operation on the store leaves the stack alone. -/
theorem bind_onStore {m : StoreM α} (hf : ∀ x, Frames (f x) top P) :
    Frames (onStore m >>= f) top P := by
  have hm : Frames (onStore m) top fun _ left => left = top := by
    refine ⟨fun s name below => ?_, fun {s name x after} hrun => ?_⟩
    · simp only [onStore]
      cases m s <;> rfl
    · simp only [onStore] at hrun
      cases hstore : m s <;> rw [hstore] at hrun <;> cases hrun
      exact ⟨rfl, rfl⟩
  exact .bind hm fun x _ hleft => hleft ▸ hf x

theorem bind_push {f : Unit → ActionM β} {c : Cell} (hf : Frames (f ()) (c :: top) P) :
    Frames (push c >>= f) top P where
  frame s name below := hf.frame s name below
  leaves hrun := hf.leaves hrun

theorem bind_pop {f : Cell → ActionM β} {c : Cell} (hf : Frames (f c) top P) :
    Frames (pop >>= f) (c :: top) P where
  frame s name below := hf.frame s name below
  leaves hrun := hf.leaves hrun

theorem bind_popPair {f : Cell × Cell → ActionM β} {x y : Cell} (hf : Frames (f (x, y)) [] P) :
    Frames (popPair >>= f) [y, x] P where
  frame s name below := hf.frame s name below
  leaves hrun := hf.leaves hrun

/-- Taking as many cells as there are of its own. -/
theorem bind_popMany {f : List Cell → ActionM β} (hf : ∀ cells, Frames (f cells) [] P) :
    Frames (popMany top.length >>= f) top P := by
  have hm : Frames (popMany top.length) top fun _ left => left = [] := by
    refine ⟨fun s name below => ?_, fun {s name x after} hrun => ?_⟩
    · rw [Action.popMany_eq, Action.popMany_eq, if_pos (by simp), if_pos le_rfl]
      simp [above]
    · rw [Action.popMany_eq, if_pos le_rfl] at hrun
      cases hrun
      exact ⟨rfl, List.drop_length⟩
  exact .bind hm fun cells _ hleft => hleft ▸ hf cells

/-- Where all cells are taken, what is left is left by the rest of the program. -/
theorem leaves_popAll {f : List Cell → ActionM β} (hf : ∀ cells, Frames (f cells) [] P)
    {s : Store} {name : String} {cells : List Cell} {y : β} {after : Activation}
    (h : (popAll >>= f) ⟨s, name, cells⟩ = .ok y after) :
    after.stack.action = name ∧ P y after.stack.cells := (hf cells.reverse).leaves h

end Frames

end ActionM

/-! ## Bodies -/

/-- How many cells an action that ends with the signal leaves in place of its operands. -/
def Signal.results : Signal → Nat
  | .breaks | .continues => 0
  | .normal | .returns | .raises => 1

namespace Body

open ActionM Frames

/-- How many operands a body takes, if their number is fixed. -/
def operandCount? : Body → Option Nat
  | unary .. | returns | raises | textOf | length | typeOf => some 1
  | binary .. | compound .. | assign | typeTest _ => some 2
  | signal .breaks | signal .continues => some 0
  | construct names => some names.length
  | signal _ | choose | host _ => none

/-- A body leaves as many cells as its signal says. -/
abbrev Settles (signal : Signal) (left : List Cell) : Prop := left.length = signal.results

/-- A body puts its result on top in the end. -/
theorem frames_push {signal : Signal} (hsignal : signal.results = 1) (c : Cell) :
    Frames (do push c; return signal) [] Settles := bind_push (.pure hsignal.symm)

/-- The result may be a new cell. -/
theorem frames_pushTyped {signal : Signal} (hsignal : signal.results = 1) (type : String)
    (n : Native) (v : n.Carrier) : Frames (do pushTyped type n v; return signal) [] Settles := by
  rw [pushTyped, bind_assoc]
  exact bind_onStore fun c => frames_push hsignal c

theorem frames_finish {type : String} {n : Native} (result : Except Condition n.Carrier) :
    Frames (finish type n result) [] Settles := by
  cases result with
  | ok v => exact frames_pushTyped rfl _ _ _
  | error condition => exact frames_pushTyped rfl _ _ _

section Bodies

variable {x y : Cell}

theorem frames_runUnary (a r : Native) (returns : String)
    (f : a.Carrier → Except Condition r.Carrier) : Frames (runUnary a r returns f) [x] Settles := by
  rw [runUnary, popNative, bind_assoc]
  exact bind_pop (bind_onStore fun u => frames_finish (f u))

theorem frames_runBinary (a b r : Native) (returns : String)
    (f : a.Carrier → b.Carrier → Except Condition r.Carrier) :
    Frames (runBinary a b r returns f) [y, x] Settles :=
  bind_popPair (bind_onStore fun u => bind_onStore fun v => frames_finish (f u v))

theorem frames_runCompound (a b : Native) (f : a.Carrier → b.Carrier → Except Condition a.Carrier) :
    Frames (runCompound a b f) [y, x] Settles := by
  refine bind_popPair (bind_onStore fun u => bind_onStore fun v => ?_)
  cases f u v with
  | ok w => exact bind_onStore fun _ => frames_push rfl x
  | error condition => exact frames_pushTyped rfl _ _ _

theorem frames_runAssign : Frames runAssign [y, x] Settles :=
  bind_popPair (bind_onStore fun c => frames_push rfl c)

theorem frames_runTypeTest (expected : Bool) : Frames (runTypeTest expected) [y, x] Settles :=
  bind_popPair (bind_onStore fun _ => frames_pushTyped rfl _ _ _)

theorem frames_runTextOf : Frames runTextOf [x] Settles := by
  refine bind_pop (bind_get (fun _ => rfl) fun store => ?_)
  -- the text is there or is made from the value, and then it is the result
  dsimp only
  split
  · exact frames_pushTyped rfl _ _ _
  · exact bind_onStore fun text => frames_pushTyped rfl _ _ _

theorem frames_runLength : Frames runLength [x] Settles :=
  bind_pop (bind_get (fun _ => rfl) fun _ => bind_onStore fun _ => frames_pushTyped rfl _ _ _)

theorem frames_runTypeOf : Frames runTypeOf [x] Settles := bind_pop (frames_pushTyped rfl _ _ _)

theorem frames_runConstruct {names : List (Option String)} {top : List Cell}
    (hcount : top.length = names.length) : Frames (runConstruct names) top Settles := by
  rw [runConstruct, ← hcount]
  exact bind_popMany fun cells => bind_onStore fun c => frames_push rfl c

/-- A conditional leaves its result and nothing else. -/
theorem leaves_runChoose {s : Store} {name : String} {cells : List Cell} {signal : Signal}
    {after : Activation} (h : runChoose ⟨s, name, cells⟩ = .ok signal after) :
    after.stack.action = name ∧ Settles signal after.stack.cells := by
  refine leaves_popAll (fun cells => ?_) h
  cases cells with
  | nil => exact .throw _
  | cons condition branches =>
    refine bind_onStore fun truth => ?_
    dsimp only
    split
    · exact frames_push rfl _
    · exact bind_onStore fun c => frames_push rfl c

/-- A body with a fixed number of operands keeps to that many cells from the top of the stack. -/
theorem frames_run (host : Host) {body : Body} {top : List Cell}
    (h : body.operandCount? = some top.length) : Frames (body.run host) top Settles := by
  -- in each case the cells on top are just the operands that the body asks for
  cases body with
  | unary a r returns f =>
    obtain ⟨x, rfl⟩ := List.length_eq_one_iff.mp (Option.some.inj h).symm
    exact frames_runUnary a r returns f
  | binary a b r returns f =>
    obtain ⟨y, x, rfl⟩ := List.length_eq_two.mp (Option.some.inj h).symm
    exact frames_runBinary a b r returns f
  | compound a b f =>
    obtain ⟨y, x, rfl⟩ := List.length_eq_two.mp (Option.some.inj h).symm
    exact frames_runCompound a b f
  | assign =>
    obtain ⟨y, x, rfl⟩ := List.length_eq_two.mp (Option.some.inj h).symm
    exact frames_runAssign
  | choose => cases h
  | typeTest expected =>
    obtain ⟨y, x, rfl⟩ := List.length_eq_two.mp (Option.some.inj h).symm
    exact frames_runTypeTest expected
  | returns =>
    obtain ⟨x, rfl⟩ := List.length_eq_one_iff.mp (Option.some.inj h).symm
    exact bind_pop (frames_push rfl x)
  | raises =>
    obtain ⟨x, rfl⟩ := List.length_eq_one_iff.mp (Option.some.inj h).symm
    rw [run, popNative, bind_assoc]
    exact bind_pop (bind_onStore fun condition => frames_pushTyped rfl _ _ _)
  | signal signal =>
    cases signal with
    | breaks | continues =>
      obtain rfl := List.length_eq_zero_iff.mp (Option.some.inj h).symm
      exact .pure rfl
    | normal | returns | raises => cases h
  | textOf =>
    obtain ⟨x, rfl⟩ := List.length_eq_one_iff.mp (Option.some.inj h).symm
    exact frames_runTextOf
  | length =>
    obtain ⟨x, rfl⟩ := List.length_eq_one_iff.mp (Option.some.inj h).symm
    exact frames_runLength
  | typeOf =>
    obtain ⟨x, rfl⟩ := List.length_eq_one_iff.mp (Option.some.inj h).symm
    exact frames_runTypeOf
  | construct names => exact frames_runConstruct (Option.some.inj h).symm
  | host label => cases h

end Bodies

end Body

/-! ## Actions -/

/-- How many operands a signature asks for: the arguments, and before them the owner of an operator
that has one. -/
def Signature.operandCount (s : Signature) : Nat :=
  if s.category = operatorCategory ∧ s.owner.isVoid = false then s.args.size + 1 else s.args.size

namespace Action

variable {host : Host} {a : Action}

/-- The action is found in a new store, or it is the constructor of a tree type. -/
def Known (a : Action) : Prop :=
  (∃ settings, let s := Store.withSettings settings; s.action? s.root a.signature = some a) ∨
    ∃ name type, type.isLeaf = false ∧ a = constructorFor name type

/-- The action is one of the operators called `if`. -/
def isConditional (a : Action) : Bool :=
  a.signature.category == Signature.operatorCategory && a.name == "if"

/-- A conditional picks a branch, and all others take the operands of their signature. -/
theorem Known.body_cases (h : a.Known) :
    a.isConditional = true ∧ a.body = .choose ∨
      a.isConditional = false ∧ a.body.operandCount? = some a.signature.operandCount := by
  rcases h with ⟨settings, hfound⟩ | ⟨name, type, htree, rfl⟩
  · obtain ⟨hmem, -⟩ := Store.action?_withSettings.mp hfound
    cases hif : a.isConditional with
    | true =>
      have hname : a.name = "if" := beq_iff_eq.mp (Bool.and_eq_true_iff.mp hif).2
      exact .inl ⟨rfl, body_of_if hmem hname⟩
    | false =>
      -- the one place where the bodies of all actions are compared with their signatures
      have hall : (Builtin.catalogue.all fun a =>
          a.isConditional || a.body.operandCount? == some a.signature.operandCount) = true := by
        decide +kernel
      have hcount := List.all_eq_true.mp hall a hmem
      rw [hif, Bool.false_or, beq_iff_eq] at hcount
      exact .inr ⟨rfl, hcount⟩
  · -- a constructor has no owner, and its arguments are the children of the type
    refine .inr ⟨rfl, ?_⟩
    simp [constructorFor, Body.operandCount?, Signature.operandCount, Signature.constructor,
      Signature.make, htree, TypeDesc.size, Signature.constructorCategory,
      Signature.operatorCategory]

/-- The stack of the action `name` after it has ended with a signal, when `below` is what it had to
leave where it was. -/
structure Leaves (name : String) (below : List Cell) (signal : Signal) (stack : Stack) : Prop where
  /-- Where there is a result, it is the one thing on top. -/
  result : signal = .normal ∨ signal = .returns ∨ signal = .raises →
    ∃ c, stack = ⟨name, c :: below⟩
  /-- Where control goes elsewhere, there is none. -/
  nothing : signal = .breaks ∨ signal = .continues → stack = ⟨name, below⟩

theorem leaves_of_results {name : String} {below left : List Cell} {signal : Signal}
    (h : left.length = signal.results) : Leaves name below signal ⟨name, left ++ below⟩ where
  result hsignal := by
    rcases hsignal with rfl | rfl | rfl <;>
      · obtain ⟨c, rfl⟩ := List.length_eq_one_iff.mp h
        exact ⟨c, rfl⟩
  nothing hsignal := by
    rcases hsignal with rfl | rfl <;>
      · obtain rfl := List.length_eq_zero_iff.mp h
        rfl

/-- A conditional picks one of all the cells there are, or makes a void one, and leaves just that.
-/
theorem leaves_of_choose {s : Store} {name : String} {cells : List Cell} {signal : Signal}
    {after : Activation} (h : Body.choose.run host ⟨s, name, cells⟩ = .ok signal after) :
    Leaves name [] signal after.stack := by
  obtain ⟨rfl, hleft⟩ := Body.leaves_runChoose h
  have hleaves : Leaves after.stack.action [] signal
      ⟨after.stack.action, after.stack.cells ++ []⟩ := leaves_of_results hleft
  rw [List.append_nil] at hleaves
  exact hleaves

/-- The language's own actions and constructors keep to their operands on any stack: what lies below
makes no difference to them and stays where it is, with one result on top of it, or none after
`break` and `continue`. Only of a conditional nothing but the result is left. -/
theorem actions_keep_to_operands (host : Host) {a : Action} (ha : a.Known) {operands : List Cell}
    (hcount : operands.length = a.signature.operandCount) (s : Store) (name : String)
    (below : List Cell) :
    (a.isConditional = false → a.call host ⟨s, name, operands.reverse ++ below⟩ =
      ActionM.above below (a.call host ⟨s, name, operands.reverse⟩)) ∧
    ∀ signal after, a.call host ⟨s, name, operands.reverse ++ below⟩ = .ok signal after →
      Leaves name (if a.isConditional then [] else below) signal after.stack := by
  rcases ha.body_cases with ⟨hif, hbody⟩ | ⟨hif, hbody⟩
  · rw [hif, if_pos rfl, call, hbody]
    exact ⟨nofun, fun signal after hrun => leaves_of_choose hrun⟩
  · have hlength : operands.reverse.length = a.signature.operandCount := by
      rw [List.length_reverse, hcount]
    have hframes := Body.frames_run host (hlength ▸ hbody)
    have hframe : a.call host ⟨s, name, operands.reverse ++ below⟩ =
        ActionM.above below (a.call host ⟨s, name, operands.reverse⟩) := hframes.frame s name below
    refine ⟨fun _ => hframe, fun signal after hrun => ?_⟩
    rw [hif, if_neg Bool.false_ne_true]
    rw [hframe] at hrun
    cases halone : a.call host ⟨s, name, operands.reverse⟩ with
    | error e mid => rw [halone] at hrun; cases hrun
    | ok signal' mid =>
      rw [halone] at hrun
      obtain ⟨rfl, rfl⟩ := EStateM.Result.ok.inj hrun
      obtain ⟨rfl, hleft⟩ := hframes.leaves halone
      exact leaves_of_results hleft

/-- A store with three scalars. -/
def scalarStore : Store where
  heap := ⟨#[.bool true, .int 1, .int 0]⟩
  root := ⟨0, 0⟩

/-- The truth value in that store. -/
def yes : Cell := { type := .leaf "bool", loc := 0 }

/-- The first integer in that store. -/
def one : Cell := { type := .leaf "int", loc := 1 }

/-- The second integer in that store. -/
def zero : Cell := { type := .leaf "int", loc := 2 }

/-- Division by zero on top of a truth value, which is still there below the name of the condition.
-/
theorem actions_keep_to_operands_quotient :
    let a := Builtin.binary "/" "int" "int" "int" .int .int .int (Word.div .int)
    a.Known ∧ [one, zero].length = a.signature.operandCount ∧
      ∃ after c, a.call .none ⟨scalarStore, "/", [zero, one, yes]⟩ = .ok .raises after ∧
        after.stack = ⟨"/", [c, yes]⟩ := by
  intro a
  have hknown : a.Known := .inl ⟨{}, Store.action?_withSettings.mpr ⟨by
    simp [a, Builtin.catalogue, Builtin.numeric, Builtin.arithmetic], rfl⟩⟩
  obtain ⟨after, hrun⟩ :
      ∃ after, a.call .none ⟨scalarStore, "/", [zero, one, yes]⟩ = .ok .raises after := ⟨_, rfl⟩
  have hcount : [one, zero].length = a.signature.operandCount := rfl
  obtain ⟨-, hleaves⟩ := actions_keep_to_operands .none hknown hcount scalarStore "/" [yes]
  obtain ⟨c, hstack⟩ := (hleaves .raises after hrun).result (.inr (.inr rfl))
  exact ⟨hknown, hcount, after, c, hrun, hstack⟩

/-- On top of a truth value, that and not the operand below the branches is the condition of `if`,
and nothing is left of it. -/
theorem conditional_takes_what_is_below :
    let a := Builtin.operator "if" "bool" ["any", "any"] "any" .choose
    a.Known ∧ a.signature.accepts (.leaf "bool") (.leaves ["int", "int"]) = true ∧
      ∃ after, a.call .none ⟨scalarStore, "if", [zero, one, yes] ++ [yes]⟩ = .ok .normal after ∧
        ∀ c, after.stack ≠ ⟨"if", c :: [yes]⟩ := by
  intro a
  have hknown : a.Known := .inl ⟨{}, Store.action?_withSettings.mpr ⟨by
    simp [a, Builtin.catalogue, Builtin.control], rfl⟩⟩
  refine ⟨hknown, by decide, _, rfl, fun c h => ?_⟩
  -- the operand that should have been the condition is taken for a branch, and is all that is left
  have hcells : [yes] = [c, yes] := congrArg Stack.cells h
  simp at hcells

end Action

end TupleLang
