import Mathlib
import TupleLang.Expr.Eval

/-!
# Actions without a stack

An action takes its operands from a stack and leaves its result there. `Body.effect` is the same
without a stack: what a body does to the store and which cell is its result, given the operands with
the last one first. `Action.apply_eq` says that applying an action, other than one of the host,
comes to that.
-/

namespace TupleLang

/-! ## Writing through cells -/

namespace Cell

variable {h h' : Heap} {c c' : Cell}

/-- A native value is stored through a handle without a lock whose type admits it. -/
theorem set_eq_ok_iff {n : Native} {v : n.Carrier} :
    c.set h n v = .ok h' ↔
      c.lockedBy = none ∧ c.admits n = true ∧ h' = h.put c.loc (n.wrap v) := by
  unfold set checkWritable checkType
  cases c.lockedBy with
  | some kind => simp [bind, Except.bind]
  | none =>
    by_cases hadmits : c.admits n = true
    · simp [bind, Except.bind, hadmits, eq_comm]
    · simp [bind, Except.bind, hadmits]

/-- Type and value are replaced through a handle without a lock. -/
theorem replace_eq_ok_iff {type : TypeDesc} {v : Value} :
    c.replace h type v = .ok (c', h') ↔
      c.lockedBy = none ∧ c' = { c with type } ∧ h' = h.put c.loc v := by
  unfold replace checkWritable
  cases c.lockedBy with
  | some kind => simp [bind, Except.bind]
  | none => simp [bind, Except.bind, eq_comm]

end Cell

/-! ## Effects of bodies -/

namespace Body

/-- Store a value in a place, and destroy the tuple that was there before unless it is there
still. -/
def putInto (target value : Cell) (previous : Option TupleId) : StoreM Cell := do
  let target ← StoreM.tryHeap fun h => value.cloneInto h target
  match previous with
  | some old =>
    if target.tupleId? (← get).heap ≠ some old then modify (·.destroy old)
  | none => pure ()
  return target

/-- Assigning is putting a value into a place, once it is one that may be moved. -/
theorem assignCell_eq (target value : Cell) : assignCell target value = (do
    StoreM.ofExcept target.checkWritable
    if target.type ≠ value.type then throw (.incompatibleType target.type value.type)
    let previous := target.tupleId? (← get).heap
    let refers := !value.owned && (value.tupleId? (← get).heap).isSome
    let value ← if refers then StoreM.duplicate value else pure value
    putInto target value previous) := rfl

open StoreM

/-- The name of a condition that was raised. -/
def raised (condition : String) : StoreM (Signal × Cell) := do
  return (.raises, ← newNative .name condition)

/-- The cell of a computed native value of logical type `type`, or the raised condition. -/
def complete (type : String) (n : Native) : Except Condition n.Carrier → StoreM (Signal × Cell)
  | .ok v => do return (.normal, ← newCell (.leaf type) (n.wrap v))
  | .error condition => raised condition.name

/-- The cell that a condition picks from the branches; none counts as void. -/
def pick (truth : Bool) (branches : List Cell) : StoreM Cell :=
  match if truth then branches[0]? else branches[1]? with
  | some cell => pure cell
  | none => newVoid

/-- The literal text of a cell; a text stays as it is. -/
def textIn (store : Store) (cell : Cell) : Except Error String :=
  match cell.value store.heap with
  | .text s => .ok s
  | _ => store.cellText cell

/-- What a body does to the operands of the action called `name`, the last of them first. -/
def effect (name : String) : Body → List Cell → StoreM (Signal × Cell)
  | unary a r type f, x :: _ => do complete type r (f (← read x a))
  | binary a b r type f, y :: x :: _ => do
    let u ← read x a
    let v ← read y b
    complete type r (f u v)
  | compound a b f, y :: x :: _ => do
    let u ← read x a
    let v ← read y b
    match f u v with
    | .ok w =>
      write x a w
      return (.normal, x)
    | .error condition => raised condition.name
  | assign, y :: x :: _ => do return (.normal, ← assignCell x y)
  | choose, cells =>
    match cells.reverse with
    | [] => throw (.stackUnderflow "if")
    | condition :: branches => do return (.normal, ← pick (← read condition .bool) branches)
  | typeTest expected, y :: x :: _ => do
    let type ← read y .type
    return (.normal, ← newNative .bool (type.compatibleWith x.type == expected))
  | returns, x :: _ => return (.returns, x)
  | raises, x :: _ => do raised (← read x .name)
  | signal s, x :: _ => return (s, x)
  | signal s, [] => do return (s, ← newVoid)
  | textOf, x :: _ => do
    let text ← StoreM.ofExcept (textIn (← get) x)
    return (.normal, ← newNative .text text)
  | length, x :: _ => do
    let n ← StoreM.ofExcept (lengthOf (← get) x)
    return (.normal, ← newNative .unsigned (UInt64.ofNat n))
  | typeOf, x :: _ => do return (.normal, ← newNative .type x.type)
  | construct names, cells =>
    if names.length ≤ cells.length then do
      let entries ← ownOperands (names.zip (cells.take names.length).reverse)
      let id ← createFrom .plain (some (← get).root) entries
      return (.normal, ← newCell (← StoreM.ofExcept ((← get).typeOf id)) (.tuple id))
    else throw (.stackUnderflow name)
  | _, _ => throw (.stackUnderflow name)

/-- Store a computed value in a cell, which is the result, or raise the condition. -/
def deposit (x : Cell) (n : Native) : Except Condition n.Carrier → StoreM (Signal × Cell)
  | .ok v => do
    write x n v
    return (.normal, x)
  | .error condition => raised condition.name

section Computing

variable {name type : String} {a b r : Native} {x y : Cell} {u : a.Carrier} {v : b.Carrier}
  {s : Store}

/-- Computing with one operand comes to what is computed from its value. -/
theorem effect_unary {f : a.Carrier → Except Condition r.Carrier} (hx : x.read s.heap a = .ok u) :
    (unary a r type f).effect name [x] s = complete type r (f u) s := by
  simp only [effect, StoreM.read, bind, EStateM.bind, get, getThe, MonadStateOf.get,
    EStateM.get, hx, StoreM.ofExcept, pure, EStateM.pure]

/-- Computing with two operands comes to what is computed from their values. -/
theorem effect_binary {f : a.Carrier → b.Carrier → Except Condition r.Carrier}
    (hx : x.read s.heap a = .ok u) (hy : y.read s.heap b = .ok v) :
    (binary a b r type f).effect name [y, x] s = complete type r (f u v) s := by
  simp only [effect, StoreM.read, bind, EStateM.bind, get, getThe, MonadStateOf.get,
    EStateM.get, hx, hy, StoreM.ofExcept, pure, EStateM.pure]

/-- A compound assignment stores what is computed from the values of the operands. -/
theorem effect_compound {f : a.Carrier → b.Carrier → Except Condition a.Carrier}
    (hx : x.read s.heap a = .ok u) (hy : y.read s.heap b = .ok v) :
    (compound a b f).effect name [y, x] s = deposit x a (f u v) s := by
  simp only [effect, StoreM.read, bind, EStateM.bind, get, getThe, MonadStateOf.get,
    EStateM.get, hx, hy, StoreM.ofExcept, pure, EStateM.pure]
  cases f u v <;> rfl

end Computing

end Body

namespace Action

open ActionM

variable {host : Host} {name : String}

/-- Taking the top cells of a stack. -/
theorem popMany_eq (n : Nat) (store : Store) (action : String) (cells : List Cell) :
    popMany n ⟨store, action, cells⟩ =
      if n ≤ cells.length then .ok (cells.take n).reverse ⟨store, action, cells.drop n⟩
      else .error (.stackUnderflow action) ⟨store, action, []⟩ := by
  induction n generalizing cells with
  | zero => simp [popMany, pure, EStateM.pure]
  | succ n ih =>
    cases cells with
    | nil => simp [popMany, pop, bind, EStateM.bind]
    | cons cell cells =>
      -- the top cell is taken, and then as many as are left to take
      simp only [popMany, pop, bind, EStateM.bind, ih, pure, EStateM.pure, List.length_cons,
        Nat.add_le_add_iff_right]
      by_cases hn : n ≤ cells.length
      · simp [hn]
      · simp [hn]

/-- The outcome of a program on a stack, as far as the store is concerned. -/
def settle {α : Type} : EStateM.Result Error Activation α → EStateM.Result Error Store α
  | .ok x a => .ok x a.store
  | .error e a => .error e a.store

/-- Work on the store comes first. -/
theorem settle_onStore {α β : Type} (m : StoreM α) (f : α → ActionM β) (g : α → StoreM β)
    (a : Activation) (hfg : ∀ x s, settle (f x { a with store := s }) = g x s) :
    settle ((onStore m >>= f) a) = (m >>= g) a.store := by
  simp only [onStore, bind, EStateM.bind]
  cases hrun : m a.store with
  | ok x s => exact hfg x s
  | error e s => rfl

theorem settle_get {α : Type} (f : Activation → ActionM α) (a : Activation) :
    settle ((get >>= f) a) = settle (f a a) := rfl

theorem settle_pop {α : Type} (f : Cell → ActionM α) (s : Store) (cell : Cell) (cells : List Cell) :
    settle ((pop >>= f) ⟨s, name, cell :: cells⟩) = settle (f cell ⟨s, name, cells⟩) := rfl

theorem settle_popAll {α : Type} (f : List Cell → ActionM α) (s : Store) (cells : List Cell) :
    settle ((popAll >>= f) ⟨s, name, cells⟩) = settle (f cells.reverse ⟨s, name, []⟩) := rfl

/-- Taking operands that are there, and failing where they are not. -/
theorem settle_popMany {α : Type} (n : Nat) (f : List Cell → ActionM α) (s : Store)
    (cells : List Cell) :
    settle ((popMany n >>= f) ⟨s, name, cells⟩) =
      if n ≤ cells.length then settle (f (cells.take n).reverse ⟨s, name, cells.drop n⟩)
      else .error (.stackUnderflow name) s := by
  simp only [bind, EStateM.bind, popMany_eq]
  by_cases hn : n ≤ cells.length
  · simp [hn]
  · simp [hn, settle]

/-- Run a body and take its result. -/
def outcome (host : Host) (body : Body) : ActionM (Signal × Cell) := do
  let signal ← body.run host
  return (signal, ← takeResult)

/-- Whether the text of an operand is taken over or made, it is a new text that is left on the
stack. -/
theorem settle_outcome_textOf (cells : List Cell) (s : Store) :
    settle (outcome host .textOf ⟨s, name, cells⟩) = Body.textOf.effect name cells s := by
  cases cells with
  | nil => rfl
  | cons x cells =>
    have htext : ∀ m : StoreM String, settle ((onStore m >>= fun text => do
          pushNative .text text
          return (Signal.normal, ← takeResult)) ⟨s, name, cells⟩) =
        (do return (Signal.normal, ← StoreM.newNative .text (← m)) : StoreM (Signal × Cell)) s :=
      fun m => settle_onStore m _ _ ⟨s, name, cells⟩ fun _ _ => rfl
    simp only [outcome, Body.run, Body.runTextOf, bind_assoc, settle_pop, settle_get]
    refine Eq.trans ?_ (htext (StoreM.ofExcept (Body.textIn s x)))
    -- a text is taken over, everything else is written out
    split
    · rename_i text hvalue
      rw [show Body.textIn s x = .ok text by simp only [Body.textIn, hvalue]]
      rfl
    · rename_i hother
      rw [show Body.textIn s x = s.cellText x by
        unfold Body.textIn
        split
        · exact absurd ‹_› (hother _)
        · rfl]
      simp only [bind_assoc]
      rfl

/-- A constructor takes as many operands as it has names, and leaves the tuple made of them. -/
theorem settle_outcome_construct (names : List (Option String)) (cells : List Cell) (s : Store) :
    settle (outcome host (.construct names) ⟨s, name, cells⟩) =
      (Body.construct names).effect name cells s := by
  simp only [outcome, Body.run, Body.runConstruct, bind_assoc, Body.effect, settle_popMany]
  by_cases hn : names.length ≤ cells.length
  · simp only [hn, if_true]
    have hresult : ∀ m : StoreM Cell, settle ((onStore m >>= fun cell => do
          push cell
          return (Signal.normal, ← takeResult)) ⟨s, name, cells.drop names.length⟩) =
        (do return (Signal.normal, ← m) : StoreM (Signal × Cell)) s :=
      fun m => settle_onStore m _ _ ⟨s, name, cells.drop names.length⟩ fun _ _ => rfl
    refine (hresult _).trans ?_
    simp only [bind_assoc]
  · simp only [hn, if_false]
    rfl

/-- Running a body on a stack has the effect of the body on the operands. -/
theorem settle_outcome (body : Body) (hbody : ∀ label, body ≠ .host label) (cells : List Cell)
    (s : Store) :
    settle (outcome host body ⟨s, name, cells⟩) = body.effect name cells s := by
  -- each body takes what it needs from the stack, works on the store and leaves one cell
  cases body with
  | unary a r type f =>
    cases cells with
    | nil => rfl
    | cons x cells =>
      simp only [outcome, Body.run, Body.runUnary, popNative, ActionM.read, bind_assoc]
      refine settle_onStore (StoreM.read x a) _ _ ⟨s, name, cells⟩ fun u s => ?_
      cases f u <;> rfl
  | binary a b r type f =>
    rcases cells with _ | ⟨y, _ | ⟨x, cells⟩⟩
    · rfl
    · rfl
    · simp only [outcome, Body.run, Body.runBinary, popPair, ActionM.read, bind_assoc]
      refine settle_onStore (StoreM.read x a) _ _ ⟨s, name, cells⟩ fun u s => ?_
      refine settle_onStore (StoreM.read y b) _ _ ⟨s, name, cells⟩ fun v s => ?_
      cases f u v <;> rfl
  | compound a b f =>
    rcases cells with _ | ⟨y, _ | ⟨x, cells⟩⟩
    · rfl
    · rfl
    · simp only [outcome, Body.run, Body.runCompound, popPair, ActionM.read, bind_assoc]
      refine settle_onStore (StoreM.read x a) _ _ ⟨s, name, cells⟩ fun u s => ?_
      refine settle_onStore (StoreM.read y b) _ _ ⟨s, name, cells⟩ fun v s => ?_
      cases f u v with
      | error condition => rfl
      | ok w =>
        simp only [bind_assoc]
        exact settle_onStore (StoreM.write x a w) _ _ ⟨s, name, cells⟩ fun _ _ => rfl
  | assign =>
    rcases cells with _ | ⟨y, _ | ⟨x, cells⟩⟩
    · rfl
    · rfl
    · simp only [outcome, Body.run, Body.runAssign, popPair, bind_assoc]
      exact settle_onStore (Body.assignCell x y) _ _ ⟨s, name, cells⟩ fun _ _ => rfl
  | choose =>
    simp only [outcome, Body.run, Body.runChoose, ActionM.read, bind_assoc, Body.effect]
    rw [settle_popAll]
    cases cells.reverse with
    | nil => rfl
    | cons condition branches =>
      simp only [bind_assoc]
      refine settle_onStore (StoreM.read condition .bool) _ _ ⟨s, name, []⟩ fun truth s => ?_
      unfold Body.pick
      cases (if truth = true then branches[0]? else branches[1]?) <;> rfl
  | typeTest expected =>
    rcases cells with _ | ⟨y, _ | ⟨x, cells⟩⟩
    · rfl
    · rfl
    · simp only [outcome, Body.run, Body.runTypeTest, popPair, ActionM.read, bind_assoc]
      exact settle_onStore (StoreM.read y .type) _ _ ⟨s, name, cells⟩ fun _ _ => rfl
  | returns => cases cells <;> rfl
  | raises =>
    cases cells with
    | nil => rfl
    | cons x cells =>
      simp only [outcome, Body.run, popNative, ActionM.read, bind_assoc]
      exact settle_onStore (StoreM.read x .name) _ _ ⟨s, name, cells⟩ fun _ _ => rfl
  | signal signal => cases cells <;> rfl
  | textOf => exact settle_outcome_textOf cells s
  | length =>
    cases cells with
    | nil => rfl
    | cons x cells =>
      simp only [outcome, Body.run, Body.runLength, bind_assoc]
      exact settle_onStore (StoreM.ofExcept (Body.lengthOf s x)) _ _ ⟨s, name, cells⟩ fun _ _ => rfl
  | typeOf => cases cells <;> rfl
  | construct names => exact settle_outcome_construct names cells s
  | host label => exact absurd rfl (hbody label)

/-- Applying an action is the effect of its body on the operands. -/
theorem apply_eq {action : Action} (hbody : ∀ label, action.body ≠ .host label)
    (operands : List Cell) :
    action.apply host name operands = action.body.effect name operands.reverse := by
  funext s
  have houtcome : settle (outcome host action.body ⟨s, name, operands.reverse⟩) = _ :=
    settle_outcome action.body hbody operands.reverse s
  rw [← houtcome, Action.apply]
  split
  · rename_i r a hrun
    rw [show outcome host action.body ⟨s, name, operands.reverse⟩ = .ok r a from hrun, settle]
  · rename_i e a hrun
    rw [show outcome host action.body ⟨s, name, operands.reverse⟩ = .error e a from hrun, settle]

end Action

end TupleLang
