import TupleLang.Builtin.Catalogue
import TupleLang.Proofs.Balance
import TupleLang.Proofs.Linear
import TupleLang.Proofs.Precedence
import TupleLang.Proofs.Statement

/-!
# Statements of operands and operators

A statement is *plain* when it is made of literals of one token, identifiers and operators of one
token. Tuples and types, which are written with parentheses, do not occur in it. A frame that reads
such a statement mirrors the machine of `Shunt` step by step: its operands are the left operands of
the operators that wait, and its pending operators are the stack (`Frame.Mirrors`). So the node of a
plain statement shows the one ordered tree whose reading the tokens are
(`operators_bind_by_precedence`).

A relational operator may have been made from the three-way comparison. Such a node shows the
relation of the operands that are compared.
-/

namespace TupleLang

open ParseM

/-! ## Plain tokens -/

namespace Token

/-- Whether the token is an operand by itself. -/
def isOperand (t : Token) : Bool := t.kind.isLiteral || t.kind == .ident

/-- Whether the token spells an operator of one token, in front of an operand or between two. -/
def isOperator (t : Token) : Bool :=
  (t.kind == .symbol || t.kind == .keyword)
    && ((Operator.ofSpelling? t.text false).isSome
      || (Operator.ofSpelling? t.text true).any (·.arity == 1))

/-- Whether the token may stand in a plain statement. -/
def isPlain (t : Token) : Bool := t.isOperand || t.isOperator

end Token

namespace OpItem

/-- Whether the item is an operand. -/
def isOperand {α : Type} : OpItem α → Bool
  | operand _ => true
  | _ => false

/-- The item that a token is, behind an operand or not: what stands before a minus tells which
operator it is. -/
def ofToken? (after : Bool) (t : Token) : Option (OpItem Token) :=
  if t.isOperand then some (.operand t)
  else if after then (Operator.ofSpelling? t.text false).map .binary
  else (Operator.ofSpelling? t.text true).map .unary

/-- The items that tokens are. -/
def ofTokens? : (after : Bool) → List Token → Option (List (OpItem Token))
  | _, [] => some []
  | after, t :: rest =>
    (ofToken? after t).bind fun item => (ofTokens? item.isOperand rest).map (item :: ·)

end OpItem

namespace Operator

/-- An operator of one token that stands in front of its operand. -/
theorem isUnary_of_ofSpelling? {text : String} {op : Operator} (h : ofSpelling? text true = some op)
    (harity : op.arity = 1) : op.isUnary = true := by
  unfold ofSpelling? at h
  rw [if_pos rfl] at h
  split at h <;> cases h <;> first | rfl | cases harity

/-- An operator of one token that stands between its operands. -/
theorem sequence_of_ofSpelling? {text : String} {op : Operator}
    (h : ofSpelling? text false = some op) : op.sequence = [] := by
  unfold ofSpelling? at h
  rw [if_neg Bool.false_ne_true] at h
  split at h <;> cases h <;> rfl

end Operator

namespace Token

/-- A plain operator in front of an operand has one operand. -/
theorem arity_of_isOperator {t : Token} {op : Operator} (ht : t.isOperator = true)
    (h : Operator.ofSpelling? t.text true = some op) : op.arity = 1 := by
  obtain ⟨-, hspelling⟩ := Bool.and_eq_true_iff.mp ht
  rw [h] at hspelling
  generalize t.text = text at h hspelling
  unfold Operator.ofSpelling? at h
  rw [if_pos rfl] at h
  -- `break` and `continue`, which have none, are not spelled like a binary operator
  split at h <;> cases h <;> first | rfl | exact absurd hspelling (by decide)

/-- A plain token neither ends a statement nor separates or groups. -/
theorem kind_of_isPlain {t : Token} (ht : t.isPlain = true) :
    t.kind.endsStatement = false ∧ t.kind ≠ .comma ∧ t.kind ≠ .lparen ∧ t.kind ≠ .rparen := by
  obtain ⟨kind, text, span⟩ := t
  cases kind <;>
    simp [isPlain, isOperand, isOperator, TokenKind.isLiteral, TokenKind.endsStatement] at ht ⊢

/-- No operator of several tokens begins with a plain operator. -/
theorem sequencesStarting_eq_nil {t : Token} (ht : t.isOperator = true) (leading : Bool) :
    Operator.sequencesStarting t.text leading = [] := by
  -- what begins an operator of several tokens is none by itself
  have hall : ∀ op ∈ Operator.sequences, op.sequence.head?.all fun sub =>
      Operator.ofSpelling? sub.text false = none ∧ Operator.ofSpelling? sub.text true = none := by
    decide
  refine List.filter_eq_nil_iff.mpr fun op hop hhead => ?_
  have hnone := hall op hop
  rw [beq_iff_eq.mp hhead] at hnone
  simp only [Option.all_some, decide_eq_true_eq] at hnone
  obtain ⟨-, hspelling⟩ := Bool.and_eq_true_iff.mp ht
  rw [hnone.1, hnone.2] at hspelling
  cases hspelling

end Token

namespace Cursor

variable {c : Cursor}

/-- The tokens of the statement from the cursor on. -/
def statement (c : Cursor) : List Token := c.ahead.takeWhile fun t => !t.kind.endsStatement

/-- At a token that ends the statement there are none. -/
theorem statement_eq_nil (h : c.current.kind.endsStatement = true) : c.statement = [] :=
  List.length_eq_zero_iff.mp (statementRest_eq_zero h)

/-- Another token is the first one of the statement. -/
theorem statement_eq_cons (hc : c.Proper) (h : c.current.kind.endsStatement = false) :
    c.statement = c.current :: (c.advance 1).statement ∧ c.peek 1 = (c.advance 1).current := by
  have heof : c.current.kind ≠ .eof := by
    intro heof
    rw [heof] at h
    cases h
  obtain ⟨hahead, hlt⟩ := ahead_eq_cons hc heof
  have hpos : (c.advance 1).pos = c.pos + 1 := Nat.min_eq_left hlt
  refine ⟨?_, ?_⟩
  · rw [statement, hahead, List.takeWhile_cons_of_pos (by rw [h]; rfl)]
    rfl
  · rw [current, peek, peek, hpos]
    rfl

/-- In a plain statement no parenthesis follows a token. -/
theorem peek_ne_lparen (hc : c.Proper) (hplain : ∀ t ∈ c.statement, t.isPlain = true)
    (h : c.current.kind.endsStatement = false) : (c.peek 1).kind ≠ .lparen := by
  obtain ⟨hstatement, hpeek⟩ := statement_eq_cons hc h
  rw [hpeek]
  -- the next token ends the statement or is another plain one
  cases hends : (c.advance 1).current.kind.endsStatement with
  | true =>
    intro hkind
    rw [hkind] at hends
    cases hends
  | false =>
    have hproper : (c.advance 1).Proper := ⟨Nat.min_le_right _ _, hc.eof⟩
    refine (Token.kind_of_isPlain (hplain _ ?_)).2.2.1
    rw [hstatement, (statement_eq_cons hproper hends).1]
    exact List.mem_cons_of_mem _ List.mem_cons_self

end Cursor

/-! ## Nodes that show a tree -/

namespace Store

variable {s s' s'' : Store}

/-- The second store has the same tuples as the first, and all values of the first. -/
structure Adds (s s' : Store) : Prop where
  arena : s'.arena = s.arena
  heap : s.heap.Grows s'.heap

namespace Adds

/-- A store adds to itself. -/
protected theorem refl (s : Store) : s.Adds s := ⟨rfl, .refl _⟩

/-- Adding twice is adding. -/
protected theorem trans (h : s.Adds s') (h' : s'.Adds s'') : s.Adds s'' :=
  ⟨h'.arena.trans h.arena, h.heap.trans h'.heap⟩

/-- A new cell. -/
theorem make (s : Store) (type : TypeDesc) (v : Value) :
    s.Adds { s with heap := (Cell.make s.heap type v).2 } := ⟨rfl, Cell.grows_make _ type _⟩

/-- Scopes are tuples. -/
theorem chainWithin (h : s.Adds s') (n : Nat) (id : TupleId) :
    s'.chainWithin n id = s.chainWithin n id := by
  induction n generalizing id with
  | zero => rfl
  | succ n ih => simp only [Store.chainWithin, tuple?, h.arena, ih]

/-- Variables are attributes of tuples. -/
theorem variableCell? (h : s.Adds s') (scope : TupleId) (name : String) :
    s'.variableCell? scope name = s.variableCell? scope name := by
  simp only [Store.variableCell?, lookupVariable, scopeChain, h.chainWithin, tuple?, h.arena]

end Adds

end Store

/-- The node shows a tree of tokens. An operand is a literal of its token, a variable of the scope
or else a name; the values of literals are in the heap. An operator is bound to its operands, or is
made from the three-way comparison of them. -/
inductive Node.Shows (base : Store) (scope : TupleId) (h : Heap) : Node → OpTree Token → Prop
  | literal {t : Token} {typed : Literal.Typed} {cell : Cell} :
      Literal.read t false = .ok typed → cell.type = .leaf typed.type →
      cell.Stores h typed.value → Shows base scope h (.literal cell) (.operand t)
  | named {t : Token} {cell : Cell} :
      t.kind = .ident → base.variableCell? scope t.text = some cell →
      Shows base scope h (.value cell (some t.text)) (.operand t)
  | name {t : Token} {cell : Cell} :
      t.kind = .ident → base.variableCell? scope t.text = none → cell.type = .leaf "name" →
      cell.Stores h (.name t.text) → Shows base scope h (.literal cell) (.operand t)
  | unary {b : Binding} {x : Node} {t : OpTree Token} :
      Shows base scope h x t → Shows base scope h (.apply b [x]) (.unary b.op t)
  | binary {b : Binding} {x y : Node} {left right : OpTree Token} :
      Shows base scope h x left → Shows base scope h y right →
      Shows base scope h (.apply b [x, y]) (.binary b.op left right)
  | compared {b c : Binding} {x y : Node} {zero : Cell} {left right : OpTree Token} :
      b.op.isRelational = true → c.op = .cmp → zero.type = .leaf "int" →
      zero.Stores h (.int 0) → Shows base scope h x left → Shows base scope h y right →
      Shows base scope h (.apply b [.apply c [x, y], .literal zero]) (.binary b.op left right)

/-- A growing heap keeps what a node shows. -/
theorem Node.Shows.grows {base : Store} {scope : TupleId} {h h' : Heap} {node : Node}
    {t : OpTree Token} (hshows : node.Shows base scope h t) (hgrows : h.Grows h') :
    node.Shows base scope h' t := by
  induction hshows with
  | literal hread htype hv => exact .literal hread htype (hv.grows hgrows)
  | named hkind hcell => exact .named hkind hcell
  | name hkind hcell htype hv => exact .name hkind hcell htype (hv.grows hgrows)
  | unary _ ih => exact .unary ih
  | binary _ _ ihx ihy => exact .binary ihx ihy
  | compared hrel hcmp htype hv _ _ ihx ihy =>
    exact .compared hrel hcmp htype (hv.grows hgrows) ihx ihy

/-- An operator that is no call is bound with its operands as they are. -/
theorem Draft.bound_ofOperator {op : Operator} (hcall : op ≠ .call) (children : List Node)
    (action : Action) (owner args : TypeDesc) :
    (ofOperator op children).bound action owner args = .apply
      ⟨op, op.actionName, action, action.signature.resolveReturn owner args, []⟩ children := by
  simp only [bound, ofOperator, hcall, false_and, if_false]

/-- Type tests are operators of several tokens. -/
theorem Operator.ne_typeTest_of_sequence {op : Operator} (h : op.sequence = []) :
    ¬(op = .is ∨ op = .isNot) := by
  rintro (rfl | rfl) <;> cases h

/-- An operator that is bound keeps its operands as they are, or they are compared and the result is
set against a new zero. Only type tests look at their operands first. -/
theorem Draft.bind_ofOperator_cases {scope : TupleId} {op : Operator} {children : List Node}
    {span : Span} {node : Node} {s s' : ParseState} (htest : ¬(op = .is ∨ op = .isNot))
    (hcall : op ≠ .call) (hrun : (ofOperator op children).bind scope span s = .ok node s') :
    (∃ b : Binding, b.op = op ∧ node = .apply b children ∧ s' = s) ∨
      op.isRelational = true ∧ ∃ b c : Binding, b.op = op ∧ c.op = .cmp ∧
        node = .apply b [.apply c children,
          .literal (Cell.ofNative s.store.heap .int (0 : Int32)).1] ∧
        s' = { s with store.heap := (Cell.ofNative s.store.heap .int (0 : Int32)).2 } := by
  have hcoerce : (ofOperator op children).coerceTypeOperand scope s =
      .ok (ofOperator op children) s := by
    rw [coerceTypeOperand, ofOperator, if_neg htest]
    rfl
  rw [Draft.bind, bind_eq_ok] at hrun
  obtain ⟨draft, s₁, hdraft, hrun⟩ := hrun
  rw [hcoerce] at hdraft
  cases hdraft
  rw [bind_eq_ok] at hrun
  obtain ⟨store, s₂, hstore, hrun⟩ := hrun
  cases hstore
  generalize Choice.mostSpecific _ = choice at hrun
  cases choice with
  | one action =>
    cases hrun
    rw [bound_ofOperator hcall]
    exact .inl ⟨_, rfl, rfl, rfl⟩
  | ambiguous count =>
    rw [holding_eq_ok] at hrun
    cases hrun
  | nothing =>
    -- without an action of its own, a relational operator may still be made from the comparison
    generalize hcomparison : (if (ofOperator op children).op.isRelational = true then
      s.store.comparison? scope (ofOperator op children) _ _ else none) = comparison at hrun
    cases comparison with
    | none =>
      rw [holding_eq_ok] at hrun
      cases hrun
    | some comparison =>
      cases hrun
      refine .inr ⟨?_, _, _, rfl, rfl, rfl, rfl⟩
      split at hcomparison
      · assumption
      · cases hcomparison

/-! ## Frames that mirror the machine -/

namespace OpEntry

/-- The left operand that a waiting operator already has. -/
def lefts {α : Type} : OpEntry α → List (OpTree α)
  | unary _ => []
  | binary _ left => [left]

/-- The operator is one of one token, with the operands that its place gives it. -/
def Single {α : Type} : OpEntry α → Prop
  | unary op => op.isUnary = true
  | binary op _ => op.arity = 2 ∧ op.sequence = []

variable {e : OpEntry Token}

/-- The operands of a waiting operator are its left operand and the one to come. -/
theorem Single.arity_eq (h : e.Single) : e.op.arity = e.lefts.length + 1 := by
  cases e with
  | unary o => cases o <;> first | rfl | cases h
  | binary o left => exact h.1

/-- A single operator has no sequence. -/
theorem Single.sequence_eq (h : e.Single) : e.op.sequence = [] := by
  cases e with
  | unary o => cases o <;> first | rfl | cases h
  | binary o left => exact h.2

/-- A single operator is no call. -/
theorem Single.ne_call (h : e.Single) : e.op ≠ .call := by
  intro hcall
  have harity := h.arity_eq
  rw [hcall] at harity
  cases harity

/-- Only binary operators are relational. -/
theorem Single.binary_of_isRelational (h : e.Single) (hrel : e.op.isRelational = true) :
    ∃ o left, e = .binary o left := by
  cases e with
  | unary o =>
    have hunary : o.isUnary = true := h
    have hrelational : o.isRelational = true := hrel
    cases o <;> simp [Operator.isUnary, Operator.isRelational] at hunary hrelational
  | binary o left => exact ⟨o, left, rfl⟩

end OpEntry

namespace Frame

variable {base : Store} {scope : TupleId} {f f' : Frame} {stack : List (OpEntry Token)}
  {t : OpTree Token} {s s' : ParseState} {node : Node}

/-- The operands of the frame show the given trees and, behind them, the left operands of the
operators that wait; its pending operators are these. -/
structure Matches (base : Store) (scope : TupleId) (h : Heap) (f : Frame)
    (stack : List (OpEntry Token)) (trees : List (OpTree Token)) : Prop where
  pending : f.pending = stack.map fun e => .waiting (.single e.op)
  operands : List.Forall₂ (Node.Shows base scope h) f.operands
    (trees ++ stack.flatMap OpEntry.lefts)
  single : ∀ e ∈ stack, e.Single

/-- Completing operators of the frame adds values to the store, and moves neither the cursor nor the
end of the frame. -/
structure Continues (f : Frame) (s : ParseState) (f' : Frame) (s' : ParseState) : Prop where
  adds : s.store.Adds s'.store
  cursor : s'.cursor = s.cursor
  terminators : f'.terminators = f.terminators

/-- Going on twice is going on. -/
protected theorem Continues.trans {f₁ : Frame} {s₁ : ParseState} (h : Continues f s f₁ s₁)
    (h' : Continues f₁ s₁ f' s') : Continues f s f' s' :=
  ⟨h.adds.trans h'.adds, h'.cursor.trans h.cursor, h'.terminators.trans h.terminators⟩

/-- A bound operator shows the tree with its operands. -/
theorem shows_bind {e : OpEntry Token} {children : List Node} {span : Span} (he : e.Single)
    (hchildren : List.Forall₂ (Node.Shows base scope s.store.heap) children (e.lefts ++ [t]))
    (hrun : (Draft.ofOperator e.op children).bind scope span s = .ok node s') :
    node.Shows base scope s'.store.heap (e.complete t) ∧ s.store.Adds s'.store ∧
      s'.cursor = s.cursor := by
  rcases Draft.bind_ofOperator_cases (Operator.ne_typeTest_of_sequence he.sequence_eq) he.ne_call
    hrun with
    ⟨b, hb, rfl, rfl⟩ | ⟨hrel, b, c, hb, hc, rfl, rfl⟩
  · refine ⟨?_, .refl _, rfl⟩
    cases e with
    | unary o =>
      obtain _ | ⟨hx, ⟨⟩⟩ := hchildren
      obtain rfl : b.op = o := hb
      exact .unary hx
    | binary o left =>
      obtain _ | ⟨hx, _ | ⟨hy, ⟨⟩⟩⟩ := hchildren
      obtain rfl : b.op = o := hb
      exact .binary hx hy
  · -- a comparison comes with a new zero behind it
    obtain ⟨o, left, rfl⟩ := he.binary_of_isRelational hrel
    obtain _ | ⟨hx, _ | ⟨hy, ⟨⟩⟩⟩ := hchildren
    obtain rfl : b.op = o := hb
    have hadds := Store.Adds.make s.store (.leaf "int") (.int 0)
    exact ⟨.compared hrel hc rfl (Cell.stores_make _ _ _) (hx.grows hadds.heap)
      (hy.grows hadds.heap), hadds, rfl⟩

/-- An operator of one token that is completed is bound to the operands in front. -/
theorem reduce_single_cases {op : Operator} (hrun : reduce scope f (.single op) s = .ok f' s') :
    ∃ node span, (Draft.ofOperator op (f.operands.take op.arity).reverse).bind scope span s =
        .ok node s' ∧ f' = { f with operands := node :: f.operands.drop op.arity } := by
  rw [reduce, bind_eq_ok] at hrun
  obtain ⟨token, s₁, hcurrent, hrun⟩ := hrun
  cases hcurrent
  dsimp only at hrun
  split at hrun
  · -- too few operands
    rw [holding_eq_ok, holding_eq_ok] at hrun
    cases hrun
  · rw [bind_eq_ok] at hrun
    obtain ⟨node, s₂, hbind, hrun⟩ := hrun
    rw [holding_eq_ok] at hbind
    cases hrun
    exact ⟨node, _, hbind, rfl⟩

/-- Completing the innermost operator. -/
theorem Matches.reduce {e : OpEntry Token} {rest : List Pending}
    (hf : f.Matches base scope s.store.heap (e :: stack) [t])
    (hrest : rest = stack.map fun e => .waiting (.single e.op))
    (hrun : Frame.reduce scope { f with pending := rest } (.single e.op) s = .ok f' s') :
    f'.Matches base scope s'.store.heap stack [e.complete t] ∧ Continues f s f' s' := by
  obtain ⟨node, span, hbind, rfl⟩ := reduce_single_cases hrun
  have he := hf.single e List.mem_cons_self
  have hoperands : List.Forall₂ (Node.Shows base scope s.store.heap) f.operands
      ((t :: e.lefts) ++ stack.flatMap OpEntry.lefts) := by simpa using hf.operands
  have harity : (t :: e.lefts).length = e.op.arity := he.arity_eq.symm
  -- the operands of the operator are the first ones, in reverse
  have hchildren := List.forall₂_reverse_iff.mpr (List.forall₂_take_append _ _ _ hoperands)
  have hothers := List.forall₂_drop_append _ _ _ hoperands
  rw [harity] at hchildren hothers
  have hreverse : (t :: e.lefts).reverse = e.lefts ++ [t] := by cases e <;> rfl
  rw [hreverse] at hchildren
  obtain ⟨hshows, hadds, hcursor⟩ := shows_bind he hchildren hbind
  refine ⟨⟨hrest, ?_, fun e' he' => hf.single e' (List.mem_cons_of_mem _ he')⟩,
    ⟨hadds, hcursor, rfl⟩⟩
  exact .cons hshows (hothers.imp fun _ _ h => h.grows hadds.heap)

/-- Completing the operators that bind at least as tightly as `precedence`. -/
theorem Matches.reduceWhile {precedence : Nat}
    (hf : f.Matches base scope s.store.heap stack [t])
    (hrun : Frame.reduceWhile scope precedence f f.pending s = .ok f' s') :
    f'.Matches base scope s'.store.heap (Shunt.settle precedence stack t).1
        [(Shunt.settle precedence stack t).2] ∧ Continues f s f' s' := by
  rw [hf.pending] at hrun
  induction stack generalizing f t s with
  | nil =>
    cases hrun
    exact ⟨⟨rfl, hf.operands, hf.single⟩, .refl _, rfl, rfl⟩
  | cons e stack ih =>
    rw [List.map_cons, Frame.reduceWhile, show (Waiting.single e.op).op = e.op from rfl] at hrun
    rw [Shunt.settle]
    -- frame and machine compare the same precedences
    split at hrun
    · rw [if_pos ‹_›]
      rw [bind_eq_ok] at hrun
      obtain ⟨f₁, s₁, hreduce, hrun⟩ := hrun
      obtain ⟨hf₁, hcontinues₁⟩ := hf.reduce rfl hreduce
      obtain ⟨hf', hcontinues⟩ := ih hf₁ hrun
      exact ⟨hf', hcontinues₁.trans hcontinues⟩
    · rw [if_neg ‹_›]
      cases hrun
      exact ⟨⟨rfl, hf.operands, hf.single⟩, .refl _, rfl, rfl⟩

/-- Completing all operators. -/
theorem Matches.closeAll (hf : f.Matches base scope s.store.heap stack [t])
    (hrun : Frame.closeAll scope f f.pending s = .ok f' s') :
    f'.Matches base scope s'.store.heap [] [Shunt.close stack t] ∧ Continues f s f' s' := by
  rw [hf.pending] at hrun
  induction stack generalizing f t s with
  | nil =>
    cases hrun
    exact ⟨⟨rfl, hf.operands, hf.single⟩, .refl _, rfl, rfl⟩
  | cons e stack ih =>
    rw [List.map_cons, Frame.closeAll, bind_eq_ok] at hrun
    obtain ⟨f₁, s₁, hreduce, hrun⟩ := hrun
    obtain ⟨hf₁, hcontinues₁⟩ := hf.reduce rfl hreduce
    obtain ⟨hf', hcontinues⟩ := ih hf₁ hrun
    exact ⟨hf', hcontinues₁.trans hcontinues⟩

/-- The frame mirrors the machine: it has read the same, and nothing ends it but the end of the
statement. -/
structure Mirrors (base : Store) (scope : TupleId) (f : Frame) (s : ParseState) (m : Shunt Token) :
    Prop where
  adds : base.Adds s.store
  matching : f.Matches base scope s.store.heap m.stack (m.last.toList.map .operand)
  lastOperand : f.lastOperand = m.last.isSome
  terminators : f.terminators = []

variable {m : Shunt Token}

/-- A frame that has come to its end shows what the machine gives. -/
theorem Mirrors.finish (hf : f.Mirrors base scope s m)
    (hrun : Frame.finish scope f s = .ok node s') :
    ∃ t, m.run? [] = some t ∧ node.Shows base scope s'.store.heap t := by
  obtain ⟨stack, last⟩ := m
  rw [Frame.finish] at hrun
  cases last with
  | none =>
    -- an operand is missing, and so the frame does not come to an end
    have hlast : f.lastOperand = false := hf.lastOperand
    rw [if_pos (by rw [hlast]; rfl), holding_eq_ok] at hrun
    cases hrun
  | some a =>
    have hlast : f.lastOperand = true := hf.lastOperand
    rw [if_neg (by rw [hlast]; decide), bind_eq_ok] at hrun
    obtain ⟨f₁, s₁, hclose, hrun⟩ := hrun
    obtain ⟨hf₁, -⟩ := hf.matching.closeAll hclose
    refine ⟨Shunt.close stack (.operand a), rfl, ?_⟩
    -- one operand is left, and there is nothing to give up
    obtain ⟨operands, pending, lastOperand, terminators⟩ := f₁
    obtain ⟨-, _ | ⟨hroot, ⟨⟩⟩, -⟩ := hf₁
    cases hrun
    exact hroot

/-! ## Taking in plain tokens -/

section Step

variable {levels : Nat} {inner : List String → ParseM Node} {token : Token}

/-- Behind the operators that wait comes an operand. -/
theorem Mirrors.pushOperand (hf : f.Mirrors base scope s ⟨stack, none⟩)
    (hadds : s.store.Adds s'.store) (hnode : node.Shows base scope s'.store.heap (.operand token)) :
    (f.pushOperand node).Mirrors base scope s' ⟨stack, some token⟩ := by
  refine ⟨hf.adds.trans hadds, ⟨hf.matching.pending, ?_, hf.matching.single⟩, rfl, hf.terminators⟩
  exact .cons hnode (hf.matching.operands.imp fun _ _ h => h.grows hadds.heap)

/-- Behind an operator that has taken its left operand, if it has one, comes its last operand. -/
theorem Matches.await {e : OpEntry Token} {h : Heap} (hf : f.Matches base scope h stack e.lefts)
    (he : e.Single) : (f.await (.single e.op)).Matches base scope h (e :: stack) [] := by
  refine ⟨?_, by simpa [Frame.await] using hf.operands, ?_⟩
  · rw [List.map_cons, ← hf.pending]
    rfl
  · intro e' he'
    rcases List.mem_cons.mp he' with rfl | he'
    · exact he
    · exact hf.single e' he'

/-- A literal is taken in as an operand, if none stands before it. -/
theorem step_literal_cases (hkind : token.kind.isLiteral = true)
    (hrun : step scope levels inner f token s = .ok f' s') :
    f.lastOperand = false ∧ ∃ cell,
      ValueReader.scalar token false { s with cursor := s.cursor.advance 1 } = .ok cell s' ∧
        f' = f.pushOperand (.literal cell) := by
  have hstep : ∃ message, step scope levels inner f token =
      if f.lastOperand then holding f.held (complain message token.span)
      else do
        let node ← holding f.held (do
          advance 1
          return .literal (← ValueReader.scalar token false))
        return f.pushOperand node := by
    obtain ⟨kind, text, span⟩ := token
    cases kind <;> first | exact ⟨_, rfl⟩ | cases hkind
  obtain ⟨message, hstep⟩ := hstep
  rw [hstep] at hrun
  split at hrun
  · rw [holding_eq_ok] at hrun
    cases hrun
  · rename_i hlast
    simp only [bind_eq_ok, holding_eq_ok] at hrun
    obtain ⟨node, s₁, ⟨_, _, hadvance, cell, _, hcell, hnode⟩, hrun⟩ := hrun
    cases hadvance
    cases hnode
    cases hrun
    exact ⟨Bool.eq_false_iff.mpr hlast, cell, hcell, rfl⟩

/-- An identifier is taken in as an operand, if none stands before it and no parenthesis follows. -/
theorem step_ident_cases (hkind : token.kind = .ident) (hnext : (s.cursor.peek 1).kind ≠ .lparen)
    (hrun : step scope levels inner f token s = .ok f' s') :
    f.lastOperand = false ∧ ∃ node,
      identifier scope token { s with cursor := s.cursor.advance 1 } = .ok node s' ∧
        f' = f.pushOperand node := by
  have hstep : ∃ message, step scope levels inner f token =
      if f.lastOperand then holding f.held (complain message token.span)
      else do
        if (← peek 1).kind == .lparen then
          return f.pushOperand (← holding f.held (call scope inner token))
        else
          advance 1
          return f.pushOperand (← identifier scope token) := by
    obtain ⟨kind, text, span⟩ := token
    cases hkind
    exact ⟨_, rfl⟩
  obtain ⟨message, hstep⟩ := hstep
  rw [hstep] at hrun
  split at hrun
  · rw [holding_eq_ok] at hrun
    cases hrun
  · rename_i hlast
    rw [bind_eq_ok] at hrun
    obtain ⟨next, s₁, hpeek, hrun⟩ := hrun
    cases hpeek
    rw [if_neg (by simpa using hnext)] at hrun
    simp only [bind_eq_ok] at hrun
    obtain ⟨_, _, hadvance, node, _, hnode, hrun⟩ := hrun
    cases hadvance
    cases hrun
    exact ⟨Bool.eq_false_iff.mpr hlast, node, hnode, rfl⟩

/-- An operator of one token waits for its last operand. In front of an operand it is unary; behind
one it is binary, and first completes what binds at least as tightly. -/
theorem step_operator_cases (htoken : token.isOperator = true)
    (hrun : step scope levels inner f token s = .ok f' s') :
    (f.lastOperand = false ∧ ∃ op, Operator.ofSpelling? token.text true = some op ∧ op.arity = 1 ∧
        f' = f.await (.single op) ∧ s' = { s with cursor := s.cursor.advance 1 }) ∨
      f.lastOperand = true ∧ ∃ op, Operator.ofSpelling? token.text false = some op ∧
        op.arity = 2 ∧ ∃ f₁, f' = f₁.await (.single op) ∧
          reduceWhile scope op.inputPrecedence f f.pending
            { s with cursor := s.cursor.advance 1 } = .ok f₁ s' := by
  have hstep : step scope levels inner f token = operator scope inner f token := by
    obtain ⟨hkind, -⟩ := Bool.and_eq_true_iff.mp htoken
    obtain ⟨kind, text, span⟩ := token
    cases kind <;> first | rfl | cases hkind
  rw [hstep, operator, token.sequencesStarting_eq_nil htoken] at hrun
  simp only [List.isEmpty_nil, Bool.not_true, Bool.false_eq_true, if_false] at hrun
  cases hop : Operator.ofSpelling? token.text (!f.lastOperand) with
  | none =>
    rw [hop] at hrun
    dsimp only at hrun
    rw [holding_eq_ok] at hrun
    cases hrun
  | some op =>
    rw [hop] at hrun
    dsimp only at hrun
    rw [bind_eq_ok] at hrun
    obtain ⟨_, s₁, hadvance, hrun⟩ := hrun
    cases hadvance
    -- the place tells how many operands the operator has
    cases hlast : f.lastOperand with
    | false =>
      rw [hlast] at hop
      have harity := token.arity_of_isOperator htoken hop
      rw [harity] at hrun
      cases hrun
      exact .inl ⟨rfl, op, hop, harity, rfl, rfl⟩
    | true =>
      rw [hlast] at hop
      have harity : op.arity = 2 := Operator.arity_of_ofSpelling? hop
      rw [harity] at hrun
      obtain ⟨f₁, s₁, hreduce, hrun⟩ := bind_eq_ok.mp hrun
      cases hrun
      exact .inr ⟨rfl, op, hop, harity, f₁, rfl, hreduce⟩

/-- A literal shows its token. -/
theorem shows_scalar {cell : Cell}
    (hrun : ValueReader.scalar token false s = .ok cell s') :
    (Node.literal cell).Shows base scope s'.store.heap (.operand token) ∧
      s.store.Adds s'.store ∧ s'.cursor = s.cursor := by
  rw [ValueReader.scalar] at hrun
  cases hread : Literal.read token false with
  | ok typed =>
    rw [hread] at hrun
    cases hrun
    exact ⟨.literal hread rfl (Cell.stores_make _ _ _),
      .make s.store (.leaf typed.type) typed.value, rfl⟩
  | error message =>
    rw [hread] at hrun
    cases hrun

/-- An identifier shows its token: the variables are those that were there before the statement. -/
theorem shows_identifier (hkind : token.kind = .ident) (hadds : base.Adds s.store)
    (hrun : identifier scope token s = .ok node s') :
    node.Shows base scope s'.store.heap (.operand token) ∧ s.store.Adds s'.store ∧
      s'.cursor = s.cursor := by
  rw [identifier, bind_eq_ok] at hrun
  obtain ⟨store, s₁, hstore, hrun⟩ := hrun
  cases hstore
  -- what the statement has added so far is no variable
  rw [hadds.variableCell?] at hrun
  cases hcell : base.variableCell? scope token.text with
  | some cell =>
    rw [hcell] at hrun
    cases hrun
    exact ⟨.named hkind hcell, .refl _, rfl⟩
  | none =>
    rw [hcell] at hrun
    cases hrun
    exact ⟨.name hkind hcell rfl (Cell.stores_make _ _ _),
      .make s.store (.leaf "name") (.name token.text), rfl⟩

/-- An operand is taken in, if none stands before it. -/
theorem Mirrors.step_operand (hf : f.Mirrors base scope s m) (htoken : token.isOperand = true)
    (hnext : (s.cursor.peek 1).kind ≠ .lparen)
    (hrun : Frame.step scope levels inner f token s = .ok f' s') :
    ∃ m', m.take? (.operand token) = some m' ∧ m'.last.isSome = true ∧
      m.last = none ∧ f'.Mirrors base scope s' m' ∧ s'.cursor = s.cursor.advance 1 := by
  obtain ⟨hlast, node, rfl, hnode, hadds, hcursor⟩ : f.lastOperand = false ∧ ∃ node,
      f' = f.pushOperand node ∧ node.Shows base scope s'.store.heap (.operand token) ∧
        s.store.Adds s'.store ∧ s'.cursor = s.cursor.advance 1 := by
    rcases Bool.or_eq_true_iff.mp htoken with hkind | hkind
    · obtain ⟨hlast, cell, hscalar, rfl⟩ := step_literal_cases hkind hrun
      exact ⟨hlast, _, rfl, shows_scalar hscalar⟩
    · obtain ⟨hlast, node, hidentifier, rfl⟩ := step_ident_cases (beq_iff_eq.mp hkind) hnext hrun
      exact ⟨hlast, _, rfl, shows_identifier (s := { s with cursor := s.cursor.advance 1 })
        (beq_iff_eq.mp hkind) hf.adds hidentifier⟩
  obtain ⟨stack, last⟩ := m
  obtain rfl : last = none := by
    rw [← Option.not_isSome_iff_eq_none, ← hf.lastOperand, hlast]
    exact Bool.false_ne_true
  exact ⟨_, rfl, rfl, rfl, hf.pushOperand hadds hnode, hcursor⟩

/-- A plain token is taken in as the item that it is. -/
theorem Mirrors.step (hf : f.Mirrors base scope s m) (htoken : token.isPlain = true)
    (hnext : (s.cursor.peek 1).kind ≠ .lparen)
    (hrun : Frame.step scope levels inner f token s = .ok f' s') :
    ∃ item m', OpItem.ofToken? m.last.isSome token = some item ∧ m.take? item = some m' ∧
      m'.last.isSome = item.isOperand ∧ f'.Mirrors base scope s' m' ∧
        s'.cursor = s.cursor.advance 1 := by
  cases hoperand : token.isOperand with
  | true =>
    obtain ⟨m', htake, hlast', -, hf', hcursor⟩ := hf.step_operand hoperand hnext hrun
    refine ⟨.operand token, m', ?_, htake, hlast', hf', hcursor⟩
    rw [OpItem.ofToken?, if_pos hoperand]
  | false =>
    have hoperator : token.isOperator = true := by
      simpa [Token.isPlain, hoperand] using htoken
    obtain ⟨stack, last⟩ := m
    rw [OpItem.ofToken?, if_neg (Bool.eq_false_iff.mp hoperand)]
    rcases step_operator_cases hoperator hrun with
      ⟨hlast, op, hop, harity, rfl, rfl⟩ | ⟨hlast, op, hop, harity, f₁, rfl, hreduce⟩
    · -- in front of an operand it only waits
      obtain rfl : last = none := by
        rw [← Option.not_isSome_iff_eq_none, ← hf.lastOperand, hlast]
        exact Bool.false_ne_true
      have hawait : (f.await (.single op)).Matches base scope s.store.heap
          (.unary op :: stack) [] :=
        hf.matching.await (e := .unary op) (Operator.isUnary_of_ofSpelling? hop harity)
      refine ⟨.unary op, _, ?_, rfl, rfl, ⟨hf.adds, hawait, rfl, hf.terminators⟩, rfl⟩
      rw [hop]
      rfl
    · -- behind an operand it takes what it completes as its left operand
      obtain ⟨a, rfl⟩ : ∃ a, last = some a := by
        rw [← Option.isSome_iff_exists, ← hf.lastOperand, hlast]
      obtain ⟨hf₁, hcontinues⟩ := Matches.reduceWhile (t := .operand a)
        (s := { s with cursor := s.cursor.advance 1 }) hf.matching hreduce
      have hawait := hf₁.await (e := .binary op _)
        ⟨harity, Operator.sequence_of_ofSpelling? hop⟩
      refine ⟨.binary op, _, ?_, rfl, rfl,
        ⟨hf.adds.trans hcontinues.adds, hawait, rfl, ?_⟩, hcontinues.cursor⟩
      · rw [hop]
        rfl
      · exact hcontinues.terminators.trans hf.terminators

/-- Nothing but the end of the statement ends the frame at a plain token. -/
theorem Mirrors.endsAt_eq (hf : f.Mirrors base scope s m)
    (htoken : token.kind.endsStatement = true ∨ token.isPlain = true) :
    f.endsAt token = token.kind.endsStatement := by
  rcases htoken with hends | hplain
  · rw [endsAt, hends, Bool.true_or]
  · obtain ⟨-, hcomma, -, hrparen⟩ := token.kind_of_isPlain hplain
    simp [endsAt, isTerminator, hf.terminators, hcomma, hrparen]

/-- A frame that reads the rest of a plain statement shows what the machine gives for its items. -/
theorem Mirrors.run {rounds : Nat} (hf : f.Mirrors base scope s m) (hcursor : s.cursor.Proper)
    (hplain : ∀ t ∈ s.cursor.statement, t.isPlain = true)
    (hrun : Frame.run scope levels inner rounds f s = .ok node s') :
    ∃ items t, OpItem.ofTokens? m.last.isSome s.cursor.statement = some items ∧
      m.run? items = some t ∧ node.Shows base scope s'.store.heap t := by
  induction rounds generalizing f m s with
  | zero =>
    rw [Frame.run, holding_eq_ok] at hrun
    cases hrun
  | succ rounds ih =>
    rw [Frame.run, bind_eq_ok] at hrun
    obtain ⟨token, s₁, hcurrent, hrun⟩ := hrun
    cases hcurrent
    cases hends : s.cursor.current.kind.endsStatement with
    | true =>
      rw [if_pos ((hf.endsAt_eq (.inl hends)).trans hends)] at hrun
      obtain ⟨t, ht, hshows⟩ := hf.finish hrun
      rw [Cursor.statement_eq_nil hends]
      exact ⟨[], t, rfl, ht, hshows⟩
    | false =>
      obtain ⟨hstatement, -⟩ := Cursor.statement_eq_cons hcursor hends
      rw [hstatement] at hplain ⊢
      have htoken := hplain _ List.mem_cons_self
      rw [if_neg (by rw [hf.endsAt_eq (.inr htoken), hends]; decide), bind_eq_ok] at hrun
      obtain ⟨f₁, s₁, hstep, hrun⟩ := hrun
      have hnext := Cursor.peek_ne_lparen hcursor (hstatement ▸ hplain) hends
      obtain ⟨item, m₁, hitem, htake, hlast, hf₁, hcursor₁⟩ := hf.step htoken hnext hstep
      -- the rest of the statement is read from the frame that the step has left
      obtain ⟨items, t, hitems, ht, hshows⟩ := ih hf₁
        (hcursor₁ ▸ ⟨Nat.min_le_right _ _, hcursor.eof⟩)
        (hcursor₁ ▸ fun t ht => hplain t (List.mem_cons_of_mem _ ht)) hrun
      rw [hcursor₁, hlast] at hitems
      refine ⟨item :: items, t, ?_, ?_, hshows⟩
      · rw [OpItem.ofTokens?, hitem, Option.bind_some, hitems, Option.map_some]
      · rw [Shunt.run?, htake, Option.bind_some, ht]

end Step

end Frame

/-! ## The tree of a statement -/

/-- A statement that parses is what a new frame reads. -/
theorem parseStatement_cases {scope : TupleId} {s s' : ParseState} {node : Node}
    (hrun : parseStatement scope s = .ok node s') :
    ∃ levels inner rounds, Frame.run scope levels inner rounds {} s = .ok node s' := by
  rw [parseStatement, bind_eq_ok] at hrun
  obtain ⟨store, s₁, hstore, hrun⟩ := hrun
  cases hstore
  rw [bind_eq_ok] at hrun
  obtain ⟨root, s₁, hframe, hrun⟩ := hrun
  rw [bind_eq_ok] at hrun
  obtain ⟨token, s₂, hcurrent, hrun⟩ := hrun
  cases hcurrent
  split at hrun
  · cases hrun
    -- without a level to go down to there is no frame
    cases hlevels : s.store.settings.maxDepth with
    | zero =>
      rw [hlevels, parseFrame, onFailure_eq_ok] at hframe
      cases hframe
    | succ levels =>
      rw [hlevels, parseFrame, onFailure_eq_ok, bind_eq_ok] at hframe
      obtain ⟨rounds, s₃, hrounds, hframe⟩ := hframe
      cases hrounds
      exact ⟨_, _, _, hframe⟩
  · rw [onFailure_eq_ok, holding_eq_ok] at hrun
    cases hrun

/-- A plain statement that parses gives the one ordered tree whose reading its tokens are. -/
theorem operators_bind_by_precedence {p p' : Parser} {node : Node} (hp : p.Between p.scope)
    (hcursor : p.cursor.Proper) (hplain : ∀ t ∈ p.cursor.statement, t.isPlain = true)
    (hrun : Parser.statement p = (some node, p')) :
    ∃ items t, OpItem.ofTokens? false p.cursor.statement = some items ∧
      node.Shows p.store p.scope p'.store.heap t ∧ (t.Ordered ∧ t.inorder = items) ∧
        ∀ t' : OpTree Token, t'.Ordered → t'.inorder = items → t' = t := by
  obtain ⟨s', hstatement, rfl⟩ := Parser.of_statement hp hrun
  obtain ⟨levels, inner, rounds, hframe⟩ := parseStatement_cases hstatement
  -- a new frame mirrors the machine at its start
  have hempty : Frame.Mirrors p.store p.scope {} p.plain {} :=
    ⟨.refl _, ⟨rfl, .nil, nofun⟩, rfl, rfl⟩
  obtain ⟨items, t, hitems, ht, hshows⟩ := hempty.run hcursor hplain hframe
  obtain ⟨hordered, hinorder⟩ := Shunt.ordered_of_run? .nil ht
  refine ⟨items, t, hitems, hshows, ⟨hordered, hinorder⟩, fun t' hordered' hinorder' => ?_⟩
  exact hordered'.unique hordered (hinorder'.trans hinorder.symm)

/-- The statement `1 * return 2 + 3`: what is returned is the sum. -/
theorem operators_bind_by_precedence_return :
    let s := (Builtin.arithmetic .int "int" ++ Builtin.control).foldl Store.define (Store.bare {})
    let number (text : String) : Token := ⟨.int, text, {}⟩
    let tokens : List Token := [number "1", ⟨.symbol, "*", {}⟩, ⟨.keyword, "return", {}⟩,
      number "2", ⟨.symbol, "+", {}⟩, number "3"]
    let tree : OpTree Token := .binary .mul (.operand (number "1"))
      (.unary .returns (.binary .add (.operand (number "2")) (.operand (number "3"))))
    let p : Parser := { store := s, scope := s.root, cursor := Cursor.ofTokens tokens }
    ∃ node p', Parser.statement p = (some node, p') ∧
      node.Shows s s.root p'.store.heap tree := by
  intro s number tokens tree p
  have hparses : ((parseStatement s.root).run' ⟨s, Cursor.ofTokens tokens⟩).isSome = true := by
    decide +kernel +zetaReduce
  -- what the actions of the store are does not matter any more
  clear_value s
  have hbetween : p.Between s.root := .start _ _ _
  have hstatement := Parser.statement_run hbetween
  cases hrun : parseStatement s.root ⟨s, Cursor.ofTokens tokens⟩ with
  | error e s' =>
    rw [EStateM.run', EStateM.run, hrun] at hparses
    cases hparses
  | ok node s' =>
    have hread : Parser.statement p = (some node, p.moved s') := by
      rw [show p.plain = ⟨s, Cursor.ofTokens tokens⟩ from rfl, hrun] at hstatement
      exact hstatement
    have hproper : p.cursor.Proper := ⟨Nat.zero_le _, rfl⟩
    have hplain : ∀ t ∈ (Cursor.ofTokens tokens).statement, t.isPlain = true := by
      decide +kernel +zetaReduce
    obtain ⟨items, t, hitems, hshows, -, hunique⟩ :=
      operators_bind_by_precedence hbetween hproper hplain hread
    have hreading : OpItem.ofTokens? false (Cursor.ofTokens tokens).statement =
      some tree.inorder := rfl
    rw [show p.cursor.statement = (Cursor.ofTokens tokens).statement from rfl, hreading] at hitems
    cases hitems
    rw [hunique tree (by decide) rfl]
    exact ⟨node, _, hread, hshows⟩

end TupleLang
