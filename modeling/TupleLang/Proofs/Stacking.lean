import TupleLang.Proofs.Balance
import TupleLang.Proofs.Linear
import TupleLang.Proofs.Statement

/-!
# Frames on top of others

An operand that is read in a frame of its own is read in the same way on top of a frame that waits
for it (`Frame.alike_step`), provided that what waits there binds less tightly than any operator.
Where the frame of its own has come to its end, the one on top completes the same operators and goes
on with the operand as a whole (`Frame.run_atop`). It may end at a word where parentheses are open
below. The whole then is no expression, for such a word continues an operator that is not waited
for.

That nothing can be read on top that could not be read in a frame of its own takes frames in
balance: otherwise an operator might find an operand below.
-/

namespace TupleLang

open ParseM

namespace ParseM

variable {α β γ δ : Type} {R : α → β → Prop} {Q : γ → δ → Prop}

/-- What follows a parser that gives something begins where that one has ended. -/
theorem bind_of_ok {m : ParseM α} {f : α → ParseM β} {s s' : ParseState} {a : α}
    (h : m s = .ok a s') : (m >>= f) s = f a s' := by
  change EStateM.bind m f s = _
  rw [EStateM.bind, h]

/-- Nothing follows a parser that fails. -/
theorem bind_of_error {m : ParseM α} {f : α → ParseM β} {s s' : ParseState} {e : ParseFailure}
    (h : m s = .error e s') : (m >>= f) s = .error e s' := by
  change EStateM.bind m f s = _
  rw [EStateM.bind, h]

/-- A failure stays one when something is given up after it. -/
theorem exists_holding_error {m : ParseM α} {s s' : ParseState} {e : ParseFailure}
    (nodes : List Node) (h : m s = .error e s') : ∃ t, holding nodes m s = .error e t := by
  refine ⟨{ s' with store := s'.store.releaseNodes nodes }, ?_⟩
  rw [holding, onFailure, h]

/-- The parsers give things that are related, and end in the same state, or they both fail. -/
def Alike (R : α → β → Prop) (m : ParseM α) (m' : ParseM β) : Prop :=
  ∀ s, (∃ a b s', m s = .ok a s' ∧ m' s = .ok b s' ∧ R a b) ∨
    ∃ e e' t t', m s = .error e t ∧ m' s = .error e' t'

namespace Alike

variable {m : ParseM α} {m' : ParseM β}

/-- Where the second parser succeeds, the first one does with a related result. -/
theorem of_ok_right {b : β} {s s' : ParseState} (h : Alike R m m') (hrun : m' s = .ok b s') :
    ∃ a, m s = .ok a s' ∧ R a b := by
  rcases h s with ⟨a, b', t, ha, hb, hR⟩ | ⟨e, e', t, t', -, he⟩
  · cases hrun.symm.trans hb
    exact ⟨a, ha, hR⟩
  · cases hrun.symm.trans he

/-- Related results are alike. -/
protected theorem pure {a : α} {b : β} (h : R a b) : Alike R (pure a) (pure b) :=
  fun s => .inl ⟨a, b, s, rfl, rfl, h⟩

/-- What follows knows what the results have in common. -/
theorem bind_found {P : α → Prop} {f : α → ParseM γ} {f' : β → ParseM δ} (hm : Alike R m m')
    (hP : Finds m P) (hf : ∀ a b, R a b → P a → Alike Q (f a) (f' b)) :
    Alike Q (m >>= f) (m' >>= f') := by
  intro s
  rcases hm s with ⟨a, b, s', ha, hb, hR⟩ | ⟨e, e', t, t', he, he'⟩
  · rw [bind_of_ok ha, bind_of_ok hb]
    exact hf a b hR (hP.of_ok ha) s'
  · exact .inr ⟨e, e', t, t', bind_of_error he, bind_of_error he'⟩

/-- Parsers that are alike may be followed by parsers that are alike. -/
protected theorem bind {f : α → ParseM γ} {f' : β → ParseM δ} (hm : Alike R m m')
    (hf : ∀ a b, R a b → Alike Q (f a) (f' b)) : Alike Q (m >>= f) (m' >>= f') := by
  intro s
  rcases hm s with ⟨a, b, s', ha, hb, hR⟩ | ⟨e, e', t, t', he, he'⟩
  · rw [bind_of_ok ha, bind_of_ok hb]
    exact hf a b hR s'
  · exact .inr ⟨e, e', t, t', bind_of_error he, bind_of_error he'⟩

/-- A parser is like itself. -/
protected theorem refl (m : ParseM α) : Alike Eq m m := by
  intro s
  cases hrun : m s with
  | ok a s' => exact .inl ⟨a, a, s', rfl, rfl, rfl⟩
  | error e s' => exact .inr ⟨e, e, s', s', rfl, rfl⟩

/-- What both begin with does not matter. -/
protected theorem andThen {f : α → ParseM γ} {f' : α → ParseM δ} (m : ParseM α)
    (hf : ∀ a, Alike Q (f a) (f' a)) : Alike Q (m >>= f) (m >>= f') :=
  (Alike.refl m).bind fun a _ hab => hab ▸ hf a

/-- What is given up after a failure does not matter. -/
theorem holding (nodes nodes' : List Node) (hm : Alike R m m') :
    Alike R (ParseM.holding nodes m) (ParseM.holding nodes' m') := by
  intro s
  rcases hm s with ⟨a, b, s', ha, hb, hR⟩ | ⟨e, e', t, t', he, he'⟩
  · exact .inl ⟨a, b, s', holding_eq_ok.mpr ha, holding_eq_ok.mpr hb, hR⟩
  · obtain ⟨u, hu⟩ := exists_holding_error nodes he
    obtain ⟨u', hu'⟩ := exists_holding_error nodes' he'
    exact .inr ⟨e, e', u, u', hu, hu'⟩

/-- Parsers that fail are alike. -/
theorem of_fails (h : ∀ s, ∃ e t, m s = .error e t) (h' : ∀ s, ∃ e t, m' s = .error e t) :
    Alike R m m' := by
  intro s
  obtain ⟨e, t, he⟩ := h s
  obtain ⟨e', t', he'⟩ := h' s
  exact .inr ⟨e, e', t, t', he, he'⟩

/-- Complaints are alike, whatever is held. -/
theorem complain (nodes nodes' : List Node) (message : String) (span : Span) :
    Alike R (ParseM.holding nodes (ParseM.complain message span))
      (ParseM.holding nodes' (ParseM.complain message span)) :=
  of_fails (fun _ => ⟨_, _, rfl⟩) fun _ => ⟨_, _, rfl⟩

end Alike

end ParseM

namespace Frame

variable {scope : TupleId} {below f : Frame} {pending : List Pending}

/-- A frame on top of what another one has. -/
def atop (f below : Frame) : Frame :=
  { operands := f.operands ++ below.operands
    pending := f.pending ++ below.pending
    lastOperand := f.lastOperand
    terminators := below.terminators }

@[simp] theorem lastOperand_atop (f below : Frame) : (f.atop below).lastOperand =
  f.lastOperand := rfl

@[simp] theorem pending_atop (f below : Frame) :
    (f.atop below).pending = f.pending ++ below.pending := rfl

/-- The second frame is the first one on top of `below`, and both end at the same words. -/
structure Atop (below f f' : Frame) : Prop where
  terminators : f.terminators = below.terminators
  eq : f' = f.atop below

/-- What waits in the frame for its last operand binds less tightly than any operator. -/
def Loose (f : Frame) : Prop :=
  ∀ w rest, f.pending = .waiting w :: rest → ∀ op : Operator, w.op.stackPrecedence <
    op.inputPrecedence

/-! ## Completing operators -/

/-- An operator that has its operands above is completed with them. -/
theorem alike_reduce (hf : f.terminators = below.terminators) {w : Waiting}
    (hsupplied : w.Supplied f.operands) :
    Alike (Atop below) (reduce scope f w) (reduce scope (f.atop below) w) := by
  unfold reduce
  refine .andThen _ fun token => ?_
  cases w with
  | single op =>
    have harity : op.arity ≤ f.operands.length := hsupplied
    have htake : (f.atop below).operands.take op.arity = f.operands.take op.arity :=
      List.take_append_of_le_length harity
    have hdrop : (f.atop below).operands.drop op.arity = f.operands.drop op.arity ++
      below.operands :=
      List.drop_append_of_le_length harity
    have hlength : f.operands.length ≤ (f.atop below).operands.length := by simp [atop]
    dsimp only
    rw [if_neg (Nat.not_lt.mpr harity),
      if_neg (Nat.not_lt.mpr (harity.trans hlength)), htake, hdrop]
    refine .bind (.holding _ _ (.refl _)) fun node node' hnode => .pure ⟨hf, ?_⟩
    rw [hnode]
    rfl
  | tail op inner =>
    have hne : f.operands ≠ [] := hsupplied
    obtain ⟨trailing, operands, hoperands⟩ := List.exists_cons_of_ne_nil hne
    dsimp only [atop]
    rw [hoperands]
    refine .bind (.holding _ _ (.refl _)) fun node node' hnode => .pure ⟨hf, ?_⟩
    rw [hnode]
    rfl

section Reduce

variable (hf : f.terminators = below.terminators) (hbalanced : Balanced { f with pending })
  (hlast : f.lastOperand = true)

include hf hbalanced hlast

theorem alike_reduceWhile (hbelow : below.Loose) {precedence : Nat}
    (hprecedence : ∃ op : Operator, op.inputPrecedence ≤ precedence) :
    Alike (Atop below) (reduceWhile scope precedence f pending)
      (reduceWhile scope precedence (f.atop below) (pending ++ below.pending)) := by
  induction pending generalizing f with
  | nil =>
    have hstops : reduceWhile scope precedence (f.atop below) below.pending =
        pure { f.atop below with pending := below.pending } := by
      unfold Loose at hbelow
      cases hpending : below.pending with
      | nil => rfl
      | cons p rest =>
        cases p with
        | opening => rfl
        | waiting w =>
          obtain ⟨op, hop⟩ := hprecedence
          have hlow := hbelow w rest hpending op
          rw [reduceWhile, if_neg (by omega)]
    rw [List.nil_append, hstops]
    exact .pure ⟨hf, rfl⟩
  | cons p rest ih =>
    cases p with
    | opening => exact .pure ⟨hf, rfl⟩
    | waiting w =>
      rw [List.cons_append]
      unfold reduceWhile
      split
      · refine (alike_reduce (f := { f with pending := rest }) hf
          (hbalanced.supplied hlast rfl)).bind_found (finds_reduce hbalanced hlast) ?_
        rintro f' _ ⟨hf', rfl⟩ ⟨hbalanced', hlast', hpending⟩
        exact ih hf' (by rwa [← hpending]) hlast'
      · exact .pure ⟨hf, rfl⟩

theorem alike_closeGroup (hopen : .opening ∈ pending) :
    Alike (Atop below) (closeGroup scope f pending)
      (closeGroup scope (f.atop below) (pending ++ below.pending)) := by
  induction pending generalizing f with
  | nil => cases hopen
  | cons p rest ih =>
    cases p with
    | opening => exact .pure ⟨hf, rfl⟩
    | waiting w =>
      have hrest : .opening ∈ rest := by simpa using hopen
      rw [List.cons_append]
      unfold closeGroup
      refine (alike_reduce (f := { f with pending := rest }) hf
        (hbalanced.supplied hlast rfl)).bind_found (finds_reduce hbalanced hlast) ?_
      rintro f' _ ⟨hf', rfl⟩ ⟨hbalanced', hlast', hpending⟩
      exact ih hf' (by rwa [← hpending]) hlast' hrest

end Reduce

/-- A way to complete the operators of a frame one by one. What the frame says about what is open
does not matter. -/
structure Closes (scope : TupleId) (close : Frame → List Pending → ParseM Frame) : Prop where
  waiting : ∀ f w rest, close f (.waiting w :: rest) =
    reduce scope { f with pending := rest } w >>= fun f => close f rest
  pending : ∀ f pending pending', close { f with pending := pending' } pending = close f pending

theorem closes_closeAll : Closes scope (closeAll scope) where
  waiting _ _ _ := rfl
  pending f pending _ := by
    cases pending with
    | nil => rfl
    | cons p rest => cases p <;> rfl

theorem closes_closeGroup : Closes scope (closeGroup scope) where
  waiting _ _ _ := rfl
  pending f pending _ := by
    cases pending with
    | nil => rfl
    | cons p rest => cases p <;> rfl

/-- Where no parenthesis is open in a frame on top of another one, its operators are completed
first, whether the other one then comes to its end or one of its parentheses is closed. One operand
is left of it. -/
theorem Closes.atop {close : Frame → List Pending → ParseM Frame} (hclose : Closes scope close)
    (hf : f.terminators = below.terminators) (hbalanced : Balanced { f with pending })
    (hlast : f.lastOperand = true) (hopen : .opening ∉ pending) {f' : Frame} {s s' : ParseState}
    (h : close (f.atop below) (pending ++ below.pending) s = .ok f' s') :
    ∃ f₁ s₁ x, closeAll scope f pending s = .ok f₁ s₁ ∧ f₁.operands = [x] ∧
      close (below.pushOperand x) below.pending s₁ = .ok f' s' := by
  induction pending generalizing f s with
  | nil =>
    obtain ⟨x, hx⟩ := List.length_eq_one_iff.mp (by simpa [hlast] using hbalanced.operands)
    refine ⟨_, s, x, rfl, hx, ?_⟩
    have hleft : ({ f.atop below with pending := below.pending } : Frame) =
      below.pushOperand x := by
      rw [pushOperand, Frame.atop, hx, hlast]
      rfl
    rw [← hleft, hclose.pending]
    exact h
  | cons p rest ih =>
    cases p with
    | opening => exact absurd List.mem_cons_self hopen
    | waiting w =>
      rw [List.cons_append, hclose.waiting] at h
      obtain ⟨f₁, s₁, hreduce, hrest⟩ := bind_eq_ok.mp h
      have hsupplied := hbalanced.supplied hlast rfl
      obtain ⟨f₂, hreduce', hf₂, rfl⟩ :=
        (alike_reduce (f := { f with pending := rest }) hf hsupplied).of_ok_right hreduce
      obtain ⟨hbalanced', hlast', hpending⟩ := (finds_reduce hbalanced hlast).of_ok hreduce'
      obtain ⟨f₃, s₃, x, hclosed, hx, hbehind⟩ :=
        ih hf₂ (by rwa [← hpending]) hlast' (by simpa using hopen) hrest
      exact ⟨f₃, s₃, x, (bind_of_ok hreduce').trans hclosed, hx, hbehind⟩

/-- Completing an operator binds it to its operands, and puts what it is bound to in their place. -/
theorem reduce_tail {op : Operator} {inner operands : List Node} {trailing : Node} {f f' : Frame}
    {s s' : ParseState} (hoperands : f.operands = trailing :: operands)
    (h : reduce scope f (.tail op inner) s = .ok f' s') :
    ∃ node, (Draft.ofOperator op (inner ++ [trailing])).bind scope s.cursor.current.span s =
        .ok node s' ∧ f' = { f with operands := node :: operands } := by
  obtain ⟨token, s₁, htoken, h⟩ := bind_eq_ok.mp h
  cases htoken
  dsimp only at h
  rw [hoperands] at h
  obtain ⟨node, s₂, hbind, h⟩ := bind_eq_ok.mp h
  cases h
  exact ⟨node, holding_eq_ok.mp hbind, rfl⟩

/-- Where all operators can be completed, no parenthesis is open. -/
theorem not_mem_of_closeAll {f' : Frame} {s s' : ParseState}
    (h : closeAll scope f pending s = .ok f' s') : .opening ∉ pending := by
  induction pending generalizing f s with
  | nil => exact List.not_mem_nil
  | cons p rest ih =>
    cases p with
    | opening => cases h
    | waiting w =>
      obtain ⟨f₁, s₁, -, hrest⟩ := bind_eq_ok.mp h
      simpa using ih hrest

/-! ## Taking in tokens -/

theorem alike_leftOperand (hbelow : below.Loose) (hf : f.terminators = below.terminators)
    (hbalanced : f.Balanced) {candidates : List Operator} (hcandidates : candidates ≠ [])
    (token : Token) :
    Alike (fun r r' => Atop below r.1 r'.1 ∧ r'.2 = r.2) (leftOperand scope f candidates token)
      (leftOperand scope (f.atop below) candidates token) := by
  have hprecedence : ∃ op : Operator,
      op.inputPrecedence ≤ (candidates.map Operator.inputPrecedence).foldl max 0 := by
    obtain ⟨op, rest, rfl⟩ := List.exists_cons_of_ne_nil hcandidates
    refine ⟨op, ?_⟩
    rw [List.map_cons, List.foldl_cons, List.foldl_max]
    omega
  unfold leftOperand
  rw [lastOperand_atop, pending_atop]
  split
  · rename_i hlast
    refine (alike_reduceWhile hf hbalanced hlast hbelow hprecedence).bind_found
      (finds_reduceWhile _ _ _ hbalanced hlast) ?_
    rintro ⟨operands, pending, last, ts⟩ _ ⟨hf', rfl⟩ ⟨hbalanced', hlast'⟩
    obtain ⟨left, rest, rfl⟩ := hbalanced'.exists_last hlast'
    exact .pure ⟨⟨hf', rfl⟩, rfl⟩
  · exact .pure ⟨⟨hf, rfl⟩, rfl⟩

section Inner

variable {inner : List String → ParseM Node} (hbelow : below.Loose)
  (hf : f.terminators = below.terminators) (hbalanced : f.Balanced)

include hbelow hf hbalanced

theorem alike_resolveSequence {candidates : List Operator} (hcandidates : candidates ≠ [])
    (token : Token) :
    Alike (Atop below) (resolveSequence scope inner f candidates token)
      (resolveSequence scope inner (f.atop below) candidates token) := by
  unfold resolveSequence
  refine .bind (alike_leftOperand hbelow hf hbalanced hcandidates token) ?_
  rintro ⟨f', operands⟩ ⟨_, operands'⟩ ⟨⟨hf', rfl⟩, hoperands⟩
  obtain rfl : operands' = operands := hoperands
  refine .andThen _ fun _ => ?_
  have hwords : (f'.atop below).terminators = f'.terminators := hf'.symm
  dsimp only
  rw [hwords]
  refine .bind (.holding _ _ (.refl _)) ?_
  rintro ⟨op, inners⟩ _ rfl
  exact .pure ⟨hf', rfl⟩

theorem alike_operator (token : Token) :
    Alike (Atop below) (operator scope inner f token)
    (operator scope inner (f.atop below) token) := by
  unfold operator
  rw [lastOperand_atop, pending_atop]
  dsimp only
  by_cases hsequences : Operator.sequencesStarting token.text (!f.lastOperand) = []
  · rw [hsequences, if_neg (by decide), if_neg (by decide)]
    cases hop : Operator.ofSpelling? token.text (!f.lastOperand) with
    | none => exact .complain _ _ _ _
    | some op =>
      have harity := Operator.arity_of_ofSpelling? hop
      refine .andThen _ fun _ => ?_
      split
      · refine .bind (.holding _ _ (.refl _)) ?_
        rintro node _ rfl
        exact .pure ⟨hf, rfl⟩
      · exact .pure ⟨hf, rfl⟩
      · rename_i hzero hone
        have hlast : f.lastOperand = true := by
          cases hlast : f.lastOperand with
          | true => rfl
          | false =>
            rw [hlast, Bool.not_false, if_pos rfl, Nat.le_one_iff_eq_zero_or_eq_one] at harity
            exact (harity.elim hzero hone).elim
        refine .bind (alike_reduceWhile hf hbalanced hlast hbelow ⟨op, le_rfl⟩) ?_
        rintro f' _ ⟨hf', rfl⟩
        exact .pure ⟨hf', rfl⟩
  · have hsome : (!(Operator.sequencesStarting token.text !f.lastOperand).isEmpty) = true := by
      simpa using hsequences
    rw [if_pos hsome, if_pos hsome]
    exact alike_resolveSequence hbelow hf hbalanced hsequences token

/-- Taking in a token is the same on top of a frame that waits for an operand. -/
theorem alike_step (levels : Nat) {token : Token} (hends : f.endsAt token = false) :
    Alike (Atop below) (step scope levels inner f token)
      (step scope levels inner (f.atop below) token) := by
  -- an operand is pushed above, whatever waits below
  have hpush : ∀ m : ParseM Node, Alike (Atop below) (do return f.pushOperand (← m))
      (do return (f.atop below).pushOperand (← m)) := by
    intro m
    refine .bind (.refl m) ?_
    rintro node _ rfl
    exact .pure ⟨hf, rfl⟩
  have hheld : ∀ m : ParseM Node, Alike (Atop below) (do return f.pushOperand (← holding f.held m))
      (do return (f.atop below).pushOperand (← holding (f.atop below).held m)) := by
    intro m
    refine .bind (.holding _ _ (.refl m)) ?_
    rintro node _ rfl
    exact .pure ⟨hf, rfl⟩
  unfold step
  rw [lastOperand_atop, pending_atop]
  cases hkind : token.kind
  case comma => exact .complain _ _ _ _
  case invalid => exact .complain _ _ _ _
  case symbol => exact alike_operator hbelow hf hbalanced token
  case keyword => exact alike_operator hbelow hf hbalanced token
  case rparen =>
    dsimp only
    split
    · exact .complain _ _ _ _
    · -- the parenthesis that is closed is above, or the frame would have ended
      rename_i hlast
      rw [Bool.not_eq_true', Bool.not_eq_false] at hlast
      refine .bind (alike_closeGroup hf hbalanced hlast (opening_mem_of_not_endsAt hends hkind)) ?_
      rintro f' _ ⟨hf', rfl⟩
      exact .andThen _ fun _ => .pure ⟨hf', rfl⟩
  case lparen =>
    dsimp only
    split
    · exact .complain _ _ _ _
    · exact .andThen _ fun _ => .pure ⟨hf, rfl⟩
  case ident =>
    dsimp only
    split
    · exact .complain _ _ _ _
    · refine .andThen (peek 1) fun next => ?_
      split
      · exact hheld _
      · exact .andThen _ fun _ => hpush _
  all_goals
    dsimp only
    split
    · exact .complain _ _ _ _
    · exact hheld _

end Inner

end Frame

/-- The word continues an operator of several tokens behind an operand. -/
def Operator.Continues (word : String) : Prop :=
  ∃ op ∈ sequences, ⟨word, false⟩ ∈ op.sequence.tail

/-- A word that continues an operator does not begin one. -/
theorem Operator.Continues.begins_none {word : String} (h : Continues word) (leading : Bool) :
    sequencesStarting word leading = [] ∧ ofSpelling? word leading = none := by
  have hall : ∀ op ∈ sequences, ∀ sub ∈ op.sequence.tail, sub.leading = false → ∀ leading,
      sequencesStarting sub.text leading = [] ∧ ofSpelling? sub.text leading = none := by decide
  obtain ⟨op, hop, hsub⟩ := h
  exact hall op hop _ hsub rfl leading

namespace Frame

variable {scope : TupleId} {below f : Frame}

/-! ## Coming to the end -/

/-- A frame of its own ends at the token, if it has no open parenthesis. -/
def Stops (words : List String) (token : Token) : Prop :=
  token.kind.endsStatement = true ∨ token.kind = .comma ∨ token.kind = .rparen ∨
    ∃ w ∈ words, token.isWord w = true

theorem stops_of_endsAt {token : Token} (h : f.endsAt token = true) :
    Stops f.terminators token := by
  rw [endsAt, Bool.or_eq_true, Bool.and_eq_true, Bool.or_eq_true, Bool.or_eq_true, beq_iff_eq,
    beq_iff_eq] at h
  rcases h with hend | ⟨-, (hcomma | hrparen) | hword⟩
  · exact .inl hend
  · exact .inr (.inl hcomma)
  · exact .inr (.inr (.inl hrparen))
  · exact .inr (.inr (.inr (List.any_eq_true.mp hword)))

/-- What ends a frame depends on its parentheses and its words only. -/
theorem endsAt_congr {g : Frame} (hopen : g.hasOpen = f.hasOpen)
    (hwords : g.terminators = f.terminators) (token : Token) : g.endsAt token = f.endsAt token := by
  rw [endsAt, endsAt, isTerminator, isTerminator, hopen, hwords]

theorem hasOpen_atop (f below : Frame) : (f.atop below).hasOpen = (f.hasOpen || below.hasOpen) :=
  List.any_append

/-- A frame on top of another one ends only where it would on its own. -/
theorem endsAt_of_atop (hf : f.terminators = below.terminators) {token : Token}
    (h : (f.atop below).endsAt token = true) : f.endsAt token = true := by
  rw [endsAt, hasOpen_atop, Bool.not_or, Bool.and_assoc, Bool.or_eq_true] at h
  rw [endsAt, Bool.or_eq_true]
  refine h.imp_right fun hwords => ?_
  rw [Bool.and_eq_true, Bool.and_eq_true] at hwords
  rw [Bool.and_eq_true, isTerminator, hf]
  exact ⟨hwords.1, hwords.2.2⟩

section Ends

variable {inner : List String → ParseM Node} {levels rounds : Nat} {s s' s'' : ParseState}
  {root : Node}

theorem run_succ (f : Frame) (s : ParseState) : run scope levels inner (rounds + 1) f s =
    (if f.endsAt s.cursor.current then finish scope f
      else step scope levels inner f s.cursor.current >>= run scope levels inner rounds) s := rfl

/-- The one operand of a frame whose operators are completed. -/
def lastRoot (f : Frame) : ParseM Node :=
  match f.operands with
  | root :: rest => do
    changeStore (·.releaseNodes rest.reverse)
    return root
  | [] => complainHere "expected an operand"

/-- At a token where a frame of its own ends, an expression ends too or closes a parenthesis. Either
way it stands behind an operand and first completes the operators on top, whatever the operands are.
-/
theorem run_of_stops (hstops : Stops f.terminators s.cursor.current)
    (hwords : ∀ w ∈ f.terminators, Operator.Continues w)
    (h : run scope levels inner rounds f s = .ok root s'') :
    f.lastOperand = true ∧ ∃ (close : Frame → List Pending → ParseM Frame)
      (behind : Frame → ParseM Node), Closes scope close ∧
        ∀ (g : Frame) (t : ParseState), g.lastOperand = true → g.hasOpen = f.hasOpen →
          g.terminators = f.terminators → t.cursor = s.cursor →
          run scope levels inner rounds g t = (close g g.pending >>= behind) t := by
  cases rounds with
  | zero => cases h
  | succ rounds =>
    rw [run_succ] at h
    -- either the frame ends here, or a group in it is closed
    cases hends : f.endsAt s.cursor.current with
    | true =>
      rw [hends, if_pos rfl, finish] at h
      split at h
      · cases h
      · rename_i hlast
        rw [Bool.not_eq_true', Bool.not_eq_false] at hlast
        refine ⟨hlast, closeAll scope, lastRoot, closes_closeAll, ?_⟩
        intro g t hg hopen hterminators hcursor
        rw [run_succ, hcursor, endsAt_congr hopen hterminators, hends, if_pos rfl]
        exact congrFun (if_neg (by simp [hg])) t
    | false =>
      rw [hends, if_neg Bool.false_ne_true] at h
      obtain ⟨f₁, s₁, hstep, -⟩ := bind_eq_ok.mp h
      unfold step at hstep
      -- of the tokens that end a frame of its own, only a closing parenthesis is taken in
      rcases hstops with hend | hcomma | hrparen | ⟨w, hw, hword⟩
      · rw [endsAt, hend] at hends
        cases hends
      · rw [hcomma] at hstep
        cases hstep
      · rw [hrparen] at hstep
        dsimp only at hstep
        split at hstep
        · cases hstep
        · rename_i hlast
          rw [Bool.not_eq_true', Bool.not_eq_false] at hlast
          let behind (f : Frame) : ParseM Node := do
            advance 1
            run scope levels inner rounds { f with lastOperand := true }
          refine ⟨hlast, closeGroup scope, behind, closes_closeGroup, ?_⟩
          intro g t hg hopen hterminators hcursor
          rw [run_succ, hcursor, endsAt_congr hopen hterminators, hends, if_neg Bool.false_ne_true,
            step, hrparen]
          simp only [hg, Bool.not_true, Bool.false_eq_true, if_false, bind_assoc, pure_bind, behind]
      · -- the word continues an operator that is not waited for
        rw [Token.isWord, Bool.and_eq_true, Bool.or_eq_true, beq_iff_eq, beq_iff_eq,
          beq_iff_eq] at hword
        obtain ⟨hkind, rfl⟩ := hword
        obtain ⟨hsequences, hspelling⟩ := (hwords _ hw).begins_none !f.lastOperand
        have hoperator : operator scope inner f s.cursor.current s = .ok f₁ s₁ := by
          rcases hkind with hkind | hkind <;> rwa [hkind] at hstep
        unfold operator at hoperator
        rw [hsequences, hspelling] at hoperator
        cases hoperator

/-- The operand that is left when all operators are completed is what the frame comes to. -/
theorem finish_of_closeAll {f' : Frame} {x : Node} (hlast : f.lastOperand = true)
    (h : closeAll scope f f.pending s = .ok f' s') (hx : f'.operands = [x]) :
    finish scope f s = .ok x s' := by
  rw [finish, if_neg (by simp [hlast]), bind_of_ok h, hx]
  rfl

variable (hwords : ∀ w ∈ below.terminators, Operator.Continues w)

include hwords

/-- Where something can be read on top of a frame that waits for an operand, that operand can be
read in a frame of its own, and reading goes on as if it had been there as a whole. -/
theorem run_atop (hinner : ∀ terminators, Sober (inner terminators)) (hbelow : below.Loose)
    (hf : f.terminators = below.terminators) (hbalanced : f.Balanced)
    (hatop : run scope levels inner rounds (f.atop below) s = .ok root s'') :
    ∃ rounds₁ x s', run scope levels inner rounds₁ f s = .ok x s' ∧
      Stops below.terminators s'.cursor.current ∧
      ∃ rounds₂, run scope levels inner rounds₂ (below.pushOperand x) s' = .ok root s'' := by
  induction rounds generalizing f s with
  | zero => cases hatop
  | succ rounds ih =>
    cases hends : f.endsAt s.cursor.current with
    | true =>
      have hstops : Stops below.terminators s.cursor.current := hf ▸ stops_of_endsAt hends
      have hopen : .opening ∉ f.pending := by
        intro hmem
        have hopen : f.hasOpen = true := List.any_eq_true.mpr ⟨_, hmem, rfl⟩
        -- only the end of the statement ends a frame with an open parenthesis
        have hend : s.cursor.current.kind.endsStatement = true := by
          simpa [endsAt, hopen] using hends
        rw [run_succ, if_pos (by rw [endsAt, hend, Bool.true_or]), finish] at hatop
        split at hatop
        · cases hatop
        · obtain ⟨f', t, hclose, -⟩ := bind_eq_ok.mp hatop
          exact not_mem_of_closeAll hclose (List.mem_append_left _ hmem)
      have hclosed : f.hasOpen = false := by
        rw [hasOpen, List.any_eq_false]
        intro p hp
        cases p with
        | opening => exact absurd hp hopen
        | waiting w => exact Bool.false_ne_true
      obtain ⟨hlast, close, behind, hcloses, hsame⟩ :=
        run_of_stops (f := f.atop below) hstops hwords hatop
      rw [hsame (f.atop below) s hlast rfl rfl rfl] at hatop
      obtain ⟨f₂, s₂, hclose, hbehind⟩ := bind_eq_ok.mp hatop
      obtain ⟨f₁, s₁, x, hall, hx, hbelowClosed⟩ := hcloses.atop hf hbalanced hlast hopen hclose
      have hfinish := finish_of_closeAll (f := f) hlast hall hx
      have hcursor : s₁.cursor = s.cursor := by
        have hstill : Still (finish scope f) := still_finish f
        have hkept := hstill s
        rwa [hfinish] at hkept
      refine ⟨1, x, s₁, ?_, hcursor ▸ hstops, rounds + 1, ?_⟩
      · rw [run_succ, hends, if_pos rfl, hfinish]
      · rw [hsame (below.pushOperand x) s₁ rfl (by rw [hasOpen_atop, hclosed]; rfl) rfl hcursor]
        exact bind_eq_ok.mpr ⟨f₂, s₂, hbelowClosed, hbehind⟩
    | false =>
      have hgoesOn : (f.atop below).endsAt s.cursor.current = false := by
        rw [← Bool.not_eq_true]
        exact fun hatopEnds => absurd (endsAt_of_atop hf hatopEnds) (by simp [hends])
      rw [run_succ, hgoesOn, if_neg Bool.false_ne_true] at hatop
      obtain ⟨_, s₁, hstep, hatop⟩ := bind_eq_ok.mp hatop
      obtain ⟨f₁, hstep', hf₁, rfl⟩ :=
        (alike_step hbelow hf hbalanced levels hends).of_ok_right hstep
      have hbalanced₁ := (finds_step hinner hbalanced hends levels).of_ok hstep'
      obtain ⟨rounds₁, x, s', hrun, hrest⟩ := ih hf₁ hbalanced₁ hatop
      refine ⟨rounds₁ + 1, x, s', ?_, hrest⟩
      rw [run_succ, hends, if_neg Bool.false_ne_true, bind_of_ok hstep', hrun]

omit hwords in

/-- Behind the last operand of an operator of several tokens, at a token where a frame of its own
ends, the operator is bound before anything else happens. -/
theorem run_await {op : Operator} {nodes : List Node} {x : Node}
    (hwords : ∀ w ∈ f.terminators, Operator.Continues w)
    (hstops : Stops f.terminators s.cursor.current)
    (h : run scope levels inner rounds ((f.await (.tail op nodes)).pushOperand x) s =
    .ok root s'') :
    ∃ node s',
    (Draft.ofOperator op (nodes ++ [x])).bind scope s.cursor.current.span s = .ok node s' ∧
      run scope levels inner rounds (f.pushOperand node) s' = .ok root s'' := by
  obtain ⟨-, close, behind, hcloses, hsame⟩ :=
    run_of_stops (f := (f.await (.tail op nodes)).pushOperand x) hstops hwords h
  rw [hsame _ s rfl rfl rfl rfl] at h
  obtain ⟨f₂, s₂, hclose, hbehind⟩ := bind_eq_ok.mp h
  change close _ (.waiting (.tail op nodes) :: f.pending) s = .ok f₂ s₂ at hclose
  rw [hcloses.waiting] at hclose
  obtain ⟨f₁, s₁, hreduce, hrest⟩ := bind_eq_ok.mp hclose
  obtain ⟨node, hbind, rfl⟩ := reduce_tail rfl hreduce
  have hcursor : s₁.cursor = s.cursor := by
    have hstill : Still (reduce scope { (f.await (.tail op nodes)).pushOperand x with
        pending := f.pending } (.tail op nodes)) := still_reduce _ _
    have hsame := hstill s
    rwa [hreduce] at hsame
  refine ⟨node, s₁, hbind, ?_⟩
  rw [hsame (f.pushOperand node) s₁ rfl rfl rfl hcursor]
  exact bind_eq_ok.mpr ⟨f₂, s₂, hrest, hbehind⟩

end Ends

end Frame

end TupleLang
