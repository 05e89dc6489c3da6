import TupleLang.Expr
import TupleLang.Proofs.Cursor
import TupleLang.Proofs.Following

/-!
# Statements follow direct ones

A part that works on a frame gives the frame back also where it fails; the direct parser gives it up
at once (`Parser.Takes`). With that, frames are read as the direct parser reads them, and so are
statements, whose errors are then reported.

In a frame out of balance the two would differ, since the direct parser complains where the operands
are used up at the end. None of the frames that are read is out of balance (`Frame.Balanced`).
-/

namespace TupleLang

open ParseM

namespace ParseM

variable {α β : Type} (f g : ParseState → ParseState)

/-- Cleaning up twice after a failure. -/
theorem onFailure_onFailure (m : ParseM α) : onFailure f (onFailure g m) = onFailure (f ∘ g) m := by
  funext s
  unfold onFailure
  cases m s <;> rfl

/-- Cleaning up behind two parsers is cleaning up behind each of them. -/
theorem onFailure_bind (m : ParseM α) (k : α → ParseM β) :
    onFailure f (m >>= k) = onFailure f m >>= fun a => onFailure f (k a) := by
  funext s
  change onFailure f (EStateM.bind m k) s =
    EStateM.bind (onFailure f m) (fun a => onFailure f (k a)) s
  unfold onFailure EStateM.bind
  dsimp only
  cases m s <;> rfl

end ParseM

/-- What is reported of a failure is its diagnostic. -/
theorem ParseFailure.report_diagnostic (e : ParseFailure) {ds : Diagnostics} :
    ds.error e.diagnostic.message e.diagnostic.span = ds.report e.diagnostic := by
  cases e <;> rfl

namespace Parser

variable {α β : Type} {scope : TupleId} {levels errors : Nat}

/-! ## Parts that work on a frame -/

/-- Go on behind the statement if a direct parser fails. -/
abbrev orSkip (m : ParseM α) : ParseM α :=
  onFailure (fun s => { s with cursor := s.cursor.skipStatement }) m

/-- Give up the frame if it did not go well. -/
def orGiveUp (m : StateM Parser (Bool × Frame)) : StateM Parser (Option Frame) := do
  let (done, f) ← m
  if done then return some f
  else
    giveUp f.held
    return none

/-- A frame is given up where the program is not done with it. -/
theorem orGiveUp_run (m : StateM Parser (Bool × Frame)) (p : Parser) :
    orGiveUp m p =
      if (m p).1.1 then (some (m p).1.2, (m p).2)
      else (none, (giveUp (m p).1.2.held (m p).2).2) := by
  change (if (m p).1.1 then _ else _ : StateM Parser (Option Frame)) (m p).2 = _
  split <;> rfl

/-- Behind a part that did not go well, the rest passes the frame on. -/
theorem orGiveUp_bind {m : StateM Parser (Bool × Frame)}
    {k : Bool × Frame → StateM Parser (Bool × Frame)}
    (hfail : ∀ f, k (false, f) = pure (false, f)) :
    orGiveUp (m >>= k) = orGiveUp m >>= fun f => f.elim (pure none) fun f => orGiveUp
    (k (true, f)) := by
  funext p
  change orGiveUp (k (m p).1) (m p).2 =
    (orGiveUp m p).1.elim (pure none) (fun f => orGiveUp (k (true, f))) (orGiveUp m p).2
  rw [orGiveUp_run m p]
  obtain ⟨⟨done, f⟩, p'⟩ := m p
  cases done with
  | true => rfl
  | false =>
    rw [hfail]
    rfl

/-- The parser does with a frame what the direct parser does; behind a failure the frame is yet to
be given up. -/
def Takes (scope : TupleId) (levels errors : Nat) (m : StateM Parser (Bool × Frame))
    (q : ParseM Frame) :
    Prop := Follows scope levels errors (orGiveUp m) q

namespace Takes

variable {m m' : StateM Parser (Bool × Frame)} {q q' : ParseM Frame} {f : Frame}

/-- A frame as it is. -/
protected theorem pure (f : Frame) : Takes scope levels errors (pure (true, f)) (pure f) :=
    Follows.pure f

/-- Either of two parsers. -/
protected theorem ite {c : Prop} [Decidable c] (h : c → Takes scope levels errors m q)
    (h' : ¬c → Takes scope levels errors m' q') :
    Takes scope levels errors (if c then m else m') (if c then q else q') := by
  split
  · exact h ‹_›
  · exact h' ‹_›

/-- Go on behind a parser that cannot fail. -/
theorem after {n : StateM Parser α} {r : ParseM α} {k : α → StateM Parser (Bool × Frame)}
    {g : α → ParseM Frame} (hn : Matches scope levels errors n r)
    (hk : ∀ a, Takes scope levels errors (k a) (g a)) :
    Takes scope levels errors (n >>= k) (r >>= g) := hn.andThen hk

/-- Go on behind a parser that may fail. -/
theorem follow {n : StateM Parser (Option α)} {r : ParseM α}
    {k : Option α → StateM Parser (Bool × Frame)} {g : α → ParseM Frame}
    (hn : Follows scope levels errors n r)
    (hk : ∀ a, Takes scope levels errors (k (some a)) (g a)) (hfail : k none = pure (false, f)) :
    Takes scope levels errors (n >>= k) (holding f.held r >>= g) :=
  Follows.bindHolding (k := fun a => orGiveUp (k a)) hn hk (hfail ▸ cleansUp_giveUp f.held)

/-- An error is noted. -/
theorem fail {n : StateM Parser Unit} {r : ParseM Frame} (hn : Notes n r) :
    Takes scope levels errors (do n; return (false, f)) (holding f.held r) :=
  hn.cleaning (cleansUp_giveUp f.held)

/-- An error is noted, and nothing follows. -/
theorem failBind {n : StateM Parser Unit} {r : ParseM α} (hn : Notes n r) (g : α → ParseM Frame) :
    Takes scope levels errors (do n; return (false, f)) (holding f.held r >>= g) := by
  intro p _
  obtain ⟨e, hr, hrun⟩ := hn p
  have hq : (holding f.held r >>= g) p.plain = EStateM.bind (holding f.held r) g p.plain := rfl
  have hm : orGiveUp (do n; return (false, f)) p = (none, (giveUp f.held (n p).2).2) := rfl
  rw [hq, EStateM.bind, holding, onFailure, hr, hm, hrun]
  rfl

/-- One part after the other. -/
protected theorem bind {k : Bool × Frame → StateM Parser (Bool × Frame)} {g : Frame → ParseM Frame}
    (hm : Takes scope levels errors m q) (hk : ∀ f, Takes scope levels errors (k (true, f)) (g f))
    (hfail : ∀ f, k (false, f) = pure (false, f)) : Takes scope levels errors (m >>= k)
    (q >>= g) := by
  rw [Takes, orGiveUp_bind hfail]
  exact Follows.bind hm hk cleansUp_pure

/-- A part behind which the frame is abandoned if it did not go well. -/
theorem abandoning {Q : Frame → Prop} {k : Bool × Frame → StateM Parser (Option Node)}
    {g : Frame → ParseM Node} (hm : Takes scope levels errors m q) (hq : Finds q Q)
    (hk : ∀ f, Q f → Follows scope levels errors (k (true, f)) (g f))
    (hfail : ∀ f, k (false, f) = abandon f) :
    Follows scope levels errors (m >>= k) (orSkip q >>= g) := by
  -- giving up the frame and going on behind the statement can be told apart
  have hsame : m >>= k = orGiveUp m >>= fun f =>
      f.elim (do skipStatement; return none) fun f => k (true, f) := by
    funext p
    change k (m p).1 (m p).2 =
      (orGiveUp m p).1.elim (do skipStatement; return none) (fun f => k (true, f)) (orGiveUp m p).2
    rw [orGiveUp_run m p]
    obtain ⟨⟨done, f⟩, p'⟩ := m p
    cases done with
    | true => rfl
    | false =>
      rw [hfail]
      rfl
  rw [hsame]
  exact Follows.bindKnowing hm (fun hrun => hq.of_ok hrun) hk fun _ => rfl

/-- Where a part went well, so did the direct parser. -/
theorem of_done {p p' : Parser} (hm : Takes scope levels errors m q) (hp : p.At scope levels errors)
    (hrun : m p = ((true, f), p')) : ∃ s, q p.plain = .ok f s ∧ p' = p.moved s := by
  have hq := hm p hp
  rw [orGiveUp_run, hrun, if_pos rfl] at hq
  cases hres : q p.plain with
  | ok f' s =>
    simp only [hres] at hq
    obtain ⟨hf, hp'⟩ := Prod.mk.inj hq.1
    obtain rfl := Option.some.inj hf
    exact ⟨s, rfl, hp'⟩
  | error e s =>
    simp only [hres] at hq
    cases (Prod.mk.inj hq).1

/-- Where the direct parser gives a frame, the part went well. -/
theorem of_ok {p : Parser} (hm : Takes scope levels errors m q) (hp : p.At scope levels errors)
    {s : ParseState} (hq : q p.plain = .ok f s) :
    m p = ((true, f), p.moved s) ∧ s.store.settings = p.store.settings := by
  have hrun := hm p hp
  rw [hq] at hrun
  obtain ⟨hrun, hsettings⟩ := hrun
  rw [orGiveUp_run] at hrun
  cases hdone : (m p).1.1 with
  | true =>
    rw [hdone, if_pos rfl] at hrun
    obtain ⟨hf, hp'⟩ := Prod.mk.inj hrun
    exact ⟨Prod.ext (Prod.ext hdone (Option.some.inj hf)) hp', hsettings⟩
  | false =>
    rw [hdone, if_neg Bool.false_ne_true] at hrun
    cases (Prod.mk.inj hrun).1

end Takes

/-! ## Completing operators -/

/-- Reducing an operator. -/
theorem takes_reduce (f : Frame) (w : Waiting) :
    Takes scope levels errors (reduce f w) (Frame.reduce scope f w) := by
  refine .after matches_current fun token => ?_
  cases w with
  | single op =>
    refine .ite (fun _ => ?_) fun _ => ?_
    · exact (notes_complain _ _).cleaning fun _ => rfl
    · exact .follow (follows_bindDraft _ _) (fun node => .pure _) rfl
  | tail op inner =>
    cases f.operands with
    | nil =>
      change Takes scope levels errors _
        (holding f.held (holding inner (ParseM.complain _ token.span)))
      rw [holding, holding, onFailure_onFailure]
      exact (notes_complain _ _).cleaning (k := do giveUp inner; giveUp f.held; return none)
        fun _ => rfl
    | cons trailing operands => exact .follow (follows_bindDraft _ _) (fun node => .pure _) rfl

/-- Reducing operators of a precedence. -/
theorem takes_reduceWhile (precedence : Nat) (f : Frame) (pending : List Pending) :
    Takes scope levels errors (reduceWhile precedence f pending)
      (Frame.reduceWhile scope precedence f pending) := by
  induction pending generalizing f with
  | nil => exact .pure _
  | cons p rest ih =>
    cases p with
    | opening => exact .pure _
    | waiting w =>
      unfold reduceWhile Frame.reduceWhile
      exact .ite (fun _ => .bind (takes_reduce _ w) ih fun _ => rfl) fun _ => .pure _

/-- Closing a group. -/
theorem takes_closeGroup (f : Frame) (pending : List Pending) :
    Takes scope levels errors (closeGroup f pending) (Frame.closeGroup scope f pending) := by
  induction pending generalizing f with
  | nil => exact .fail (notes_complainHere _)
  | cons p rest ih =>
    cases p with
    | opening => exact .pure _
    | waiting w => exact .bind (takes_reduce _ w) ih fun _ => rfl

/-- Closing all groups. -/
theorem takes_closeAll (f : Frame) (pending : List Pending) :
    Takes scope levels errors (closeAll f pending) (Frame.closeAll scope f pending) := by
  induction pending generalizing f with
  | nil => exact .pure _
  | cons p rest ih =>
    cases p with
    | opening => exact .fail (notes_complainHere _)
    | waiting w => exact .bind (takes_reduce _ w) ih fun _ => rfl

/-- Finishing a frame in balance. -/
theorem follows_finish {f : Frame} (hf : f.Balanced) :
    Follows scope levels errors (finish f) (orSkip (Frame.finish scope f)) := by
  unfold finish Frame.finish
  cases hlast : f.lastOperand with
  | false =>
    have htrue : (!false) = true := rfl
    rw [if_pos htrue, if_pos htrue, orSkip, holding, onFailure_onFailure]
    exact (notes_complainHere _).cleaning fun _ => rfl
  | true =>
    have hfalse : ¬(!true) = true := nofun
    rw [if_neg hfalse, if_neg hfalse, orSkip, onFailure_bind]
    refine Takes.abandoning (takes_closeAll f f.pending) (Frame.finds_closeAll f f.pending hf hlast)
      (fun f' ⟨hpending, root, hroot⟩ => ?_) fun _ => rfl
    dsimp only
    rw [hroot, if_pos rfl]
    -- one operand is left and nothing is open, so that nothing is given up
    have hheld : Frame.held { f' with operands := [root].tail } = [] := by
      rw [Frame.held, hpending]
      rfl
    rw [hheld]
    exact fun _ _ => ⟨rfl, rfl⟩

/-! ## Operators -/

/-- Choosing the operator of a sequence. -/
theorem follows_chooseSequence (opener : Token) (candidates : List Operator)
    (operands : List Node) :
    Follows scope levels errors (chooseSequence opener candidates operands)
      (Frame.chooseSequence opener candidates operands) := by
  match candidates with
  | [op] => exact .pure _
  | [] | _ :: _ :: _ => exact (notes_complain _ _).cleaning (cleansUp_giveUp operands)

section Inner

variable {inner : List String → StateM Parser (Option Node)} {direct : List String → ParseM Node}
  (hinner : ∀ terminators, Follows scope levels errors (inner terminators) (direct terminators))

include hinner

/-- Reading the parts of a sequence. -/
theorem follows_resolveFrom (terminators : List String) (opener : Token) (steps step : Nat)
    (candidates : List Operator) (operands : List Node) :
    Follows scope levels errors
    (resolveFrom inner terminators opener steps step candidates operands)
      (Frame.resolveFrom direct terminators opener steps step candidates operands) := by
  induction steps generalizing step candidates operands with
  | zero => exact notes_stall.cleaning (cleansUp_giveUp operands)
  | succ steps ih =>
    unfold resolveFrom Frame.resolveFrom
    generalize candidates.partition (fun op => op.sequence.length ≤ step) = parts
    obtain ⟨ended, alive⟩ := parts
    refine .ite (fun _ => follows_chooseSequence _ _ _) fun _ => ?_
    refine matches_current.andThen fun next => ?_
    dsimp only
    cases alive.find? _ with
    | some op => exact (matches_advance 1).andThen fun _ => ih _ _ _
    | none =>
      refine .ite (fun _ => follows_chooseSequence _ _ _) fun _ => ?_
      -- going back takes the cursor to the mark; no error was noted on the way
      refine follows_mark fun start =>
        (hinner _).bindHolding (fun operand => ?_) (cleansUp_giveUp _)
      refine matches_current.andThen fun after => ?_
      refine .ite (fun _ => (matches_advance 1).andThen fun _ => ih _ _ _) fun _ => ?_
      refine .ite (fun _ => ?_) fun _ => ?_
      · refine (matches_giveUp_singleton _).andThen fun _ => ?_
        exact (matches_rewind start).andThen fun _ => follows_chooseSequence _ _ _
      · exact (notes_complain _ _).cleaning (cleansUp_giveUp _)

/-- Behind its left operand, if there is one, an operator of several tokens waits for its last
operand. -/
theorem takes_behindLeft (candidates : List Operator) (token : Token) (f : Frame)
    (operands : List Node) : Takes scope levels errors
      (do
        advance 1
        let some (op, operands) ← resolveFrom inner f.terminators token 4 1 candidates operands
          | return (false, f)
        return (true, f.await (.tail op operands)))
      (do
        ParseM.advance 1
        let (op, operands) ←
          holding f.held (Frame.resolveFrom direct f.terminators token 4 1 candidates operands)
        return f.await (.tail op operands)) := by
  refine .after (matches_advance 1) fun _ => ?_
  exact .follow (follows_resolveFrom hinner _ _ _ _ _ _) (fun _ => .pure _) rfl

/-- Resolving a sequence: the trial is undone in the same way. -/
theorem takes_resolveSequence (f : Frame) (candidates : List Operator) (token : Token) :
    Takes scope levels errors (resolveSequence inner f candidates token)
      (Frame.resolveSequence scope direct f candidates token) := by
  unfold resolveSequence Frame.resolveSequence leftOperand Frame.leftOperand
  cases f.lastOperand with
  | false => exact takes_behindLeft hinner candidates token f []
  | true =>
    rw [if_pos rfl, if_pos rfl]
    dsimp only
    rw [bind_assoc, bind_assoc]
    refine .bind (takes_reduceWhile _ f f.pending) (fun f => ?_) fun _ => rfl
    dsimp only
    rw [if_pos rfl]
    cases hoperands : f.operands with
    | cons left operands => exact takes_behindLeft hinner candidates token _ [left]
    | nil => exact .failBind (notes_complain _ _) _

/-- Reading an operator. -/
theorem takes_operator (f : Frame) (token : Token) :
    Takes scope levels errors (operator inner f token) (Frame.operator scope direct f token) := by
  unfold operator Frame.operator
  refine .ite (fun _ => takes_resolveSequence hinner f _ token) fun _ => ?_
  cases Operator.ofSpelling? token.text !f.lastOperand with
  | none => exact .fail (notes_complain _ _)
  | some op =>
    refine .after (matches_advance 1) fun _ => ?_
    match op.arity with
    | 0 => exact .follow (follows_bindDraft _ _) (fun node => .pure _) rfl
    | 1 => exact .pure _
    | _ + 2 => exact .bind (takes_reduceWhile _ f f.pending) (fun f => .pure _) fun _ => rfl

/-! ## Operands -/

/-- Reading arguments. -/
theorem follows_callArgs (callee : Token) (rounds : Nat) (args : List Node)
    (names : List (Option String)) :
    Follows scope levels errors (callArgs inner callee rounds args names)
      (Frame.callArgs direct callee rounds args names) := by
  induction rounds generalizing args names with
  | zero => exact notes_stall.cleaning (cleansUp_giveUp args)
  | succ rounds ih =>
    unfold callArgs Frame.callArgs
    refine matches_fieldName.andThen fun name => ?_
    refine (hinner []).bindHolding (fun arg => ?_) (cleansUp_giveUp args)
    refine matches_current.andThen fun token => ?_
    cases token.kind with
    | comma => exact (matches_advance 1).andThen fun _ => ih _ _
    | rparen => exact (matches_advance 1).andThen fun _ => .pure _
    | _ => exact (notes_complainHere _).cleaning (cleansUp_giveUp _)

/-- Reading a call. -/
theorem follows_call (callee : Token) :
    Follows scope levels errors (call inner callee) (Frame.call scope direct callee) := by
  unfold call Frame.call
  refine (matches_advance 2).andThen fun _ => matches_current.andThen fun token => ?_
  refine .ite (fun _ => ?_) fun _ => ?_
  · refine (matches_advance 1).andThen fun _ => ?_
    exact (Follows.pure ([], [])).bind (fun _ => follows_bindDraft _ _) cleansUp_pure
  · refine matches_rounds.andThen fun rounds => ?_
    exact (follows_callArgs hinner callee rounds [] []).bind (fun _ => follows_bindDraft _ _)
      cleansUp_pure

omit hinner in

/-- Reading an identifier. -/
theorem matches_identifier (token : Token) :
    Matches scope levels errors (identifier token) (Frame.identifier scope token) := by
  refine matches_get fun p hp => ?_
  rw [hp]
  cases p.store.variableCell? scope token.text with
  | some cell => exact .pure _
  | none => exact (matches_newCell _).next fun cell => .pure _

omit hinner in

/-- Reading an operand. -/
theorem follows_operand (token : Token) :
    Follows scope levels errors (operand (levels + 1) token)
    (Frame.operand scope levels token) := by
  unfold operand Frame.operand
  cases token.kind with
  | dynamicOpen | dataOpen => exact (notes_complain _ _).follows
  | plainOpen | typeOpen => exact (follows_read levels).bind (fun cell => .pure _) cleansUp_pure
  | _ =>
    refine .ite (fun _ => (matches_advance 1).andThen fun _ => ?_) fun _ =>
      (notes_complain _ _).follows
    exact (follows_scalar token false).bind (fun cell => .pure _) cleansUp_pure

/-! ## Frames -/

/-- A step of a frame. -/
theorem takes_step (f : Frame) (token : Token) :
    Takes scope levels errors (step (levels + 1) inner f token)
      (Frame.step scope levels direct f token) := by
  unfold step Frame.step
  cases token.kind with
  | comma => exact .fail (notes_complain _ _)
  | rparen =>
    refine .ite (fun _ => .fail (notes_complain _ _)) fun _ => ?_
    refine .bind (takes_closeGroup f f.pending) (fun f => ?_) fun _ => rfl
    exact .after (matches_advance 1) fun _ => .pure _
  | lparen =>
    refine .ite (fun _ => .fail (notes_complain _ _)) fun _ => ?_
    exact .after (matches_advance 1) fun _ => .pure _
  | symbol | keyword => exact takes_operator hinner f token
  | invalid => exact .fail (notes_complain _ _)
  | _ =>
    refine .ite (fun _ => .fail (notes_complain _ _)) fun _ => .ite (fun _ => ?_) fun _ => ?_
    · refine .after (matches_peek 1) fun next => .ite (fun _ => ?_) fun _ => ?_
      · exact .follow (follows_call hinner token) (fun node => .pure _) rfl
      · refine .after (matches_advance 1) fun _ => ?_
        exact .after (matches_identifier token) fun node => .pure _
    · exact .follow (follows_operand token) (fun node => .pure _) rfl

/-- A frame is read as the direct parser reads it; behind a failure the statement is skipped. -/
theorem follows_run (hsober : ∀ terminators, Sober (direct terminators)) (rounds : Nat) (f : Frame)
    (hf : f.Balanced) :
    Follows scope levels errors (run (levels + 1) inner rounds f)
      (orSkip (Frame.run scope levels direct rounds f)) := by
  induction rounds generalizing f with
  | zero =>
    change Follows scope levels errors _ (orSkip (holding f.held (throw .stalled)))
    rw [orSkip, holding, onFailure_onFailure]
    exact notes_stall.cleaning fun _ => rfl
  | succ rounds ih =>
    unfold run Frame.run
    rw [orSkip, onFailure_bind]
    refine matches_current.onFailure.andThen fun token => ?_
    cases hends : f.endsAt token with
    | true => exact follows_finish hf
    | false =>
      rw [if_neg Bool.false_ne_true, if_neg Bool.false_ne_true, onFailure_bind]
      exact Takes.abandoning (takes_step hinner f token)
        (Frame.finds_step hsober hf hends levels) ih fun _ => rfl

end Inner

/-- An expression is read as the direct parser reads it. -/
theorem follows_parseFrame (levels : Nat) (terminators : List String) :
    Follows scope levels errors (parseFrame (levels + 1) terminators)
      (TupleLang.parseFrame scope levels terminators) := by
  induction levels generalizing terminators with
  | zero => exact follows_deeper_zero fun p => ⟨_, _, rfl, rfl⟩
  | succ levels ih =>
    refine follows_deeper ?_
    unfold TupleLang.parseFrame
    rw [onFailure_bind]
    refine matches_rounds.onFailure.andThen fun rounds => ?_
    exact follows_run ih (sober_parseFrame scope levels) rounds _ (.start terminators)

/-! ## Statements -/

/-- The parser stands between two statements. -/
structure Between (scope : TupleId) (p : Parser) : Prop where
  scope : p.scope = scope
  depth : p.depth = 0
  pending : p.pending = []

/-- Between two statements no levels are open and no errors are noted. -/
theorem Between.at {p : Parser} (hp : p.Between scope) : p.At scope p.store.settings.maxDepth 0 :=
  ⟨hp.scope, by rw [levelsLeft, hp.depth, Nat.sub_zero], by rw [hp.pending]; rfl⟩

/-- A parser between statements stays so with another store and cursor. -/
theorem Between.moved {p : Parser} (hp : p.Between scope) (s : ParseState) :
    (p.moved s).Between scope := ⟨hp.scope, hp.depth, hp.pending⟩

/-- The parser when it has reported a failure. -/
def reported (p : Parser) (e : ParseFailure) : Parser :=
  { p with
    sink := p.sink.error e.diagnostic.message e.diagnostic.span
    errors := p.errors ++ [e.diagnostic.message] }

/-- It stays so with a failure in the sink. -/
theorem Between.reported {p : Parser} (hp : p.Between scope) (e : ParseFailure) :
    (p.reported e).Between scope := ⟨hp.scope, hp.depth, hp.pending⟩

/-- Nothing is reported where nothing is noted. -/
theorem flush_of_nil {p : Parser} (hp : p.pending = []) : flush p = ((), p) := by
  obtain ⟨store, scope, cursor, sink, pending, errors, depth⟩ := p
  obtain rfl : pending = [] := hp
  change ((), { store, scope, cursor, sink, errors := errors ++ [], depth : Parser }) = _
  rw [List.append_nil]

/-- The only error noted is reported. -/
theorem flush_noted {p : Parser} (hp : p.pending = []) (e : ParseFailure) :
    flush (p.noted e) = ((), p.reported e) := by
  obtain ⟨store, scope, cursor, sink, pending, errors, depth⟩ := p
  obtain rfl : pending = [] := hp
  rfl

/-- Behind a failure the statement has been skipped. -/
theorem skipStatement_of_parseFrame {terminators : List String} {s s' : ParseState}
    {e : ParseFailure}
    (hrun : TupleLang.parseFrame scope levels terminators s = .error e s') :
    s'.cursor.skipStatement = s'.cursor := by
  -- a frame that fails has gone to the end of the statement itself
  have hskip : ∀ {m : ParseM Node}, orSkip m s = .error e s' →
      s'.cursor.skipStatement = s'.cursor := by
    intro m hm
    unfold orSkip onFailure at hm
    cases hres : m s with
    | ok a t => simp [hres] at hm
    | error e t =>
      rw [hres] at hm
      cases hm
      exact t.cursor.skipStatement_skipStatement
  cases levels with
  | zero => exact hskip hrun
  | succ levels => exact hskip hrun

/-- Without errors the statement gives its node. -/
theorem settle_some {p : Parser} (hp : p.pending = []) (node : Node) :
    settle (some node) p = (some node, p) := by
  have hrun : settle (some node) p = (if !p.pending.isEmpty then
      (do giveUp [node]; return none) else return some node : StateM Parser (Option Node))
        (flush p).2 := rfl
  rw [hrun, flush_of_nil hp, hp]
  rfl

/-- With an error the node is given up. -/
theorem settle_noted {p : Parser} (hp : p.pending = []) (e : ParseFailure) (node : Node) :
    settle (some node) (p.noted e) = (none, (giveUp [node] (p.reported e)).2) := by
  have hrun : settle (some node) (p.noted e) = (if !(p.noted e).pending.isEmpty then
      (do giveUp [node]; return none) else return some node : StateM Parser (Option Node))
        (flush (p.noted e)).2 := rfl
  have hnoted : (p.noted e).pending = [(e.diagnostic.message, e.diagnostic.span)] := by
    rw [noted, hp]
    rfl
  rw [hrun, flush_noted hp, hnoted]
  rfl

/-- Where a statement has been skipped, it is at its end. -/
theorem expectEnd_skipped {p : Parser} (hp : p.cursor.skipStatement = p.cursor) :
    expectEnd false p = ((), p) := by
  change (if !p.cursor.current.kind.endsStatement then _ else _ : StateM Parser Unit) p = _
  split
  · change ((), { p with cursor := p.cursor.skipStatement }) = _
    rw [hp]
  · rfl

/-- The complaint about what stands behind an expression. -/
def behindExpression (token : Token) : ParseFailure :=
  .complaint s!"unexpected `{token.text}` after expression" token.span

/-- A statement is a frame with the end of the statement behind it. -/
theorem parseStatement_run (scope : TupleId) (s : ParseState) :
    parseStatement scope s =
      match TupleLang.parseFrame scope s.store.settings.maxDepth [] s with
      | .ok node s =>
        if s.cursor.current.kind.endsStatement then .ok node s
        else .error (behindExpression s.cursor.current)
          { store := s.store.releaseNodes [node], cursor := s.cursor.skipStatement }
      | .error e s => .error e s := by
  have hbind : parseStatement scope s =
      EStateM.bind (TupleLang.parseFrame scope s.store.settings.maxDepth []) (fun node => do
        let token ← ParseM.current
        if token.kind.endsStatement then return node
        orSkip (holding [node] (ParseM.complain s!"unexpected `{token.text}` after expression"
          token.span))) s := rfl
  rw [hbind, EStateM.bind]
  cases TupleLang.parseFrame scope s.store.settings.maxDepth [] s with
  | error e s => rfl
  | ok node s =>
    change (if s.cursor.current.kind.endsStatement then _ else _ : ParseM Node) s = _
    dsimp only
    split <;> rfl

/-- A statement is read as the direct parser reads it, and its failure is reported. -/
theorem statement_run {p : Parser} (hp : p.Between scope) :
    match parseStatement scope p.plain with
    | .ok node s => statement p = (some node, p.moved s)
    | .error e s => statement p = (none, (p.moved s).reported e) := by
  have hframe := follows_parseFrame p.store.settings.maxDepth [] p hp.at
  have hrun : statement p =
      let frame := parseFrame (p.store.settings.maxDepth + 1) [] p
      settle frame.1 (expectEnd frame.1.isSome frame.2).2 := rfl
  have hsettings : p.plain.store.settings = p.store.settings := rfl
  rw [hrun, parseStatement_run, hsettings]
  cases hres : TupleLang.parseFrame scope p.store.settings.maxDepth [] p.plain with
  | error e s =>
    simp only [hres] at hframe ⊢
    -- behind a frame that failed there is nothing left to skip
    have hskipped : ((p.moved s).noted e).cursor.skipStatement = ((p.moved s).noted e).cursor :=
      skipStatement_of_parseFrame hres
    have hsettle : ∀ q, settle none q = (none, (flush q).2) := fun _ => rfl
    rw [hframe]
    dsimp only [Option.isSome_none]
    rw [expectEnd_skipped hskipped, hsettle, flush_noted (hp.moved s).pending]
  | ok node s =>
    simp only [hres] at hframe ⊢
    -- behind an expression the rest of the statement is a complaint of its own
    have hexpect : expectEnd true (p.moved s) =
        if s.cursor.current.kind.endsStatement then ((), p.moved s)
        else ((), (p.moved { s with cursor := s.cursor.skipStatement }).noted
          (behindExpression s.cursor.current)) := by
      change (if !s.cursor.current.kind.endsStatement then _ else _ : StateM Parser Unit)
        (p.moved s) = _
      cases s.cursor.current.kind.endsStatement <;> rfl
    rw [hframe.1]
    dsimp only [Option.isSome_some]
    rw [hexpect]
    cases s.cursor.current.kind.endsStatement with
    | true => exact settle_some (hp.moved s).pending node
    | false => exact settle_noted (hp.moved _).pending _ node

/-- A statement that is read is one that the direct parser reads. -/
theorem of_statement {p p' : Parser} {node : Node} (hp : p.Between scope)
    (hrun : statement p = (some node, p')) :
    ∃ s, parseStatement scope p.plain = .ok node s ∧ p' = p.moved s := by
  have hstatement := statement_run hp
  cases hres : parseStatement scope p.plain with
  | ok node' s =>
    simp only [hres, hrun] at hstatement
    obtain ⟨hnode, hp'⟩ := Prod.mk.inj hstatement
    obtain rfl := Option.some.inj hnode
    exact ⟨s, rfl, hp'⟩
  | error e s =>
    simp only [hres, hrun] at hstatement
    cases (Prod.mk.inj hstatement).1

/-- One round of reading statements. -/
theorem statements_succ (rounds : Nat) (roots : List Node) (p : Parser) :
    statements (rounds + 1) roots p =
      if p.cursor.atEnd then (roots, p)
      else if p.cursor.current.kind == .semicolon then
        statements rounds roots { p with cursor := p.cursor.advance 1 }
      else
        let (root, p) := statement p
        statements rounds (roots ++ root.toList) p := by
  change (if p.cursor.atEnd then _ else _ : StateM Parser (List Node)) p = _
  split
  · rfl
  · split <;> rfl

/-- The parser when statements have been read and their diagnostics have been reported. -/
def tallied (p : Parser) (parsed : Parsed (List Node)) : Parser :=
  { p with
    store := parsed.store
    cursor := parsed.cursor
    sink := ⟨p.sink.items ++ parsed.diagnostics⟩
    errors := p.errors ++ parsed.diagnostics.map (·.message) }

/-- A failure that is reported comes before the diagnostics behind it. -/
theorem tallied_reported (p : Parser) (e : ParseFailure) (parsed : Parsed (List Node)) :
    (p.reported e).tallied parsed =
      p.tallied { parsed with diagnostics := e.diagnostic :: parsed.diagnostics } := by
  simp only [tallied, reported, e.report_diagnostic, Diagnostics.report, List.append_assoc,
    List.singleton_append, List.map_cons]

/-- The statements are read as the direct parser reads them, and all failures are reported. -/
theorem statements_run (rounds : Nat) (roots : List Node) {p : Parser} (hp : p.Between scope) :
    let parsed := parseStatements scope rounds p.plain
    let run := statements rounds roots p
    run.1 = roots ++ parsed.result ∧ flush run.2 = ((), p.tallied parsed) := by
  -- nothing is pending between statements
  have hnothing : ∀ {p : Parser}, p.pending = [] → flush p = ((), p.tallied
      { result := [], diagnostics := [], store := p.store, cursor := p.cursor }) := by
    intro p hp
    rw [flush_of_nil hp, tallied, List.append_nil, List.map_nil, List.append_nil]
  induction rounds generalizing roots p with
  | zero => exact ⟨(List.append_nil roots).symm, flush_noted hp.pending .stalled⟩
  | succ rounds ih =>
    intro parsed run
    -- one round of the direct parser
    have hparsed : parsed = if p.cursor.atEnd then
        { result := [], diagnostics := [], store := p.store, cursor := p.cursor }
      else if p.cursor.current.kind == .semicolon then
        parseStatements scope rounds { p.plain with cursor := p.cursor.advance 1 }
      else
        match parseStatement scope p.plain with
        | .ok node s =>
          let rest := parseStatements scope rounds s
          { rest with result := node :: rest.result }
        | .error e s =>
          let rest := parseStatements scope rounds s
          { rest with diagnostics := e.diagnostic :: rest.diagnostics } := rfl
    rw [hparsed, show run = _ from statements_succ rounds roots p]
    split
    · exact ⟨(List.append_nil roots).symm, hnothing hp.pending⟩
    · split
      · exact ih roots (hp.moved { p.plain with cursor := p.cursor.advance 1 })
      · have hstatement := statement_run hp
        cases hres : parseStatement scope p.plain with
        | ok node s =>
          simp only [hres] at hstatement ⊢
          rw [hstatement]
          obtain ⟨hroots, hflush⟩ := ih (roots ++ [node]) (hp.moved s)
          exact ⟨hroots.trans (List.append_assoc roots [node] _), hflush⟩
        | error e s =>
          simp only [hres] at hstatement ⊢
          rw [hstatement]
          dsimp only [Option.toList_none]
          obtain ⟨hroots, hflush⟩ := ih (roots ++ []) ((hp.moved s).reported e)
          rw [tallied_reported] at hflush
          exact ⟨hroots.trans (congrArg (· ++ _) (List.append_nil roots)), hflush⟩

/-- A parser that has not begun. -/
theorem Between.start (store : Store) (scope : TupleId) (cursor : Cursor) :
    Between scope { store, scope, cursor } := ⟨rfl, rfl, rfl⟩

end Parser

/-! ## Values and expressions -/

/-- A value is read, and then all errors have been reported. -/
theorem parseValue_run (store : Store) (scope : TupleId) (cursor : Cursor) :
    parseValue store scope cursor =
      let run := Parser.read (store.settings.maxDepth + 1) { store, scope, cursor }
      let p := (Parser.flush run.2).2
      match run.1 with
      | some cell =>
        if p.errors.isEmpty then
          { result := some cell, diagnostics := p.sink.items, store := p.store, cursor := p.cursor }
        else
          { result := none
            diagnostics := p.sink.items
            store := p.store.release cell
            cursor := p.cursor }
      | none =>
        { result := none, diagnostics := p.sink.items, store := p.store, cursor := p.cursor } := rfl

/-- A value is read as the direct parser reads it. -/
theorem parseValue_eq (store : Store) (scope : TupleId) (cursor : Cursor) :
    parseValue store scope cursor =
      match ValueReader.read scope store.settings.maxDepth { store, cursor } with
      | .ok cell s =>
        { result := some cell, diagnostics := [], store := s.store, cursor := s.cursor }
      | .error e s =>
        { result := none, diagnostics := [e.diagnostic],
          store := s.store, cursor := s.cursor } := by
  have hstart := Parser.Between.start store scope cursor
  have hread := Parser.follows_read store.settings.maxDepth _ hstart.at
  rw [parseValue_run]
  have hplain : Parser.plain { store, scope, cursor } = { store, cursor } := rfl
  rw [hplain] at hread
  cases hres : ValueReader.read scope store.settings.maxDepth { store, cursor } with
  | ok cell s =>
    simp only [hres] at hread
    rw [hread.1]
    dsimp only
    rw [Parser.flush_of_nil (hstart.moved s).pending]
    rfl
  | error e s =>
    simp only [hres] at hread
    rw [hread]
    dsimp only
    rw [Parser.flush_noted (hstart.moved s).pending]
    cases e <;> rfl

/-- In a live scope the statements are parsed, and then all errors have been reported. -/
theorem Expression.parse_of_live {store : Store} {scope : TupleId} {t : Tuple}
    (hscope : store.tuple scope = .ok t) (cursor : Cursor) :
    parse store scope cursor =
      let run := Parser.statements (cursor.remaining + 1) [] { store, scope, cursor }
      let p := (Parser.flush run.2).2
      if p.errors.isEmpty then
        { result := .ok { roots := run.1, scope }
          diagnostics := p.sink.items
          store := p.store
          cursor := p.cursor }
      else
        { result := .error (.invalidExpression p.errors)
          diagnostics := p.sink.items
          store := p.store.releaseNodes run.1
          cursor := p.cursor } := by
  rw [parse, hscope]
  rfl

/-- Where the statements are done with and nothing is pending, what they have reported decides
whether there is an expression. -/
theorem Expression.parse_of_statements {store : Store} {scope : TupleId} {cursor : Cursor}
    {roots : List Node} {p : Parser} (hscope : store.contains scope = true)
    (hstatements :
      Parser.statements (cursor.remaining + 1) [] { store, scope, cursor } = (roots, p))
    (hpending : p.pending = []) :
    parse store scope cursor =
      if p.errors.isEmpty then
        { result := .ok { roots, scope }
          diagnostics := p.sink.items
          store := p.store
          cursor := p.cursor }
      else
        { result := .error (.invalidExpression p.errors)
          diagnostics := p.sink.items
          store := p.store.releaseNodes roots
          cursor := p.cursor } := by
  obtain ⟨t, ht⟩ := Option.isSome_iff_exists.mp hscope
  have hlive : store.tuple scope = .ok t := by
    rw [Store.tuple, show store.tuple? scope = some t from ht]
  rw [parse_of_live hlive, hstatements]
  dsimp only
  rw [Parser.flush_of_nil hpending]

/-- Parse tokens in a scope with the direct parser. -/
def Expression.parseDirectly (store : Store) (scope : TupleId) (cursor : Cursor) :
    Parsed (Except Error Expression) :=
  match store.tuple scope with
  | .error e => { result := .error e, diagnostics := [], store, cursor }
  | .ok _ =>
    let parsed := parseStatements scope (cursor.remaining + 1) { store, cursor }
    if parsed.diagnostics.isEmpty then
      { parsed with result := .ok { roots := parsed.result, scope } }
    else
      { parsed with
        result := .error (.invalidExpression (parsed.diagnostics.map (·.message)))
        store := parsed.store.releaseNodes parsed.result }

/-- Expressions are parsed as the direct parser parses them. -/
theorem Expression.parse_eq (store : Store) (scope : TupleId) (cursor : Cursor) :
    parse store scope cursor = parseDirectly store scope cursor := by
  have hstart := Parser.Between.start store scope cursor
  obtain ⟨hroots, hflush⟩ := Parser.statements_run (cursor.remaining + 1) [] hstart
  cases hscope : store.tuple scope with
  | error e =>
    rw [parse, parseDirectly, hscope]
  | ok t =>
    rw [parse_of_live hscope, parseDirectly, hscope]
    dsimp only
    rw [hroots, hflush]
    have hplain : Parser.plain { store, scope, cursor } = { store, cursor } := rfl
    rw [hplain]
    obtain ⟨roots, diagnostics, s, c⟩ :=
      parseStatements scope (cursor.remaining + 1) { store, cursor }
    -- an error is reported for each diagnostic, so both are empty together
    cases diagnostics <;> rfl

/-- Where parsing gives an expression, the statements were parsed without a diagnostic, and there is
one root for each of them. -/
theorem Expression.of_parse_ok {s : Store} {scope : TupleId} {cursor : Cursor} {e : Expression}
    (he : (parse s scope cursor).result = .ok e) :
    let parsed := parseStatements scope (cursor.remaining + 1) ⟨s, cursor⟩
    parsed.diagnostics = [] ∧ e = { roots := parsed.result, scope } ∧
      (parse s scope cursor).store = parsed.store := by
  intro parsed
  rw [parse_eq, parseDirectly] at he ⊢
  cases hscope : s.tuple scope with
  | error e => simp [hscope] at he
  | ok t =>
    simp only [hscope] at he ⊢
    by_cases hgood : parsed.diagnostics.isEmpty = true
    · rw [if_pos hgood] at he ⊢
      exact ⟨List.isEmpty_iff.mp hgood, (Except.ok.inj he).symm, rfl⟩
    · rw [if_neg hgood] at he
      cases he

/-- Every root of a parsed expression is good. -/
theorem Parsing.parse {R : Regime Store} {scope : TupleId} (P : Parsing R scope) {w : R.World}
    {s : Store} (hs : R.Holds w s) {cursor : Cursor} {e : Expression}
    (he : (Expression.parse s scope cursor).result = .ok e) :
    e.scope = scope ∧ ∃ v, R.Later w v ∧ R.Holds v (Expression.parse s scope cursor).store ∧
      ∀ n ∈ e.roots, P.NodeOk v n := by
  obtain ⟨-, rfl, hstore⟩ := Expression.of_parse_ok he
  rw [hstore]
  exact ⟨rfl, P.parseStatements (cursor.remaining + 1) (s := ⟨s, cursor⟩) hs⟩

end TupleLang
