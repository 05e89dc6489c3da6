import TupleLang.Proofs.FollowingParser

/-!
# The parser finds its operands

`Parser.Met` are the frames that reading an expression comes to, with the parser as it is then. All
of them are in balance, so that none is in a state that the parser would have to complain about
(`Parser.Provided`).
-/

namespace TupleLang

open ParseM

namespace Parser

/-! ## The frames that are met -/

/-- A frame that reading an expression comes to, and the parser: at the beginning of an expression,
behind a token, or when one of its operators has been completed. -/
inductive Met : Frame → Parser → Prop
  /-- An expression that ends at the given words. -/
  | start {terminators : List String} {p : Parser} : Met { terminators } p
  /-- A token that does not end the frame has been taken in. -/
  | step {f f' : Frame} {p p' : Parser} : Met f p → f.endsAt p.cursor.current = false →
      step p.fuel (parseFrame p.fuel) f p.cursor.current p = ((true, f'), p') → Met f' p'
  /-- The innermost operator has been completed behind an operand. -/
  | complete {f f' : Frame} {w : Waiting} {rest : List Pending} {p p' : Parser} :
      Met f p → f.lastOperand = true → f.pending = .waiting w :: rest →
      reduce { f with pending := rest } w p = ((true, f'), p') → Met f' p'

variable {f : Frame} {p : Parser}

/-- What a direct parser finds is also what a part that went well gives. -/
theorem Takes.finds {m : StateM Parser (Bool × Frame)} {q : ParseM Frame} {Q : Frame → Prop}
    {p' : Parser}
    (hm : Takes p.scope p.levelsLeft p.pending.length m q)
    (hq : Finds q Q) (hrun : m p = ((true, f), p')) : Q f := by
  obtain ⟨s, hres, -⟩ := hm.of_done (.self p) hrun
  exact hq.of_ok hres

/-- Every frame that is met is in balance. -/
theorem Met.balanced (h : Met f p) : f.Balanced := by
  induction h with
  | start => exact .start _
  | step _ hends hrun ih =>
    exact (takes_step (follows_parseFrame _) _ _).finds
      (Frame.finds_step (sober_parseFrame _ _) ih hends _) hrun
  | complete _ hlast hpending hrun ih =>
    exact ((takes_reduce _ _).finds (Frame.finds_reduce (by rwa [← hpending]) hlast) hrun).1

/-- The frame is in none of the states that the parser would have to complain about. -/
structure Provided (f : Frame) (p : Parser) : Prop where
  /-- An operator that is completed finds its operands. -/
  completes : ∀ w rest, f.lastOperand = true → f.pending = .waiting w :: rest →
    w.Supplied f.operands
  /-- A closing parenthesis that is taken in finds an open one. -/
  closes : f.endsAt p.cursor.current = false → p.cursor.current.kind = .rparen →
    .opening ∈ f.pending
  /-- An operator of several tokens behind an operand finds its left operand. -/
  left : ∀ precedence f' p', f.lastOperand = true →
    reduceWhile precedence f f.pending p = ((true, f'), p') → ∃ left rest,
      f'.operands = left :: rest
  /-- A frame that comes to its end has one operand. -/
  finishes : ∀ f' p', f.lastOperand = true → closeAll f f.pending p = ((true, f'), p') →
    ∃ root, f'.operands = [root]

/-- A frame in balance is in none of them. -/
theorem Provided.of_balanced (hf : f.Balanced) (p : Parser) : Provided f p where
  completes _ _ hlast hpending := hf.supplied hlast hpending
  closes hends hkind := Frame.opening_mem_of_not_endsAt hends hkind
  left precedence f' p' hlast hrun := by
    obtain ⟨hf', hlast'⟩ := (takes_reduceWhile precedence f f.pending).finds
      (Frame.finds_reduceWhile precedence f f.pending hf hlast) hrun
    exact hf'.exists_last hlast'
  finishes f' p' hlast hrun :=
    ((takes_closeAll f f.pending).finds (Frame.finds_closeAll f f.pending hf hlast) hrun).2

end Parser

/-! ## Diagnostics -/

/-- No diagnostic of the statements blames the parser. -/
theorem not_blamesParser_of_parseStatements (scope : TupleId) (rounds : Nat) (s : ParseState) :
    ∀ d ∈ (parseStatements scope rounds s).diagnostics, ¬d.BlamesParser := by
  induction rounds generalizing s with
  | zero =>
    intro d hd
    -- a stall is reported without blame
    rw [List.mem_singleton.mp hd]
    exact ParseFailure.Sober.not_blamesParser (e := .stalled) trivial
  | succ rounds ih =>
    unfold parseStatements
    split
    · simp
    · split
      · exact ih _
      · split
        · exact ih _
        · rename_i e s' hrun
          intro d hd
          -- the failure of this statement, or one behind it
          rcases List.mem_cons.mp hd with rfl | hd
          · exact ((sober_parseStatement scope).of_error hrun).not_blamesParser
          · exact ih _ d hd

/-- No diagnostic of an expression is a complaint about the parser's own stacks. -/
theorem Expression.not_blamesParser_of_parse (store : Store) (scope : TupleId) (cursor : Cursor) :
    ∀ d ∈ (parse store scope cursor).diagnostics, ¬d.BlamesParser := by
  have hstatements := not_blamesParser_of_parseStatements scope (cursor.remaining + 1)
    { store, cursor }
  rw [parse_eq]
  unfold parseDirectly
  split
  · simp
  · dsimp only
    split
    · exact hstatements
    · exact hstatements

/-- The parser never runs out of operands. In every frame that reading an expression comes to, an
operator finds its operands, a closing parenthesis its opening one and an operator of several tokens
its left operand, and one operand is left at the end. When an operator of several tokens is chosen,
one candidate is left. So no diagnostic says otherwise. -/
theorem Expression.parser_finds_its_operands (store : Store) (scope : TupleId) (cursor : Cursor) :
    (∀ f p, Parser.Met f p → Parser.Provided f p) ∧
      (∀ step candidates, Frame.Narrowed step candidates →
        (Frame.goingOn step candidates = [] ∨ Frame.ended step candidates ≠ []) →
          ∃ op, Frame.ended step candidates = [op]) ∧
      ∀ d ∈ (parse store scope cursor).diagnostics, ¬d.BlamesParser :=
  ⟨fun _ p h => .of_balanced h.balanced p, fun _ _ h hend => h.ended_eq hend,
    not_blamesParser_of_parse store scope cursor⟩

/-- A negated operand in a store without actions: the operator finds its operand, and what is
reported is that there is no action for it. -/
theorem Expression.parser_finds_its_operands_negated :
    let s := Store.bare {}
    let cursor := Cursor.ofTokens [⟨.symbol, "!", {}⟩, ⟨.trueWord, "true", {}⟩]
    (∃ f p, Parser.Met f p ∧ f.lastOperand = true ∧
        f.pending = [.waiting (.single .not)] ∧ (Waiting.single .not).Supplied f.operands) ∧
      (Frame.Narrowed 1 [.is, .isNot] ∧ ∃ op, Frame.ended 1 [.is, .isNot] = [op]) ∧
      (parse s s.root cursor).diagnostics.map (·.message) =
        ["no action `!` for owner T(bool) and arguments T()"] ∧
      ∀ d ∈ (parse s s.root cursor).diagnostics, ¬d.BlamesParser := by
  intro s cursor
  obtain ⟨hmet, hnarrowed, hdiagnostics⟩ := parser_finds_its_operands s s.root cursor
  have hstart : Parser.Met {} { store := s, scope := s.root, cursor } := .start
  -- first the `!` is taken in, then its operand
  have hwaits := hstart.step rfl rfl
  have hbehind := hwaits.step rfl rfl
  have hsupplied := (hmet _ _ hbehind).completes _ _ rfl rfl
  refine ⟨⟨_, _, hbehind, rfl, rfl, hsupplied⟩, ?_, ?_, hdiagnostics⟩
  · have his : Frame.Narrowed 1 [.is, .isNot] := @Frame.Narrowed.start "is" false (by decide)
    exact ⟨his, hnarrowed _ _ his (by decide)⟩
  · rw [parse_eq]
    rfl

end TupleLang
