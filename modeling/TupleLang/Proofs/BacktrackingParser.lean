import TupleLang.Proofs.Backtracking

/-!
# Trials of the parser

When the parser goes back over a missing `else`, it forgets what it has noted since, and the levels
of nesting that it has opened are closed again. So nothing is left of the trial but vacant slots,
and the operand is then read as it was in the trial (`Frame.backtracking_is_invisible`).

This takes a scope that looks the same all the time. Where the parents of a scope run in a circle,
what is seen from it depends on the number of slots, and where a parent is gone, its id may be given
out again (`Frame.backtracking_shows_in_loose_scopes`).
-/

namespace TupleLang

open ParseM

/-- Behind a part of the statement the operands of an operator that waits for its last one are in
balance. -/
theorem Frame.Balanced.await_tail {f : Frame} (hf : f.Balanced) (hlast : f.lastOperand = false)
    (op : Operator) (inner : List Node) : (f.await (.tail op inner)).Balanced := by
  refine ⟨?_, fun op' hop' => hf.arity op' (by simpa [await] using hop')⟩
  simpa [await, hlast, Pending.given, Waiting.given] using hf.operands

namespace Parser

variable {p : Parser} {f f' : Frame} {s s' : ParseState} {terminators : List String}

/-! ## The trial -/

/-- At `p` the parser is in front of `if`. It reads a condition and `then`, where it is `start`. The
operand behind is read as a trial up to `stop`, and there is no `else`. -/
structure Trial (f : Frame) (p : Parser) (condition : Node) (start : Parser) (operand : Node)
    (stop : Parser) : Prop where
  condition : ∃ t, parseFrame p.fuel ("then" :: "then" :: f.terminators)
      { p with cursor := p.cursor.advance 1 } = (some condition, t) ∧
    t.cursor.current.isWord "then" = true ∧ start = { t with cursor := t.cursor.advance 1 }
  operand : parseFrame p.fuel ("else" :: f.terminators) start = (some operand, stop)
  missing : stop.cursor.current.isWord "else" = false

/-- What the direct parser reads as an expression is read. -/
theorem parseFrame_of_ok {node : Node} (hs : s.store.settings = p.store.settings)
    (hrun : TupleLang.parseFrame p.scope p.levelsLeft terminators s =
      .ok node s') :
    parseFrame p.fuel terminators (p.moved s) = (some node, p.moved s') ∧
      s'.store.settings = p.store.settings :=
  (follows_parseFrame _ terminators).of_ok (.self p) hs hrun

/-- A trial of the direct parser is a trial. -/
theorem trial_of_direct {condition operand : Node} {start stop : ParseState}
    (h : f.Trial p.scope p.levelsLeft p.plain condition start operand stop) :
    Trial f p condition (p.moved start) operand (p.moved stop) := by
  obtain ⟨⟨t, hcondition, hthen, rfl⟩, hoperand, hmissing⟩ := h
  obtain ⟨hcondition, hsettings⟩ := parseFrame_of_ok rfl hcondition
  have hoperand := parseFrame_of_ok (s := ⟨t.store, t.cursor.advance 1⟩) hsettings hoperand
  exact ⟨⟨p.moved t, hcondition, hthen, rfl⟩, hoperand.1, hmissing⟩

/-- The rest of a frame is read as the direct parser reads it. -/
theorem follows_run_moved (hf : f.Balanced) (rounds : Nat) :
    Follows p.scope p.levelsLeft p.pending.length
      (run p.fuel (parseFrame p.fuel) rounds f)
      (orSkip (Frame.run p.scope p.levelsLeft
        (TupleLang.parseFrame p.scope p.levelsLeft) rounds f)) :=
  follows_run (follows_parseFrame _) (sober_parseFrame p.scope _) rounds f hf

end Parser

namespace Frame

/-- Going back over a missing `else` cannot be seen. The trial leaves everything as it was when the
parser marked the place behind `then`: the cursor, the errors noted, the sink and the levels of
nesting, and all live tuples. What is read on top of the operator afterwards is the operand that was
given up. -/
theorem backtracking_is_invisible {f f' : Frame} {token : Token} {p p₂ : Parser} {nodes : List Node}
    (hf : f.Balanced) (hs : p.store.Sound) (hcursor : p.cursor.Regular)
    (hwords : ∀ w ∈ f.terminators, Operator.Continues w)
    (hrun : Parser.resolveSequence (Parser.parseFrame p.fuel) f
      (Operator.sequencesStarting token.text !f.lastOperand) token p = ((true, f'), p₂))
    (hchoice : f'.pending.head? = some (.waiting (.tail .ifThen nodes))) :
    ∃ condition start operand stop, Parser.Trial f p condition start operand stop ∧
      f' = f.await (.tail .ifThen [condition]) ∧
      p₂ = { start with store := p₂.store } ∧ start.store.Unchanged p₂.store ∧
      start.pending = p.pending ∧ start.depth = p.depth ∧
      ∀ out rounds root p₃, p.store.Anchored p.scope out → (Store.youngAt out).Holds p₃.store →
        Parser.run p.fuel (Parser.parseFrame p.fuel) rounds f' p₂ = (some root, p₃) →
        ∃ tree binding trailing rounds' p₄, binding.op = .ifThen ∧
          stop.store.Means [operand] [tree] ∧ p₄.store.Means [trailing] [tree] ∧
          p₄.cursor = stop.cursor ∧ Parser.run p.fuel (Parser.parseFrame p.fuel) rounds'
            (f.pushOperand (.apply binding [condition, trailing])) p₄ = (some root, p₃) := by
  have hresolve : Parser.Takes p.scope p.levelsLeft p.pending.length _ _ :=
    Parser.takes_resolveSequence (Parser.follows_parseFrame p.levelsLeft) f
      (Operator.sequencesStarting token.text !f.lastOperand) token
  obtain ⟨s₂, hdirect, rfl⟩ := hresolve.of_done (.self p) hrun
  have hsettings := (hresolve.of_ok (.self p) hdirect).2
  obtain ⟨condition, start, operand, stop, htrial, hlast, rfl, hback, hunchanged, hrest⟩ :=
    exists_unseen_trial (s := p.plain) hs hcursor hwords hdirect hchoice
  refine ⟨condition, p.moved start, operand, p.moved stop, Parser.trial_of_direct htrial, rfl,
    ?_, hunchanged, rfl, rfl, ?_⟩
  · rw [Parser.moved, hback]
    rfl
  · intro out rounds root p₃ hscope hyoung hrun
    have hawaits := hf.await_tail hlast .ifThen [condition]
    obtain ⟨s₃, hroot, rfl⟩ :=
      (Parser.follows_run_moved hawaits rounds).of_some (.self p) hsettings hrun
    obtain ⟨tree, binding, trailing, rounds₁, rounds₂, s₄, hop, hagain, hmeans, hmeans', hstop,
      hrest⟩ := hrest out rounds root s₃ hscope hyoung (onFailure_eq_ok.mp hroot)
    -- reading the operand again keeps the settings, and so as many levels are left behind it
    have hsettings' := ((Parser.follows_run_moved (.start f.terminators) rounds₁).of_ok (.self p)
      hsettings (onFailure_eq_ok.mpr hagain)).2
    have hpushed := hf.pushOperand hlast (.apply binding [condition, trailing])
    have hend := (Parser.follows_run_moved hpushed rounds₂).of_ok (.self p) hsettings'
      (onFailure_eq_ok.mpr hrest)
    exact ⟨tree, binding, trailing, rounds₂, p.moved s₄, hop, hmeans, hmeans', hstop, hend.1⟩

/-! ## A block of code -/

/-- An operator that the host takes care of. -/
def hosted (owner : TypeDesc) (name : String) (returns args : TypeDesc) : Action :=
  ⟨.operator owner name returns args, .host name⟩

/-- A conditional without `else`. -/
def whenTrue : Action := hosted (.leaf "bool") "if" (.leaf "int") (.tree [(none, .any)])

/-- An operator between any two operands. -/
def joins : Action := hosted .any "+" (.leaf "int") (.tree [(none, .any)])

/-- A scope with operators. -/
def scopeWith (parent : Option TupleId) (actions : List Action) : Tuple where
  kind := .custom "scope"
  permissions := .all
  parent
  actions := actions.map fun a => (a.signature.key, a)
  byName := actions.map fun a => (a.name, [a.signature.key])

/-- In front of `if true then P(x = 1) + x`. -/
def sumCursor : Cursor := .ofTokens
  [⟨.keyword, "if", {}⟩, ⟨.trueWord, "true", {}⟩, ⟨.keyword, "then", {}⟩, ⟨.plainOpen, "P(", {}⟩,
    ⟨.ident, "x", {}⟩, ⟨.symbol, "=", {}⟩, ⟨.int, "1", {}⟩, ⟨.rparen, ")", {}⟩, ⟨.symbol, "+", {}⟩,
    ⟨.ident, "x", {}⟩]

/-- A store with one scope. -/
def oneScope : Store where
  arena.slots := #[⟨0, some (scopeWith none [whenTrue, joins])⟩]
  root := ⟨0, 0⟩

/-- What the operator on top waits for, if it is an `if … then` that has gone without its `else`. -/
def waitingThen? (f : Frame) : Option (List Node) :=
  match f.pending.head? with
  | some (.waiting (.tail .ifThen nodes)) => some nodes
  | _ => none

/-- A frame waits for the tail of a conditional just if that is pending on top. -/
theorem waitingThen?_eq_some_iff {f : Frame} {nodes : List Node} :
    f.waitingThen? = some nodes ↔ f.pending.head? = some (.waiting (.tail .ifThen nodes)) := by
  rw [waitingThen?]
  split
  · rename_i nodes' hhead
    simp [hhead]
  · rename_i hother
    exact ⟨nofun, fun hhead => (hother nodes hhead).elim⟩

/-- The operand of `if true then P(x = 1) + x` is read twice, and the same each time. -/
theorem backtracking_is_invisible_sum :
    let p : Parser := { store := oneScope, scope := ⟨0, 0⟩, cursor := sumCursor }
    Frame.Balanced {} ∧ p.store.Sound ∧ p.cursor.Regular ∧ p.store.Anchored ⟨0, 0⟩ none ∧
      ∃ f' p₂ nodes, Parser.resolveSequence (Parser.parseFrame p.fuel) {}
          (Operator.sequencesStarting p.cursor.current.text true) p.cursor.current p =
            ((true, f'), p₂) ∧
        f'.pending.head? = some (.waiting (.tail .ifThen nodes)) ∧
        ∃ condition start operand stop, Parser.Trial {} p condition start operand stop ∧
          p₂ = { start with store := p₂.store } ∧ start.store.Unchanged p₂.store ∧
          ∃ tree binding trailing rounds root p₃ p₄,
            Parser.run p.fuel (Parser.parseFrame p.fuel) 20 f' p₂ = (some root, p₃) ∧
            stop.store.Means [operand] [tree] ∧ p₄.store.Means [trailing] [tree] ∧
            p₄.cursor = stop.cursor ∧ Parser.run p.fuel (Parser.parseFrame p.fuel) rounds
              (pushOperand {} (.apply binding [condition, trailing])) p₄ = (some root, p₃) := by
  intro p
  have hf : Frame.Balanced {} := .start []
  have hs : p.store.Sound := ⟨Arena.sound_of_full rfl rfl, _, rfl⟩
  have hcursor : p.cursor.Regular := ⟨Nat.zero_le _, rfl⟩
  have hscope : p.store.Anchored ⟨0, 0⟩ none := ⟨⟨0, ⟨0, 0⟩, _, rfl, rfl, rfl⟩, nofun, nofun⟩
  have hreads : passes (resolveSequence ⟨0, 0⟩ (parseFrame ⟨0, 0⟩ 256) {}
        (Operator.sequencesStarting p.cursor.current.text true) p.cursor.current) p.plain
        (fun f' s₂ => f'.waitingThen?.isSome &&
          passes (run ⟨0, 0⟩ 256 (parseFrame ⟨0, 0⟩ 256) 20 f') s₂ fun _ _ => true) = true := by
    decide +kernel
  obtain ⟨f', s₂, hchosen, hreads⟩ := passes_iff.mp hreads
  obtain ⟨hwaits, hends⟩ := Bool.and_eq_true_iff.mp hreads
  obtain ⟨nodes, hwaits⟩ := Option.isSome_iff_exists.mp hwaits
  have hchoice := waitingThen?_eq_some_iff.mp hwaits
  obtain ⟨root, s₃, hroot, -⟩ := passes_iff.mp hends
  -- what the direct parser reads is read by the parser
  have hbalanced : f'.Balanced :=
    (finds_resolveSequence (sober_parseFrame ⟨0, 0⟩ 256) hf (.start (by decide)) _).of_ok hchosen
  obtain ⟨hrun, hsettings⟩ := (Parser.takes_resolveSequence
    (Parser.follows_parseFrame 256) {} _ _).of_ok (.self p) hchosen
  have hroot := ((Parser.follows_run_moved hbalanced 20).of_ok (.self p) hsettings
    (onFailure_eq_ok.mpr hroot)).1
  obtain ⟨condition, start, operand, stop, htrial, -, hback, hunchanged, -, -, hrest⟩ :=
    backtracking_is_invisible hf hs hcursor nofun hrun hchoice
  obtain ⟨tree, binding, trailing, rounds, p₄, -, hmeans, hmeans', hstop, hagain⟩ :=
    hrest none 20 root _ hscope nofun hroot
  exact ⟨hf, hs, hcursor, hscope, f', _, nodes, hrun, hchoice, condition, start, operand, stop,
    htrial, hback, hunchanged, tree, binding, trailing, rounds, root, _, p₄, hroot, hmeans, hmeans',
    hstop, hagain⟩

/-! ## Scopes that do not stay the same -/

/-- The operand behind `then` in front of the cursor is read as another tree the second time. -/
def ReadsOtherwise (p : Parser) : Prop :=
  ∃ f' p₂ nodes condition start operand stop,
    Parser.resolveSequence (Parser.parseFrame p.fuel) {}
      (Operator.sequencesStarting p.cursor.current.text true) p.cursor.current p =
        ((true, f'), p₂) ∧
    f'.pending.head? = some (.waiting (.tail .ifThen nodes)) ∧
    Parser.Trial {} p condition start operand stop ∧
    ∃ rounds binding first trailing p₃,
      Parser.run p.fuel (Parser.parseFrame p.fuel) rounds f' p₂ =
        (some (.apply binding [first, trailing]), p₃) ∧
      ∀ tree, stop.store.Means [operand] [tree] → ¬p₃.store.Means [trailing] [tree]

/-- The types of the operands of a node. -/
def operandTypes : Node → List TypeDesc
  | .apply _ children => children.map Node.type
  | .value .. => []

/-- Nodes for the same tree have operands of the same types. -/
theorem operandTypes_eq {s s' : Store} {node node' : Node} {tree : Tree} (h : s.Means [node] [tree])
    (h' : s'.Means [node'] [tree]) : operandTypes node = operandTypes node' := by
  cases h with
  | literal =>
    cases h'
    rfl
  | named =>
    cases h'
    rfl
  | apply hchildren =>
    cases h' with
    | apply hchildren' => exact hchildren.map_type.trans hchildren'.map_type.symm

/-- Whether the operand behind `then` has operands of other types the second time. -/
def readsOtherTypes (scope : TupleId) (levels rounds : Nat) (s : ParseState) : Bool :=
  let chosen := resolveSequence scope (parseFrame scope levels) {}
    (Operator.sequencesStarting s.cursor.current.text true) s.cursor.current s
  let condition := parseFrame scope levels ["then", "then"] { s with cursor := s.cursor.advance 1 }
  match chosen, condition with
  | .ok f' s₂, .ok _ t =>
    match f'.pending.head?,
      parseFrame scope levels ["else"] { t with cursor := t.cursor.advance 1 },
      run scope levels (parseFrame scope levels) rounds f' s₂ with
    | some (.waiting (.tail .ifThen _)), .ok operand _, .ok (.apply _ [_, trailing]) _ =>
      operandTypes operand != operandTypes trailing
    | _, _, _ => false
  | _, _ => false

theorem readsOtherwise_of_types {p : Parser} {rounds : Nat} (hcursor : p.cursor.Proper)
    (h : readsOtherTypes p.scope p.levelsLeft rounds p.plain = true) : ReadsOtherwise p := by
  unfold readsOtherTypes at h
  dsimp only at h
  split at h
  · rename_i f' s₂ condition t hrun hcondition
    split at h
    · rename_i nodes operand stop binding first trailing s₃ hchoice hoperand hroot
      -- what the direct parser computed is the trial and the frame the running parser goes on with
      obtain ⟨condition', start, operand', stop', htrial, -, rfl, -⟩ :=
        exists_trial (f := {}) hcursor hrun hchoice
      obtain ⟨⟨t', hcondition', -, rfl⟩, hoperand', -⟩ := id htrial
      obtain ⟨rfl, rfl⟩ := EStateM.Result.ok.inj (hcondition.symm.trans hcondition')
      obtain ⟨rfl, rfl⟩ := EStateM.Result.ok.inj (hoperand.symm.trans hoperand')
      -- from here on the running parser follows the direct one
      obtain ⟨hrun, hsettings⟩ := (Parser.takes_resolveSequence
        (Parser.follows_parseFrame p.levelsLeft) {} _ _).of_ok (.self p) hrun
      have hawaits := (Frame.Balanced.start []).await_tail rfl .ifThen [condition]
      have hroot := ((Parser.follows_run_moved hawaits rounds).of_ok (.self p) hsettings
        (onFailure_eq_ok.mpr hroot)).1
      refine ⟨_, _, nodes, condition, _, operand, _, hrun, hchoice, Parser.trial_of_direct htrial,
        rounds, binding, first, trailing, _, hroot, fun tree hoperand htrailing => ?_⟩
      -- were the two trees the same, so would be their types
      rw [operandTypes_eq hoperand htrailing] at h
      simp at h
    · cases h
  · cases h

/-- An operator without operands. -/
def leaves (returns : String) : Action := hosted .void "break" (.leaf returns) (.tree [])

/-- In front of `if true then break + P(1)`. -/
def breakCursor : Cursor := .ofTokens
  [⟨.keyword, "if", {}⟩, ⟨.trueWord, "true", {}⟩, ⟨.keyword, "then", {}⟩, ⟨.keyword, "break", {}⟩,
    ⟨.symbol, "+", {}⟩, ⟨.plainOpen, "P(", {}⟩, ⟨.int, "1", {}⟩, ⟨.rparen, ")", {}⟩]

/-- A store with two scopes, each the parent of the other. Both have an operator `break`. -/
def circle : Store where
  arena.slots := #[⟨0, some (scopeWith none [])⟩,
    ⟨0, some (scopeWith (some ⟨2, 0⟩) [whenTrue, joins, leaves "long"])⟩,
    ⟨0, some (scopeWith (some ⟨1, 0⟩) [leaves "int"])⟩]
  root := ⟨0, 0⟩

/-- A store with a scope whose parent is gone. The slot of the parent is about to begin anew with
its generations. -/
def orphan : Store where
  arena.slots := #[⟨0, some (scopeWith none [])⟩,
    ⟨0, some (scopeWith (some ⟨2, 0⟩) [whenTrue, joins])⟩, ⟨2 ^ 32 - 1, none⟩]
  arena.free := [2]
  root := ⟨0, 0⟩

theorem orphan_sound : orphan.Sound := by
  refine ⟨⟨by decide, fun i => ?_⟩, _, rfl⟩
  rw [show orphan.arena.free = [2] from rfl, List.mem_singleton]
  constructor
  · rintro rfl
    exact ⟨_, rfl, rfl⟩
  · rintro ⟨slot, hslot, hvacant⟩
    match i with
    | 0 | 1 =>
      cases hslot
      cases hvacant
    | 2 => rfl
    | i + 3 => cases hslot

/-- What is seen from a scope may change between the readings. In a circle of parents, `break` is
that of the inner scope or that of the outer one, depending on the number of slots. Where the parent
is gone, the tuple that is read may get its id, and then its `x` is a variable. -/
theorem backtracking_shows_in_loose_scopes :
    (circle.Sound ∧ breakCursor.Regular ∧
      ReadsOtherwise { store := circle, scope := ⟨2, 0⟩, cursor := breakCursor }) ∧
    orphan.Sound ∧ sumCursor.Regular ∧
      ReadsOtherwise { store := orphan, scope := ⟨1, 0⟩, cursor := sumCursor } := by
  have hcircle : circle.Sound := ⟨Arena.sound_of_full rfl rfl, _, rfl⟩
  have hbreak : breakCursor.Regular := ⟨Nat.zero_le _, rfl⟩
  have hsum : sumCursor.Regular := ⟨Nat.zero_le _, rfl⟩
  refine ⟨⟨hcircle, hbreak, ?_⟩, orphan_sound, hsum, ?_⟩
  · exact readsOtherwise_of_types hbreak.proper
      (show readsOtherTypes ⟨2, 0⟩ 256 20 ⟨circle, breakCursor⟩ = true by decide +kernel)
  · exact readsOtherwise_of_types hsum.proper
      (show readsOtherTypes ⟨1, 0⟩ 256 20 ⟨orphan, sumCursor⟩ = true by decide +kernel)

end Frame

end TupleLang
