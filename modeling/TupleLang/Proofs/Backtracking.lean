import TupleLang.Proofs.ExprReading
import TupleLang.Proofs.Leeway
import TupleLang.Proofs.PrecedenceParser
import TupleLang.Proofs.ScopeView
import TupleLang.Proofs.Stacking

/-!
# Going back over a missing `else`

Behind `then` the parser reads an operand in a frame of its own that may also end at `else`, one
level deeper than what is around it. If there is no `else`, this was a trial (`Frame.Trial`): the
operand is given up, the cursor is put back, and the same tokens are read again on top of the
operator that waits, with all the words, parentheses and operators of the frame around it.

What can be read on top of the operator can be read in a frame of its own (`Frame.run_atop`), and
that comes to the operand of the trial (`Frame.reads_again`): with one more level, and without
`else` among the words, such a frame gives the same tree, since the trial has not ended in front of
`else`. So going back cannot be seen (`Frame.exists_unseen_trial`).

This takes a scope that looks the same all the time. The trial may leave slots behind, and what is
seen from a scope whose parents run in a circle depends on the number of slots. Where a parent is
gone, its id must not be given out again.
-/

namespace TupleLang

open ParseM

namespace Frame

variable {scope : TupleId} {inner : List String → ParseM Node} {ts : List String} {opener : Token}
  {s s' : ParseState}

/-! ## The trial -/

/-- The parser has read `if`, a condition and `then`, where it is in state `start`. The operand
behind is read as a trial up to the state `stop`, and there is no `else`. -/
structure Trial (scope : TupleId) (levels : Nat) (f : Frame) (s : ParseState) (condition : Node)
    (start : ParseState) (operand : Node) (stop : ParseState) : Prop where
  condition : ∃ t, parseFrame scope levels ("then" :: "then" :: f.terminators)
      { s with cursor := s.cursor.advance 1 } = .ok condition t ∧
    t.cursor.current.isWord "then" = true ∧ start = { t with cursor := t.cursor.advance 1 }
  operand : parseFrame scope levels ("else" :: f.terminators) start = .ok operand stop
  missing : stop.cursor.current.isWord "else" = false

/-- The operator that is chosen is one of the candidates. -/
theorem mem_of_resolveFrom {steps step : Nat} {candidates : List Operator} {operands : List Node}
    {r : Operator × List Node}
    (h : resolveFrom inner ts opener steps step candidates operands s = .ok r s') :
    r.1 ∈ candidates := by
  have hchoose : ∀ {ops operands s}, chooseSequence opener ops operands s = .ok r s' →
      r.1 ∈ ops := by
    intro ops operands s h
    cases ops with
    | nil => cases holding_eq_ok.mp h
    | cons op rest =>
      cases rest with
      | nil =>
        obtain ⟨rfl, -⟩ := EStateM.Result.ok.inj h
        exact List.mem_cons_self
      | cons => cases holding_eq_ok.mp h
  induction steps generalizing step candidates operands s with
  | zero => cases h
  | succ steps ih =>
    unfold resolveFrom at h
    rw [List.partition_eq_filter_filter] at h
    dsimp only at h
    split at h
    · exact hchoose h
    · obtain ⟨next, s₁, -, h⟩ := bind_eq_ok.mp h
      generalize hfind : List.find? _ _ = decided at h
      cases decided with
      | some op =>
        -- a sub-token without an operand before it leaves one candidate
        obtain ⟨_, s₂, -, h⟩ := bind_eq_ok.mp h
        rw [List.mem_singleton.mp (ih h)]
        exact List.mem_of_mem_filter (List.mem_of_find?_eq_some hfind)
      | none =>
        dsimp only at h
        split at h
        · exact List.mem_of_mem_filter (hchoose h)
        · obtain ⟨start, s₂, -, h⟩ := bind_eq_ok.mp h
          obtain ⟨operand, s₃, -, h⟩ := bind_eq_ok.mp h
          obtain ⟨after, s₄, -, h⟩ := bind_eq_ok.mp h
          split at h
          · obtain ⟨_, s₅, -, h⟩ := bind_eq_ok.mp h
            exact List.mem_of_mem_filter (List.mem_of_mem_filter (List.mem_of_mem_filter (ih h)))
          · split at h
            · obtain ⟨_, s₅, -, h⟩ := bind_eq_ok.mp h
              obtain ⟨_, s₆, -, h⟩ := bind_eq_ok.mp h
              exact List.mem_of_mem_filter (hchoose h)
            · cases h

/-- Where a conditional turns out to have no `else`, the operand behind `then` has been read, given
up and gone back over. -/
theorem resolveFrom_ifThen {nodes : List Node}
    (h : resolveFrom inner ts opener 4 1 [.ifThen, .ifThenElse] [] s = .ok (.ifThen, nodes) s') :
    ∃ condition t operand stop, inner ("then" :: "then" :: ts) s = .ok condition t ∧
      t.cursor.current.isWord "then" = true ∧
      inner ("else" :: ts) { t with cursor := t.cursor.advance 1 } = .ok operand stop ∧
      stop.cursor.current.isWord "else" = false ∧ nodes = [condition] ∧
      s' = { store := stop.store.releaseNode operand
             cursor := stop.cursor.seek (t.cursor.advance 1).pos } := by
  obtain ⟨message, hthen⟩ := @resolveFrom_operand ts inner opener 3 1
    [.ifThen, .ifThenElse] [] [.ifThen, .ifThenElse] [] "then" rfl (by decide) (by decide)
  rw [hthen] at h
  obtain ⟨_, _, hstart, h⟩ := bind_eq_ok.mp h
  cases hstart
  obtain ⟨condition, t, hcondition, h⟩ := bind_eq_ok.mp h
  obtain ⟨_, _, hafter, h⟩ := bind_eq_ok.mp h
  cases hafter
  split at h
  · rename_i hword
    obtain ⟨_, _, hadvance, h⟩ := bind_eq_ok.mp h
    cases hadvance
    obtain ⟨message, helse⟩ := @resolveFrom_operand ts inner opener 2 2
      [.ifThen, .ifThenElse] [.ifThen] [.ifThenElse] [condition] "else" rfl (by decide) (by decide)
    rw [List.nil_append, helse] at h
    obtain ⟨_, _, hstart, h⟩ := bind_eq_ok.mp h
    cases hstart
    obtain ⟨operand, stop, hoperand, h⟩ := bind_eq_ok.mp h
    obtain ⟨_, _, hafter, h⟩ := bind_eq_ok.mp h
    cases hafter
    split at h
    · -- with `else` the operator is another one
      obtain ⟨_, _, hadvance, h⟩ := bind_eq_ok.mp h
      cases hadvance
      cases List.mem_singleton.mp (mem_of_resolveFrom h)
    · rename_i hmissing
      obtain ⟨_, _, hrelease, h⟩ := bind_eq_ok.mp h
      cases hrelease
      obtain ⟨_, _, hseek, h⟩ := bind_eq_ok.mp h
      cases hseek
      cases h
      exact ⟨condition, t, operand, stop, holding_eq_ok.mp hcondition, hword,
        holding_eq_ok.mp hoperand, Bool.eq_false_iff.mpr hmissing, rfl, rfl⟩
  · cases h

end Frame

/-! ## The second reading -/

/-- Cursors in the same tokens stand at the same place if they have the same lexemes ahead. -/
theorem Cursor.Within.eq_of_lexemes {c c₁ c₂ : Cursor} (h₁ : c.Within c₁) (h₂ : c.Within c₂)
    (hlexemes : c₁.lexemes = c₂.lexemes) : c₁ = c₂ := by
  obtain ⟨tokens₁, pos₁, eof₁⟩ := c₁
  obtain ⟨tokens₂, pos₂, eof₂⟩ := c₂
  obtain rfl : tokens₁ = tokens₂ := h₁.tokens.trans h₂.tokens.symm
  obtain rfl : eof₁ = eof₂ := h₁.eof.trans h₂.eof.symm
  have hlength := congrArg List.length hlexemes
  rw [Cursor.length_lexemes, Cursor.length_lexemes] at hlength
  have hle₁ : pos₁ ≤ tokens₁.size := h₁.proper.inRange
  have hle₂ : pos₂ ≤ tokens₁.size := h₂.proper.inRange
  obtain rfl : pos₁ = pos₂ := by
    change tokens₁.size - pos₁ = tokens₁.size - pos₂ at hlength
    omega
  rfl

/-- A proper cursor stays so when it moves on. -/
theorem Cursor.Proper.advance {c : Cursor} (hc : c.Proper) (n : Nat) : (c.advance n).Proper :=
  ⟨Nat.min_le_right _ _, hc.eof⟩

/-- A regular cursor is proper. -/
theorem Cursor.Regular.proper {c : Cursor} (hc : c.Regular) : c.Proper :=
  ⟨hc.inRange, congrArg Lexeme.kind hc.eof⟩

namespace Frame

variable {base : Store} {φ : Store.Proviso} {scope : TupleId} {Γ : Env} {levels : Nat}

/-- A frame that gives something ends in the statement in which it begins. -/
theorem parseFrame_within {ts : List String} {s s' : ParseState} {node : Node}
    (hs : s.cursor.Proper) (hrun : parseFrame scope levels ts s = .ok node s') :
    s.cursor.Within s'.cursor := by
  have hkeeps := (skips_parseFrame scope levels ts (Cursor.Within.refl hs)).keeps
  unfold ParseM.Keeps at hkeeps
  rwa [hrun] at hkeeps

/-- The steps of a frame stay within what is ahead of the cursor. -/
theorem run_within {f : Frame} {rounds : Nat} {s s' : ParseState} {node : Node}
    (hs : s.cursor.Proper)
    (hrun : run scope levels (parseFrame scope levels) rounds f s = .ok node s') :
    s.cursor.Within s'.cursor := by
  have hkeeps : (run scope levels (parseFrame scope levels) rounds f).Keeps s.cursor s :=
    stays_run (fun ts c s hs => (skips_parseFrame scope levels ts hs).keeps) _ _ _ _ _
      (Cursor.Within.refl hs)
  unfold ParseM.Keeps at hkeeps
  rwa [hrun] at hkeeps

/-- An operand that was read as a trial is read again, as the same tree and up to the same place, by
a frame with one more level that does not end at `else`. -/
theorem reads_again (hsees : base.Sees φ scope Γ) {ts : List String} {start stop s s' : ParseState}
    {operand trailing : Node} {rounds : Nat} (hstart : base.Enlarges start.store)
    (hs : base.Enlarges s.store) (hregular : start.cursor.Regular)
    (hcursor : s.cursor = start.cursor)
    (htrial : parseFrame scope levels ("else" :: ts) start = .ok operand stop)
    (hmissing : stop.cursor.current.isWord "else" = false)
    (hagain : run scope levels (parseFrame scope levels) rounds { terminators := ts } s =
      .ok trailing s')
    (hstopφ : φ.Holds stop.store) (hφ : φ.Holds s'.store) :
    s'.cursor = stop.cursor ∧
      ∃ tree, stop.store.Means [operand] [tree] ∧ s'.store.Means [trailing] [tree] := by
  obtain ⟨tree, hgrammar, hstop, -, hmeans⟩ :=
    (parses_parseFrame hsees levels _ start hstart hregular).of_ok htrial hstopφ
  have hshows : Shows s.store ts { terminators := ts } {} := ⟨.nil, .nil, rfl, rfl⟩
  have hregular' : s.cursor.Regular := hcursor ▸ hregular
  obtain ⟨tree', hgrammar', -, -, hmeans'⟩ :=
    (parses_run hsees (parses_parseFrame hsees levels) rounds hs hregular' hshows (.start ts)
      (.refl hs.sound)).of_ok hagain hφ
  have hspares : Grammar.Spares ("else" :: ts) ts :=
    ⟨fun w hw => List.mem_cons_of_mem _ hw, fun w hw => List.mem_cons.mp hw⟩
  have hend : Grammar.Elsewise ts stop.cursor.lexemes := by
    intro helse
    rw [← hstop.isWord_current, hmissing] at helse
    cases helse
  cases levels with
  | zero => cases hgrammar
  | succ levels =>
    -- by the grammar, the frame that does not end at `else` comes to the tree of the trial
    have hrepeats := Grammar.run_repeats (Grammar.frame_repeats Γ levels) hspares levels
      (start.cursor.lexemes.length + 1) {} hgrammar hend
    rw [hcursor] at hgrammar'
    obtain ⟨rfl, hlexemes⟩ := Prod.mk.inj (Grammar.run_unique hgrammar' hrepeats)
    have hwithin := parseFrame_within hregular.proper htrial
    have hwithin' : start.cursor.Within s'.cursor := hcursor ▸ run_within hregular'.proper hagain
    exact ⟨hwithin'.eq_of_lexemes hwithin hlexemes, tree', hmeans, hmeans'⟩

/-- A conditional without `else` is bound as it is, and binding it changes nothing. -/
theorem bind_ifThen {children : List Node} {span : Span} {node : Node} {s s' : ParseState}
    (h : (Draft.ofOperator .ifThen children).bind scope span s = .ok node s') :
    s' = s ∧ ∃ binding : Binding, binding.op = .ifThen ∧ node = .apply binding children := by
  rcases Draft.bind_ofOperator_cases (by decide) (by decide) h with
    ⟨binding, hop, rfl, rfl⟩ | ⟨hrelational, -⟩
  · exact ⟨rfl, binding, hop, rfl⟩
  · cases hrelational

/-- A conditional that waits for its last operand binds less tightly than any operator. -/
theorem loose_ifThen (f : Frame) (nodes : List Node) : (f.await (.tail .ifThen nodes)).Loose := by
  intro w rest hpending op
  obtain ⟨hw, -⟩ := List.cons.inj hpending
  obtain rfl := Pending.waiting.inj hw
  change 8 < op.inputPrecedence
  cases op <;> decide

/-- Conditionals without `else` begin with `if`, where no operand stands before. -/
theorem eq_if_of_mem {text : String} {leading : Bool}
    (h : .ifThen ∈ Operator.sequencesStarting text leading) : text = "if" ∧ leading = true := by
  obtain ⟨-, hhead⟩ := List.mem_filter.mp h
  obtain ⟨rfl, rfl⟩ := SubToken.mk.inj (Option.some.inj (beq_iff_eq.mp hhead))
  exact ⟨rfl, rfl⟩

/-- What a frame that gives something leaves behind is sound. -/
theorem sound_of_parseFrame {ts : List String} {s s' : ParseState} {node : Node}
    (hs : s.store.Sound) (hrun : parseFrame scope levels ts s = .ok node s') : s'.store.Sound := by
  have hreaches := linear_parseFrame scope levels ts s [] hs (.zero _)
  rw [hrun] at hreaches
  obtain ⟨ids, -, htrade⟩ := hreaches
  exact htrade.sound

/-- An operand that is read and given up again leaves nothing in the store but vacant slots. -/
theorem enlarges_releaseNode {ts : List String} {s s' : ParseState} {node : Node}
    (hs : s.store.Sound) (hrun : parseFrame scope levels ts s = .ok node s') :
    s.store.Trade [] (s'.store.releaseNode node) [] ∧
      s.store.Enlarges (s'.store.releaseNode node) := by
  have hreaches := linear_parseFrame scope levels ts s [] hs (.zero _)
  rw [hrun] at hreaches
  dsimp only at hreaches
  rw [Node.bag_cons, Node.bag_nil, add_zero] at hreaches
  obtain ⟨ids, hheld, htrade⟩ := hreaches
  have hnothing := htrade.trans (hheld.releaseAll htrade.sound rfl)
  have hages := (ages_parseFrame scope levels ts).of_ok hrun
  exact ⟨hnothing, ⟨[], hnothing⟩, hages.trans (.releaseAll s'.store _)⟩

/-- Where a conditional without `else` is chosen, it was chosen after a trial that was given up. -/
theorem exists_trial {f f' : Frame} {token : Token} {s s₂ : ParseState} {nodes : List Node}
    (hcursor : s.cursor.Proper)
    (hrun : resolveSequence scope (parseFrame scope levels) f
      (Operator.sequencesStarting token.text !f.lastOperand) token s = .ok f' s₂)
    (hchoice : f'.pending.head? = some (.waiting (.tail .ifThen nodes))) :
    ∃ condition start operand stop, f.Trial scope levels s condition start operand stop ∧
      f.lastOperand = false ∧ f' = f.await (.tail .ifThen [condition]) ∧
      s₂ = { store := stop.store.releaseNode operand, cursor := start.cursor } := by
  obtain ⟨⟨f₁, operands⟩, s₁, hleft, h⟩ := bind_eq_ok.mp hrun
  obtain ⟨_, _, hadvance, h⟩ := bind_eq_ok.mp h
  cases hadvance
  obtain ⟨⟨op, nodes'⟩, s₃, hresolve, h⟩ := bind_eq_ok.mp h
  cases h
  -- a tail of `if` waits only where the form without `else` was chosen
  obtain ⟨rfl, rfl⟩ := Waiting.tail.inj (Pending.waiting.inj (Option.some.inj hchoice))
  have hresolve := holding_eq_ok.mp hresolve
  obtain ⟨htext, hleading⟩ := eq_if_of_mem (mem_of_resolveFrom hresolve)
  rw [Bool.not_eq_true'] at hleading
  -- `if` leads its sequence and takes nothing from the operands
  rw [leftOperand, if_neg (by simp [hleading])] at hleft
  cases hleft
  rw [htext, hleading] at hresolve
  obtain ⟨condition, t, operand, stop, hcondition, hthen, hoperand, hmissing, rfl, rfl⟩ :=
    resolveFrom_ifThen hresolve
  have hstart : (t.cursor.advance 1).Proper := by
    have hproper := (parseFrame_within (hcursor.advance 1) hcondition).proper
    exact hproper.advance 1
  refine ⟨condition, { t with cursor := t.cursor.advance 1 }, operand, stop,
    ⟨⟨t, hcondition, hthen, rfl⟩, hoperand, hmissing⟩, hleading, rfl, ?_⟩
  -- the rewind goes back to where the trial started
  rw [(Cursor.Within.refl hstart).seek_pos (parseFrame_within hstart hoperand)]

/-- Going back over a missing `else` cannot be seen: the trial leaves the tuples as they were, and
what is read on top of the operator afterwards is the operand that was given up. -/
theorem exists_unseen_trial {f f' : Frame} {token : Token} {s s₂ : ParseState}
    {nodes : List Node} (hs : s.store.Sound) (hcursor : s.cursor.Regular)
    (hwords : ∀ w ∈ f.terminators, Operator.Continues w)
    (hrun : resolveSequence scope (parseFrame scope levels) f
      (Operator.sequencesStarting token.text !f.lastOperand) token s = .ok f' s₂)
    (hchoice : f'.pending.head? = some (.waiting (.tail .ifThen nodes))) :
    ∃ condition start operand stop, f.Trial scope levels s condition start operand stop ∧
      f.lastOperand = false ∧ f' = f.await (.tail .ifThen [condition]) ∧
      s₂.cursor = start.cursor ∧ start.store.Unchanged s₂.store ∧
      ∀ out rounds root s₃, s.store.Anchored scope out → (Store.youngAt out).Holds s₃.store →
        run scope levels (parseFrame scope levels) rounds f' s₂ = .ok root s₃ →
        ∃ tree binding trailing rounds₁ rounds₂ s₄, binding.op = .ifThen ∧
          run scope levels (parseFrame scope levels) rounds₁ { terminators := f.terminators } s₂ =
            .ok trailing s₄ ∧
          stop.store.Means [operand] [tree] ∧ s₄.store.Means [trailing] [tree] ∧
          s₄.cursor = stop.cursor ∧ run scope levels (parseFrame scope levels) rounds₂
            (f.pushOperand (.apply binding [condition, trailing])) s₄ = .ok root s₃ := by
  obtain ⟨condition, start, operand, stop, htrial, hlast, rfl, rfl⟩ :=
    exists_trial hcursor.proper hrun hchoice
  obtain ⟨⟨t, hcondition, -, hstart⟩, hoperand, hmissing⟩ := id htrial
  have hsound : start.store.Sound := by
    have hsound : t.store.Sound :=
      sound_of_parseFrame (s := { s with cursor := s.cursor.advance 1 }) hs hcondition
    rwa [hstart]
  obtain ⟨hnothing, hback⟩ := enlarges_releaseNode hsound hoperand
  refine ⟨condition, start, operand, stop, htrial, hlast, rfl, rfl, hnothing.unchanged, ?_⟩
  intro out rounds root s₃ hscope hyoung hrest
  have hsees := hscope.sees
  -- on top of the operator that waits there is nothing yet
  have hbelow : ({ terminators := f.terminators } : Frame).atop
      (f.await (.tail .ifThen [condition])) = f.await (.tail .ifThen [condition]) := rfl
  rw [← hbelow] at hrest
  have hawaits : ∀ w ∈ (f.await (.tail .ifThen [condition])).terminators,
    Operator.Continues w := hwords
  obtain ⟨rounds₁, trailing, s₄, hagain, hstops, rounds₂, hrest⟩ :=
    run_atop (f := { terminators := f.terminators }) hawaits (sober_parseFrame scope levels)
      (loose_ifThen f [condition]) rfl (.start _) hrest
  -- no slot has begun anew in the end, so none has before
  have hages (rounds : Nat) (f : Frame) :
    Ages (run scope levels (parseFrame scope levels) rounds f) :=
    ages_run (ages_parseFrame scope levels) levels rounds f
  have hyoung₄ := (Store.youngAt out).early ((hages _ _).of_ok hrest) hyoung
  have hyoung₂ := (Store.youngAt out).early ((hages _ _).of_ok hagain) hyoung₄
  have hyoungStop := (Store.youngAt out).early (.releaseAll stop.store _) hyoung₂
  have hyoungStart : (Store.youngAt out).Holds t.store := by
    have hyoungStart := (Store.youngAt out).early hback.ages hyoung₂
    rwa [hstart] at hyoungStart
  -- the condition enlarges the store, and what the trial leaves enlarges it further
  obtain ⟨-, -, hregular, henlarges, -⟩ := (parses_parseFrame hsees levels _
    { s with cursor := s.cursor.advance 1 } (.refl hs) (hcursor.advance 1)).of_ok hcondition
      hyoungStart
  have hcursor' : start.cursor.Regular := hstart ▸ hregular.advance 1
  replace henlarges : s.store.Enlarges start.store := hstart ▸ henlarges
  obtain ⟨hstop, tree, hmeans, hmeans'⟩ := reads_again hsees
    (s := ⟨stop.store.releaseNode operand, start.cursor⟩) henlarges (henlarges.trans hback)
    hcursor' rfl hoperand hmissing hagain hyoungStop hyoung₄
  obtain ⟨node, s₅, hbind, hrest⟩ := run_await hwords hstops hrest
  obtain ⟨rfl, binding, hop, rfl⟩ := bind_ifThen hbind
  exact ⟨tree, binding, trailing, rounds₁, rounds₂, s₅, hop, hagain, hmeans, hmeans', hstop, hrest⟩

end Frame

end TupleLang
