import TupleLang.Proofs.Onward

/-!
# Going on to the end of input

A parser does what the direct one does, so it passes the same tokens: each turn of a frame that does
not end it moves the cursor on, and so does every statement. The rounds of the loops are never used
up; what is reported is always about the source.
-/

namespace TupleLang

open ParseM

namespace Parser

variable {α : Type} {scope : TupleId} {levels errors : Nat} {p : Parser}

/-! ## Parts of a statement -/

/-- Where a part goes well, the cursor has moved on. Otherwise one error has been noted, and it is
not that a loop makes no progress. -/
def MovesOn (p : Parser) (well : Bool) (p' : Parser) : Prop :=
  if well then p.cursor.pos < p'.cursor.pos
  else ∃ message span, p'.pending = p.pending ++ [(message, span)] ∧
    message ≠ "parsing makes no progress"

/-- Where the direct parser passes a token, the parser moves on. -/
theorem Follows.movesOn {m : StateM Parser (Option α)} {q : ParseM α}
    (hm : Follows scope levels errors m q) (hp : p.At scope levels errors)
    (hpasses : q.Reaches p.cursor 1 p.plain) (hsober : Sober q) :
    p.MovesOn (m p).1.isSome (m p).2 := by
  have hrun := hm p hp
  unfold Reaches at hpasses
  cases hq : q p.plain with
  | ok a s =>
    simp only [hq] at hrun hpasses
    rw [hrun.1]
    exact hpasses.passes
  | error e s =>
    simp only [hq] at hrun hpasses
    rw [hrun]
    exact ⟨_, _, rfl, (hsober.of_error hq).message_ne hpasses⟩

/-- Where the direct parser passes a token, a part that works on a frame moves on if it goes well.
-/
theorem Takes.lt_of_done {m : StateM Parser (Bool × Frame)} {q : ParseM Frame}
    (hm : Takes scope levels errors m q) (hp : p.At scope levels errors)
    (hpasses : q.Reaches p.cursor 1 p.plain) (hdone : (m p).1.1 = true) :
    p.cursor.pos < (m p).2.cursor.pos := by
  obtain ⟨s, hq, hs⟩ := hm.of_done hp (Prod.ext (Prod.ext hdone rfl) rfl)
  unfold Reaches at hpasses
  rw [hq] at hpasses
  exact Nat.lt_of_lt_of_eq hpasses.passes (congrArg (·.cursor.pos) hs.symm)

/-- Where the direct parser passes a token, a part that works on a frame moves on. -/
theorem Takes.movesOn {m : StateM Parser (Bool × Frame)} {q : ParseM Frame} {Q : Frame → Prop}
    (hm : Takes scope levels errors m q) (hp : p.At scope levels errors)
    (hpasses : q.Reaches p.cursor 1 p.plain) (hq : Finds q Q) :
    p.MovesOn (m p).1.1 (m p).2 := by
  cases hdone : (m p).1.1 with
  | true => exact hm.lt_of_done hp hpasses hdone
  | false =>
    have hrun := hm p hp
    rw [orGiveUp_run, hdone, if_neg Bool.false_ne_true] at hrun
    unfold Reaches at hpasses
    cases hres : q p.plain with
    | ok f s =>
      simp only [hres] at hrun
      cases (Prod.mk.inj hrun.1).1
    | error e s =>
      simp only [hres] at hrun hpasses
      -- giving up the frame leaves the errors as they are
      have hpending := congrArg Parser.pending (Prod.mk.inj hrun).2
      exact ⟨_, _, hpending, (hq.of_error hres).message_ne hpasses⟩

/-- A turn of a frame that does not end it moves the cursor on. -/
theorem step_movesOn (hcursor : p.cursor.Proper) (f : Frame)
    (hends : f.endsAt p.cursor.current = false) :
    let turn := step p.fuel (parseFrame p.fuel) f p.cursor.current p
    (turn.1.1 = true → p.cursor.pos < turn.2.cursor.pos) ∧
      (f.Balanced → p.MovesOn turn.1.1 turn.2) := by
  have hcurrent : p.cursor.current.kind.endsStatement = false := by
    simp only [Frame.endsAt, Bool.or_eq_false_iff] at hends
    exact hends.1
  have htakes : Takes p.scope p.levelsLeft p.pending.length
      (step p.fuel (parseFrame p.fuel) f p.cursor.current)
      (Frame.step p.scope p.levelsLeft (TupleLang.parseFrame p.scope p.levelsLeft) f
        p.cursor.current) :=
    takes_step (follows_parseFrame p.levelsLeft) f p.cursor.current
  have hpasses : (Frame.step p.scope p.levelsLeft (TupleLang.parseFrame p.scope p.levelsLeft) f
      p.cursor.current).Reaches p.cursor 1 p.plain :=
    Frame.reaches_step (passes_parseFrame p.scope p.levelsLeft) p.levelsLeft f
      (s := p.plain) hcursor
      (TokenKind.ne_eof hcurrent)
  refine ⟨htakes.lt_of_done (.self p) hpasses, fun hf => ?_⟩
  exact htakes.movesOn (.self p) hpasses
    (Frame.finds_step (sober_parseFrame p.scope p.levelsLeft) hf hends p.levelsLeft)

/-- A frame that succeeds has passed a token. -/
theorem parseFrame_movesOn (hcursor : p.cursor.Proper) (terminators : List String) :
    let frame := parseFrame p.fuel terminators p
    p.MovesOn frame.1.isSome frame.2 :=
  (follows_parseFrame _ terminators).movesOn (.self p)
    (passes_parseFrame p.scope _ terminators p.plain hcursor)
      (sober_parseFrame p.scope _ terminators)

/-- Where nothing of a statement is left, its end is under the cursor. -/
theorem endsStatement_of_statementRest {c : Cursor} (hc : c.Proper)
    (h : c.statementRest = 0) : c.current.kind = .semicolon ∨ c.current.kind = .eof := by
  have hends : c.current.kind.endsStatement = true := by
    refine Bool.eq_true_of_not_eq_false fun hends => ?_
    have hle : 1 ≤ c.statementRest := by
      refine Cursor.le_statementRest hc fun i hi => ?_
      obtain rfl : i = 0 := by omega
      exact hends
    omega
  cases hkind : c.current.kind <;> simp_all [TokenKind.endsStatement]

/-- A frame that fails leaves the cursor where a statement ends. -/
theorem parseFrame_endsStatement (hcursor : p.cursor.Proper)
    {terminators : List String} {p' : Parser}
    (hrun : parseFrame p.fuel terminators p = (none, p')) :
    p'.cursor.current.kind = .semicolon ∨ p'.cursor.current.kind = .eof := by
  have hfollows := follows_parseFrame p.levelsLeft terminators p (.self p)
  have hskips := skips_parseFrame p.scope p.levelsLeft terminators
    (s := p.plain) (.refl hcursor)
  unfold Skips at hskips
  rw [fuel] at hrun
  cases hres : TupleLang.parseFrame p.scope p.levelsLeft terminators
      p.plain with
  | ok node s =>
    simp only [hres, hrun] at hfollows
    cases (Prod.mk.inj hfollows.1).1
  | error e s =>
    simp only [hres, hrun] at hfollows hskips
    rw [(Prod.mk.inj hfollows).2]
    exact endsStatement_of_statementRest hskips.1.proper hskips.2

/-- A value takes at least one token. -/
theorem read_movesOn (hcursor : p.cursor.Proper) :
    let value := read p.fuel p
    p.MovesOn value.1.isSome value.2 :=
  (follows_read _).movesOn (.self p) (ValueReader.passes_read p.scope _ p.plain hcursor)
    (ValueReader.sober_read p.scope _)

/-! ## All statements -/

/-- Parsing statement after statement up to a token for the end of input, wherever that stands. Each
statement moves the cursor on. -/
inductive StatementRun : Parser → List Node → Parser → Prop
  | done {p : Parser} : p.cursor.current.kind = .eof → StatementRun p [] p
  | semicolon {p t : Parser} {roots : List Node} :
      p.cursor.current.kind = .semicolon → StatementRun p.next roots t → StatementRun p roots t
  | statement {p p' t : Parser} {root : Option Node} {roots : List Node} :
      p.cursor.current.kind.endsStatement = false → statement p = (root, p') →
      p.cursor.pos < p'.cursor.pos → StatementRun p' roots t →
      StatementRun p (root.toList ++ roots) t

/-- A run comes to an end of input. -/
theorem StatementRun.current_eof {p t : Parser} {roots : List Node} (h : StatementRun p roots t) :
    t.cursor.current.kind = .eof := by
  induction h with
  | done hkind => exact hkind
  | semicolon _ _ ih => exact ih
  | statement _ _ _ _ ih => exact ih

/-- No loop has used up its rounds so far. -/
def Unstalled (p : Parser) : Prop := "parsing makes no progress" ∉ p.errors

/-- A statement moves the cursor on, whether it succeeds or fails, and no loop stalls. -/
theorem statement_advances (hp : p.Between scope) (hcursor : p.cursor.Proper)
    (hcurrent : p.cursor.current.kind.endsStatement = false) (hunstalled : p.Unstalled) :
    let p' := (statement p).2
    p'.Between scope ∧ p'.cursor.Proper ∧ p'.Unstalled ∧ p.cursor.pos < p'.cursor.pos ∧
      p'.cursor.remaining < p.cursor.remaining := by
  have hpositive := Cursor.statementRest_pos hcursor hcurrent
  -- the end of the statement is further on
  have hmoves : ∀ {c : Cursor}, p.cursor.Within c → c.statementRest = 0 →
      c.Proper ∧ p.cursor.pos < c.pos ∧ c.remaining < p.cursor.remaining := by
    intro c hwithin hzero
    refine ⟨hwithin.proper, ?_, hwithin.remaining_lt hzero hpositive⟩
    rw [hwithin.pos_eq hzero]
    exact Nat.lt_add_of_pos_right hpositive
  have hwithin := parseStatement_within scope (s := p.plain) hcursor
  have hpasses := passes_parseStatement scope p.plain hcursor
  unfold Reaches at hpasses
  have hstatement := statement_run hp
  cases hrun : parseStatement scope p.plain with
  | ok node s =>
    simp only [hrun] at hwithin hstatement
    rw [hstatement]
    obtain ⟨hproper, hlt, hremaining⟩ := hmoves hwithin.1 hwithin.2
    exact ⟨hp.moved s, hproper, hunstalled, hlt, hremaining⟩
  | error e s =>
    simp only [hrun] at hwithin hstatement hpasses
    rw [hstatement]
    obtain ⟨hproper, hlt, hremaining⟩ := hmoves hwithin.1 hwithin.2
    refine ⟨(hp.moved s).reported e, hproper, fun hmem => ?_, hlt, hremaining⟩
    rcases List.mem_append.mp hmem with hmem | hmem
    · exact hunstalled hmem
    · exact ((sober_parseStatement scope).of_error hrun).message_ne hpasses
        (List.mem_singleton.mp hmem).symm

/-- With as many rounds as there are tokens, the statements are parsed to the end of input. -/
theorem statements_statementRun (rounds : Nat) (roots : List Node) {p : Parser}
    (hp : p.Between scope)
    (hcursor : p.cursor.Proper) (hunstalled : p.Unstalled) (hrounds : p.cursor.remaining < rounds) :
    ∃ more t, StatementRun p more t ∧ t.Between scope ∧ t.Unstalled ∧
      statements rounds roots p = (roots ++ more, t) := by
  induction rounds generalizing roots p with
  | zero => omega
  | succ rounds ih =>
    rw [statements_succ]
    by_cases hend : p.cursor.atEnd = true
    · rw [if_pos hend]
      have heof : p.cursor.current.kind = .eof := by simpa [Cursor.atEnd] using hend
      exact ⟨[], p, .done heof, hp, hunstalled, congrArg (·, p) (List.append_nil roots).symm⟩
    · rw [if_neg hend]
      have heof : p.cursor.current.kind ≠ .eof := by simpa [Cursor.atEnd] using hend
      by_cases hsemicolon : (p.cursor.current.kind == .semicolon) = true
      · rw [if_pos hsemicolon]
        have hnext := (Cursor.Onward.refl hcursor).advance heof Nat.one_pos
        obtain ⟨more, t, hrun, ht⟩ := ih roots (hp.moved p.next.plain) hnext.proper hunstalled
          (Nat.lt_of_lt_of_le hnext.remaining_le (Nat.le_of_lt_succ hrounds))
        exact ⟨more, t, .semicolon (beq_iff_eq.mp hsemicolon) hrun, ht⟩
      · rw [if_neg hsemicolon]
        have hcurrent : p.cursor.current.kind.endsStatement = false := by
          cases hkind : p.cursor.current.kind <;> simp_all [TokenKind.endsStatement]
        obtain ⟨hp', hcursor', hunstalled', hlt, hremaining⟩ :=
          statement_advances hp hcursor hcurrent hunstalled
        obtain ⟨⟨root, p'⟩, hres⟩ : ∃ run, statement p = run := ⟨_, rfl⟩
        rw [hres] at hp' hcursor' hunstalled' hlt hremaining ⊢
        -- the rest is parsed from where the statement ends, with one round fewer
        obtain ⟨more, t, hrun, ht, ht', hparsed⟩ :=
          ih (roots ++ root.toList) hp' hcursor' hunstalled' (Nat.lt_of_lt_of_le hremaining
            (Nat.le_of_lt_succ hrounds))
        refine ⟨root.toList ++ more, t, .statement hcurrent hres hlt hrun, ht, ht', ?_⟩
        rw [← List.append_assoc]
        exact hparsed

end Parser

/-- No value is given up because a loop makes no progress. -/
theorem parseValue_unstalled (store : Store) (scope : TupleId) {cursor : Cursor}
    (hcursor : cursor.Proper) :
    ∀ d ∈ (parseValue store scope cursor).diagnostics, d.message ≠ "parsing makes no progress" := by
  have hpasses := ValueReader.passes_read scope store.settings.maxDepth ⟨store, cursor⟩ hcursor
  unfold Reaches at hpasses
  rw [parseValue_eq]
  cases hres : ValueReader.read scope store.settings.maxDepth ⟨store, cursor⟩ with
  | ok cell s => exact fun d hd => absurd hd List.not_mem_nil
  | error e s =>
    simp only [hres] at hpasses
    intro d hd
    rw [List.mem_singleton.mp hd]
    exact ((ValueReader.sober_read scope _).of_error hres).message_ne hpasses

/-- Parsing makes progress on any tokens, from any place, whatever the parser has done before. Each
turn of a frame that does not end it moves the cursor on; a frame that succeeds has passed a token,
and one that fails leaves the cursor at a semicolon or an end of input. No frame, value or statement
runs out of rounds, and parsing an expression comes to an end of input. -/
theorem parsing_makes_progress {before : Parser}
    (hscope : before.store.contains before.scope = true) (tokens : List Token) (place : Nat) :
    let p : Parser := { before with cursor := (Cursor.ofTokens tokens).seek place }
    (∀ f : Frame, f.endsAt p.cursor.current = false →
      let turn := Parser.step p.fuel (Parser.parseFrame p.fuel) f p.cursor.current p
      (turn.1.1 = true → p.cursor.pos < turn.2.cursor.pos) ∧
        (f.Balanced → p.MovesOn turn.1.1 turn.2)) ∧
    (∀ terminators,
      let frame := Parser.parseFrame p.fuel terminators p
      p.MovesOn frame.1.isSome frame.2 ∧
        (frame.1 = none →
          frame.2.cursor.current.kind = .semicolon ∨ frame.2.cursor.current.kind = .eof)) ∧
    (let value := Parser.read p.fuel p
     p.MovesOn value.1.isSome value.2) ∧
    (∀ d ∈ (parseValue p.store p.scope p.cursor).diagnostics,
      d.message ≠ "parsing makes no progress") ∧
    let start : Parser := { store := p.store, scope := p.scope, cursor := p.cursor }
    let parsed := Expression.parse p.store p.scope p.cursor
    ∃ roots t, Parser.StatementRun start roots t ∧ t.pending = [] ∧ t.Unstalled ∧
      Parser.statements (p.cursor.remaining + 1) [] start = (roots, t) ∧
      parsed.diagnostics = t.sink.items ∧ parsed.cursor = t.cursor ∧
      parsed.cursor.current.kind = .eof := by
  intro p
  have hcursor : p.cursor.Proper := ⟨Nat.min_le_right _ _, rfl⟩
  refine ⟨fun f hends => Parser.step_movesOn hcursor f hends, fun terminators => ?_,
    Parser.read_movesOn hcursor, parseValue_unstalled _ _ hcursor, ?_⟩
  · refine ⟨Parser.parseFrame_movesOn hcursor terminators, fun hnone => ?_⟩
    exact Parser.parseFrame_endsStatement hcursor (Prod.ext hnone rfl)
  · intro start parsed
    -- there are more rounds than tokens, so the statements end before the rounds do
    obtain ⟨roots, t, hrun, ht, hunstalled, hstatements⟩ := Parser.statements_statementRun
      (p := start) (p.cursor.remaining + 1) [] (.start _ p.scope _) hcursor
      (List.not_mem_nil) (Nat.lt_succ_self _)
    rw [List.nil_append] at hstatements
    have hparsed : parsed = _ := Expression.parse_of_statements hscope hstatements ht.pending
    have hboth : parsed.diagnostics = t.sink.items ∧ parsed.cursor = t.cursor := by
      rw [hparsed]
      split <;> exact ⟨rfl, rfl⟩
    exact ⟨roots, t, hrun, ht.pending, hunstalled, hstatements, hboth.1, hboth.2,
      hboth.2 ▸ hrun.current_eof⟩

/-- Unrecognized input in front of an end of input that stands among other tokens. -/
theorem parsing_makes_progress_bare :
    let tokens : List Token := [⟨.invalid, "$", {}⟩, ⟨.eof, "", {}⟩, ⟨.semicolon, ";", {}⟩]
    (Store.bare {}).contains ⟨0, 0⟩ = true ∧
      (Expression.parse (Store.bare {}) ⟨0, 0⟩
        ((Cursor.ofTokens tokens).seek 0)).cursor.current.kind = .eof := by
  intro tokens
  let before : Parser := { store := Store.bare {}, scope := ⟨0, 0⟩, cursor := Cursor.ofTokens [] }
  have hscope : before.store.contains before.scope = true := rfl
  obtain ⟨-, -, -, -, roots, t, -, -, -, -, -, -, heof⟩ :=
    parsing_makes_progress hscope tokens 0
  exact ⟨hscope, heof⟩

end TupleLang
