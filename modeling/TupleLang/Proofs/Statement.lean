import TupleLang.Proofs.FollowingParser

/-!
# Statements

Every function of the parser stays within the statement in which it begins, and a statement leaves
the cursor at the token that ends it. So the statements of a source text are what stands between its
semicolons, and each of them counts once (`parse_counts_segments_once`).
-/

namespace TupleLang

open ParseM

/-- Operators and keywords do not end a statement. -/
theorem Token.endsStatement_of_isWord {t : Token} {text : String} (h : t.isWord text = true) :
    t.kind.endsStatement = false := by
  simp only [isWord, Bool.and_eq_true, Bool.or_eq_true, beq_iff_eq] at h
  rcases h.1 with hkind | hkind <;> rw [hkind] <;> rfl

/-- Literals do not end a statement. -/
theorem TokenKind.endsStatement_of_isLiteral {k : TokenKind} (h : k.isLiteral = true) :
    k.endsStatement = false := by
  cases k <;> simp_all [isLiteral, endsStatement]

/-! ## Types and values -/

namespace TypeReader

theorem stays_name : Stays name := by
  intro c s hs
  refine .current_bind (.peek_bind ?_)
  split
  · rename_i h
    simp only [Bool.and_eq_true, beq_iff_eq] at h
    refine .advance_two_bind hs (by rw [h.1]; rfl) (Token.endsStatement_of_isWord h.2) ?_
    exact fun s' hs' => (Still.pure _).keeps hs'
  · exact (Still.pure _).keeps hs

theorem stays_element {nested : ParseM TypeDesc} (hnested : Stays nested) :
    Stays (element nested) := by
  intro c s hs
  refine .current_bind ?_
  -- none of the tokens that are passed ends a statement
  split
  · rename_i hkind
    exact .advance_bind hs (by rw [hkind]; rfl) fun s' hs' => hnested c s' hs'
  · rename_i hkind
    exact .advance_bind hs (by rw [hkind]; rfl) fun s' hs' => hnested c s' hs'
  · rename_i hkind
    exact .advance_bind hs (by rw [hkind]; rfl) fun s' hs' => (Still.pure _).keeps hs'
  · rename_i hkind
    exact .advance_bind hs (by rw [hkind]; rfl) fun s' hs' => (Still.pure _).keeps hs'
  · exact (Still.complain _ _).keeps hs

theorem stays_elements {nested : ParseM TypeDesc} (hnested : Stays nested) (rounds : Nat)
    (fields : List TypeDesc.Field) (comma : Bool) :
    Stays (elements nested rounds fields comma) := by
  induction rounds generalizing fields comma with
  | zero => exact (Still.throw _).stays
  | succ rounds ih =>
    intro c s hs
    unfold elements
    refine .current_bind ?_
    split
    · rename_i h
      rw [beq_iff_eq] at h
      exact .advance_bind hs (by rw [h]; rfl) fun s' hs' => (Still.pure _).keeps hs'
    · refine .bind (stays_name c s hs) fun name s hs => ?_
      refine .bind (stays_element hnested c s hs) fun type s hs => .current_bind ?_
      split
      · rename_i hkind
        exact .advance_bind hs (by rw [hkind]; rfl) fun s' hs' => ih _ _ c s' hs'
      · rename_i hkind
        exact .advance_bind hs (by rw [hkind]; rfl) fun s' hs' => (Still.pure _).keeps hs'
      · exact (Still.complainHere _).keeps hs

theorem stays_body (levels : Nat) : Stays (body levels) := by
  induction levels with
  | zero => exact (Still.tooDeep _).stays
  | succ levels ih => exact fun c s hs => stays_elements ih _ [] false c s hs

end TypeReader

namespace ValueReader

theorem still_scalar (token : Token) (negative : Bool) : Still (scalar token negative) := by
  unfold scalar
  split
  · exact .onStore _
  · exact .complain _ _

theorem still_build (scope : TupleId) (kind : TupleKind) (entries : List (Option String × Cell)) :
    Still (build scope kind entries) :=
  .onStore _

theorem stays_value {levels : Nat} {tuple : TupleKind → ParseM Cell}
    (htuple : ∀ kind, Stays (tuple kind)) : Stays (value levels tuple) := by
  intro c s hs
  refine .current_bind ?_
  split
  · rename_i hkind
    exact .advance_bind hs (by rw [hkind]; rfl) fun s' hs' => htuple _ c s' hs'
  · rename_i hkind
    exact .advance_bind hs (by rw [hkind]; rfl) fun s' hs' => htuple _ c s' hs'
  · rename_i hkind
    exact .advance_bind hs (by rw [hkind]; rfl) fun s' hs' => htuple _ c s' hs'
  · rename_i hkind
    refine .advance_bind hs (by rw [hkind]; rfl) fun s hs => ?_
    exact .bind (TypeReader.stays_body levels c s hs) fun type s hs => (Still.onStore _).keeps hs
  · rename_i hkind
    exact .advance_bind hs (by rw [hkind]; rfl) fun s' hs' => (Still.onStore _).keeps hs'
  · split
    · rename_i hminus
      simp only [Bool.and_eq_true, beq_iff_eq] at hminus
      refine .peek_bind ?_
      split
      · rename_i hnumber
        refine .advance_two_bind hs (by rw [hminus.1]; rfl) ?_ fun s' hs' =>
          (still_scalar _ _).keeps hs'
        simp only [Bool.or_eq_true, beq_iff_eq] at hnumber
        -- a number behind the minus ends no statement either
        rcases hnumber with (hkind | hkind) | hkind <;> rw [hkind] <;> rfl
      · exact (Still.complain _ _).keeps hs
    · split
      · rename_i hliteral
        refine .advance_bind hs (TokenKind.endsStatement_of_isLiteral hliteral) fun s' hs' => ?_
        exact (still_scalar _ _).keeps hs'
      · exact (Still.complain _ _).keeps hs

theorem stays_name : Stays name := by
  intro c s hs
  refine .current_bind (.peek_bind ?_)
  split
  · rename_i h
    simp only [Bool.and_eq_true, Bool.or_eq_true, beq_iff_eq] at h
    refine .advance_two_bind hs (by rw [h.1]; rfl) ?_ fun s' hs' => (Still.pure _).keeps hs'
    rcases h.2 with h | h
    · exact Token.endsStatement_of_isWord h
    · exact Token.endsStatement_of_isWord h
  · exact (Still.pure _).keeps hs

theorem stays_element {value nested : ParseM Cell} (hvalue : Stays value)
    (hnested : Stays nested) : Stays (element value nested) := by
  intro c s hs
  refine .current_bind ?_
  split
  · rename_i h
    rw [beq_iff_eq] at h
    exact .advance_bind hs (by rw [h]; rfl) fun s' hs' => hnested c s' hs'
  · exact hvalue c s hs

theorem stays_elements {scope : TupleId} {kind : TupleKind} {value nested : ParseM Cell}
    (hvalue : Stays value) (hnested : Stays nested) (rounds : Nat)
    (entries : List (Option String × Cell)) :
    Stays (elements scope kind value nested rounds entries) := by
  induction rounds generalizing entries with
  | zero => exact ((Still.throw _).holdingCells _).stays
  | succ rounds ih =>
    intro c s hs
    unfold elements
    refine .current_bind ?_
    split
    · rename_i h
      rw [beq_iff_eq] at h
      exact .advance_bind hs (by rw [h]; rfl) fun s' hs' => (still_build _ _ _).keeps hs'
    · refine .bind (stays_name c s hs) fun name s hs => ?_
      have helement := (stays_element hvalue hnested c s hs).holdingCells (entries.map (·.2))
      refine .bind helement fun cell s hs => .current_bind ?_
      split
      · rename_i hkind
        exact .advance_bind hs (by rw [hkind]; rfl) fun s' hs' => ih _ c s' hs'
      · rename_i hkind
        exact .advance_bind hs (by rw [hkind]; rfl) fun s' hs' => (still_build _ _ _).keeps hs'
      · exact ((Still.complainHere _).holdingCells _).keeps hs

theorem stays_tuple (scope : TupleId) (levels : Nat) (kind : TupleKind) :
    Stays (tuple scope levels kind) := by
  induction levels generalizing kind with
  | zero => exact (Still.tooDeep _).stays
  | succ levels ih => exact fun c s hs => stays_elements (stays_value ih) (ih kind) _ [] c s hs

theorem stays_read (scope : TupleId) (levels : Nat) : Stays (read scope levels) :=
  stays_value (stays_tuple scope levels)

end ValueReader

/-! ## Operators -/

/-- Binding a draft reads nothing. -/
theorem Draft.still_bind (scope : TupleId) (draft : Draft) (span : Span) :
    Still (draft.bind scope span) := by
  -- binding reads no token
  have hcoerce : Still (draft.coerceTypeOperand scope) := by
    unfold coerceTypeOperand
    refine .ite (.bind .store fun st => ?_) (.pure _)
    split
    · exact .bind (.onStore _) fun _ => .pure _
    · exact .pure _
  unfold Draft.bind
  refine .bind hcoerce fun d => .bind .store fun st => ?_
  split
  · exact .pure _
  · exact (Still.complain _ _).holding _
  · split
    · exact .bind (.onStore _) fun _ => .pure _
    · exact (Still.complain _ _).holding _

namespace Frame

variable {scope : TupleId}

/-- Nor does completing an operator. -/
theorem still_reduce (f : Frame) (w : Waiting) : Still (reduce scope f w) := by
  -- both forms complain about an operand that is missing, or bind
  have hmissing : ∀ message span, Still
      (holding f.held (holding w.inner (complain message span)) : ParseM Frame) :=
    fun _ _ => ((Still.complain _ _).holding _).holding _
  have hbind : ∀ (draft : Draft) (span : Span) (f : Frame), Still
      (do return { f with operands := (← holding f.held (draft.bind scope span)) :: f.operands } :
        ParseM Frame) :=
    fun _ _ f => .bind ((Draft.still_bind _ _ _).holding f.held) fun _ => .pure _
  unfold reduce
  refine .bind .current fun token => ?_
  cases w with
  | single op => exact .ite (hmissing _ _) (hbind _ _ _)
  | tail op inner =>
    dsimp only
    split
    · exact hmissing _ _
    · exact hbind _ _ _

theorem still_reduceWhile (precedence : Nat) (f : Frame) (pending : List Pending) :
    Still (reduceWhile scope precedence f pending) := by
  induction pending generalizing f with
  | nil => exact .pure _
  | cons p rest ih =>
    cases p with
    | opening => exact .pure _
    | waiting w =>
      unfold reduceWhile
      exact .ite (.bind (still_reduce _ w) fun f' => ih f') (.pure _)

/-- Nor does closing a group. -/
theorem still_closeGroup (f : Frame) (pending : List Pending) :
    Still (closeGroup scope f pending) := by
  induction pending generalizing f with
  | nil => exact (Still.complainHere _).holding _
  | cons p rest ih =>
    cases p with
    | opening => exact .pure _
    | waiting w => exact .bind (still_reduce _ w) fun f' => ih f'

theorem still_closeAll (f : Frame) (pending : List Pending) :
    Still (closeAll scope f pending) := by
  induction pending generalizing f with
  | nil => exact .pure _
  | cons p rest ih =>
    cases p with
    | opening => exact (Still.complainHere _).holding _
    | waiting w => exact .bind (still_reduce _ w) fun f' => ih f'

/-- Nor does finishing a frame. -/
theorem still_finish (f : Frame) : Still (finish scope f) := by
  unfold finish
  refine .ite ((Still.complainHere _).holding _) (.bind (still_closeAll f f.pending) fun f' => ?_)
  split
  · exact .bind (.changeStore _) fun _ => .pure _
  · exact .complainHere _

theorem still_chooseSequence (opener : Token) (candidates : List Operator)
    (operands : List Node) : Still (chooseSequence opener candidates operands) := by
  unfold chooseSequence
  split
  · exact .pure _
  · exact (Still.complain _ _).holding _

/-- Nor does settling the left operand. -/
theorem still_leftOperand (f : Frame) (candidates : List Operator) (token : Token) :
    Still (leftOperand scope f candidates token) := by
  unfold leftOperand
  refine .ite (.bind (still_reduceWhile _ f f.pending) fun f' => ?_) (.pure _)
  split
  · exact .pure _
  · exact (Still.complain _ _).holding _

theorem still_identifier (token : Token) : Still (identifier scope token) := by
  unfold identifier
  refine .bind .store fun st => ?_
  split
  · exact .pure _
  · exact .bind (.onStore _) fun _ => .pure _

/-- An operator goes on with an operator or a keyword. -/
theorem endsStatement_of_goesOnWith {step : Nat} {token : Token} {op : Operator}
    (h : goesOnWith step token op = true) : token.kind.endsStatement = false := by
  simp only [goesOnWith, Option.any_eq_true] at h
  obtain ⟨sub, -, hword⟩ := h
  exact Token.endsStatement_of_isWord hword

section Inner

variable {inner : List String → ParseM Node} (hinner : ∀ terminators, Stays (inner terminators))

include hinner

theorem stays_resolveFrom (terminators : List String) (opener : Token) (steps step : Nat)
    (candidates : List Operator) (operands : List Node) :
    Stays (resolveFrom inner terminators opener steps step candidates operands) := by
  induction steps generalizing step candidates operands with
  | zero => exact ((Still.throw _).holding _).stays
  | succ steps ih =>
    intro c s hs
    unfold resolveFrom
    dsimp only
    split
    · exact (still_chooseSequence _ _ _).keeps hs
    · refine .current_bind ?_
      split
      · rename_i op hfind
        have hdecides := List.find?_some hfind
        rw [Bool.and_eq_true] at hdecides
        exact .advance_bind hs (endsStatement_of_goesOnWith hdecides.1) fun s' hs' =>
          ih _ _ _ c s' hs'
      · split
        · exact (still_chooseSequence _ _ _).keeps hs
        · -- the place before the operand is remembered
          refine .position_bind ?_
          refine .bind ((hinner _ c s hs).holding operands) fun operand s' hs' => .current_bind ?_
          split
          · rename_i hsurvivors
            rw [Bool.not_eq_true', List.isEmpty_eq_false_iff_exists_mem] at hsurvivors
            obtain ⟨op, hop⟩ := hsurvivors
            have hgoes := (List.mem_filter.mp hop).2
            exact .advance_bind hs' (endsStatement_of_goesOnWith hgoes) fun s'' hs'' =>
              ih _ _ _ c s'' hs''
          · split
            · refine (Still.changeStore _).keeps_bind hs' fun _ s'' hcursor => ?_
              rw [← hcursor] at hs'
              exact .seek_bind hs hs' fun t ht => (still_chooseSequence _ _ _).keeps ht
            · exact ((Still.complain _ _).holding _).keeps hs'

theorem keeps_resolveSequence {c : Cursor} {s : ParseState} (f : Frame)
    (candidates : List Operator) (token : Token) (hs : c.Within s.cursor)
    (hcurrent : s.cursor.current.kind.endsStatement = false) :
    (resolveSequence scope inner f candidates token).Keeps c s := by
  refine (still_leftOperand f candidates token).keeps_bind hs fun r s' hcursor => ?_
  rw [← hcursor] at hs hcurrent
  refine .advance_bind hs hcurrent fun s'' hs'' => ?_
  exact .bind ((stays_resolveFrom hinner _ _ _ _ _ _ c s'' hs'').holding _) fun _ _ ht =>
    (Still.pure _).keeps ht

theorem keeps_operator {c : Cursor} {s : ParseState} (f : Frame) (token : Token)
    (hs : c.Within s.cursor) (hcurrent : s.cursor.current.kind.endsStatement = false) :
    (operator scope inner f token).Keeps c s := by
  unfold operator
  dsimp only
  split
  · exact keeps_resolveSequence hinner f _ token hs hcurrent
  · split
    · exact ((Still.complain _ _).holding _).keeps hs
    · refine .advance_bind hs hcurrent fun s' hs' => ?_
      split
      · exact (Still.bind ((Draft.still_bind _ _ _).holding _) fun _ => .pure _).keeps hs'
      · exact (Still.pure _).keeps hs'
      · exact (Still.bind (still_reduceWhile _ _ _) fun _ => .pure _).keeps hs'

/-! ## Operands -/

theorem stays_callArgs (callee : Token) (rounds : Nat) (args : List Node)
    (names : List (Option String)) : Stays (callArgs inner callee rounds args names) := by
  induction rounds generalizing args names with
  | zero => exact ((Still.throw _).holding _).stays
  | succ rounds ih =>
    intro c s hs
    unfold callArgs
    refine .bind (TypeReader.stays_name c s hs) fun name s hs => ?_
    refine .bind ((hinner [] c s hs).holding args) fun arg s hs => .current_bind ?_
    split
    · rename_i hkind
      exact .advance_bind hs (by rw [hkind]; rfl) fun s' hs' => ih _ _ c s' hs'
    · rename_i hkind
      exact .advance_bind hs (by rw [hkind]; rfl) fun s' hs' => (Still.pure _).keeps hs'
    · exact ((Still.complainHere _).holding _).keeps hs

theorem keeps_call {c : Cursor} {s : ParseState} (callee : Token) (hs : c.Within s.cursor)
    (hcallee : s.cursor.current.kind.endsStatement = false)
    (hopen : (s.cursor.peek 1).kind.endsStatement = false) :
    (call scope inner callee).Keeps c s := by
  refine .advance_two_bind hs hcallee hopen fun s hs => .current_bind ?_
  split
  · rename_i h
    rw [beq_iff_eq] at h
    refine .advance_bind hs (by rw [h]; rfl) fun s' hs' => ?_
    exact (Still.bind (.pure _) fun _ => Draft.still_bind _ _ _).keeps hs'
  · refine .rounds_bind (.bind (stays_callArgs hinner callee _ [] [] c s hs) fun r s' hs' => ?_)
    exact (Draft.still_bind _ _ _).keeps hs'

omit hinner in
theorem keeps_operand {c : Cursor} {s : ParseState} (levels : Nat) (hs : c.Within s.cursor) :
    (operand scope levels s.cursor.current).Keeps c s := by
  unfold operand
  split
  · exact (Still.complain _ _).keeps hs
  · exact (Still.complain _ _).keeps hs
  · exact .bind (ValueReader.stays_read scope levels c s hs) fun _ s' hs' =>
      (Still.pure _).keeps hs'
  · exact .bind (ValueReader.stays_read scope levels c s hs) fun _ s' hs' =>
      (Still.pure _).keeps hs'
  · split
    · rename_i hliteral
      refine .advance_bind hs (TokenKind.endsStatement_of_isLiteral hliteral) fun s' hs' => ?_
      exact (Still.bind (ValueReader.still_scalar _ _) fun _ => .pure _).keeps hs'
    · exact (Still.complain _ _).keeps hs

/-! ## Frames -/

/-- Taking in a token stays within the statement that the token belongs to. -/
theorem keeps_step {c : Cursor} {s : ParseState} (levels : Nat) (f : Frame)
    (hs : c.Within s.cursor) (hcurrent : s.cursor.current.kind.endsStatement = false) :
    (step scope levels inner f s.cursor.current).Keeps c s := by
  -- a complaint moves nothing
  have hcomplain : ∀ message span,
    (holding f.held (complain message span) : ParseM Frame).Keeps c s :=
    fun _ _ => ((Still.complain _ _).holding _).keeps hs
  have hpush : ∀ {m : ParseM Node}, m.Keeps c s →
      (do return f.pushOperand (← holding f.held m) : ParseM Frame).Keeps c s := by
    intro m hm
    exact .bind (hm.holding f.held) fun _ s' hs' => (Still.pure _).keeps hs'
  unfold step
  split
  · exact hcomplain _ _
  · split
    · exact hcomplain _ _
    · refine (still_closeGroup f f.pending).keeps_bind hs fun f' s' hcursor => ?_
      rw [← hcursor] at hs hcurrent
      exact .advance_bind hs hcurrent fun s'' hs'' => (Still.pure _).keeps hs''
  · split
    · exact hcomplain _ _
    · exact .advance_bind hs hcurrent fun s' hs' => (Still.pure _).keeps hs'
  · exact keeps_operator hinner f _ hs hcurrent
  · exact keeps_operator hinner f _ hs hcurrent
  · exact hcomplain _ _
  · split
    · exact hcomplain _ _
    · split
      · refine .peek_bind ?_
        split
        · rename_i hparen
          rw [beq_iff_eq] at hparen
          exact hpush (keeps_call hinner _ hs hcurrent (by rw [hparen]; rfl))
        · refine .advance_bind hs hcurrent fun s' hs' => ?_
          exact (Still.bind (still_identifier _) fun _ => .pure _).keeps hs'
      · exact hpush (keeps_operand levels hs)

/-- Reading on in a frame stays within the statement. -/
theorem stays_run (levels rounds : Nat) (f : Frame) :
    Stays (run scope levels inner rounds f) := by
  induction rounds generalizing f with
  | zero => exact ((Still.throw _).holding _).stays
  | succ rounds ih =>
    intro c s hs
    unfold run
    refine .current_bind ?_
    split
    · exact (still_finish f).keeps hs
    · rename_i hends
      -- a frame that goes on does not stand at the end of a statement
      have hcurrent : s.cursor.current.kind.endsStatement = false := by
        simp only [endsAt, Bool.or_eq_true, not_or] at hends
        simpa using hends.1
      exact .bind (keeps_step hinner levels f hs hcurrent) fun f' s' hs' => ih f' c s' hs'

end Inner

end Frame

/-- A frame stays within its statement, and is at the end of that once it has failed. -/
theorem skips_parseFrame (scope : TupleId) (levels : Nat) (terminators : List String) {c : Cursor}
    {s : ParseState} (hs : c.Within s.cursor) :
    (parseFrame scope levels terminators).Skips c s := by
  induction levels generalizing terminators c s with
  | zero => exact .onFailure ((Still.tooDeep _).keeps hs)
  | succ levels ih =>
    unfold parseFrame
    refine .onFailure (.rounds_bind ?_)
    exact Frame.stays_run (fun terminators c s hs => (ih terminators hs).keeps) levels _
      { terminators } c s hs

/-- A statement takes the cursor to the token that ends it, whether it succeeds or fails. -/
theorem parseStatement_within (scope : TupleId) {s : ParseState} (hs : s.cursor.Proper) :
    match parseStatement scope s with
    | .ok _ s' => s.cursor.Within s'.cursor ∧ s'.cursor.statementRest = 0
    | .error _ s' => s.cursor.Within s'.cursor ∧ s'.cursor.statementRest = 0 := by
  have hframe := skips_parseFrame scope s.store.settings.maxDepth [] (.refl hs)
  unfold Skips at hframe
  simp only [parseStatement, bind, EStateM.bind, ParseM.store, current, get, getThe,
    MonadStateOf.get, EStateM.get, pure, EStateM.pure]
  cases hres : parseFrame scope s.store.settings.maxDepth [] s with
  | error e s' =>
    rw [hres] at hframe
    exact hframe
  | ok node s' =>
    rw [hres] at hframe
    dsimp only at hframe ⊢
    -- the cursor is at the end of the statement, or goes there
    by_cases hends : s'.cursor.current.kind.endsStatement = true
    · rw [if_pos hends]
      exact ⟨hframe, Cursor.statementRest_eq_zero hends⟩
    · rw [if_neg hends]
      exact hframe.skipStatement

/-! ## Segments -/

/-- The tokens between semicolons. -/
def segments (tokens : List Token) : List (List Token) := tokens.splitOnP (·.kind == .semicolon)

/-- The parser behind the semicolon under the cursor; at the end of input nothing moves. -/
def Parser.next (p : Parser) : Parser := { p with cursor := p.cursor.advance 1 }

/-- Parsing segment after segment: an empty segment has no outcome, and any other one has exactly
one. Either it gives a root, and nothing is reported, or it gives none, and exactly one diagnostic
is reported. Either way no error is left that is not reported, and the cursor ends up right behind
the segment. -/
inductive Parser.SegmentRun :
    Parser → List (List Token) → List (Except Diagnostic Node) → Parser → Prop
  | done (p : Parser) : SegmentRun p [] [] p
  | empty {p t : Parser} {rest : List (List Token)} {outcomes : List (Except Diagnostic Node)} :
      SegmentRun p.next rest outcomes t → SegmentRun p ([] :: rest) outcomes t
  | root {p p' t : Parser} {segment : List Token} {rest : List (List Token)} {node : Node}
      {outcomes : List (Except Diagnostic Node)} :
      segment ≠ [] → p.statement = (some node, p') → p'.sink = p.sink → p'.errors = p.errors →
      p'.pending = [] → p'.cursor = p.cursor.advance segment.length →
      SegmentRun p'.next rest outcomes t → SegmentRun p (segment :: rest) (.ok node :: outcomes) t
  | failure {p p' t : Parser} {segment : List Token} {rest : List (List Token)} {d : Diagnostic}
      {outcomes : List (Except Diagnostic Node)} :
      segment ≠ [] → p.statement = (none, p') → p'.sink = p.sink.report d →
      p'.errors = p.errors ++ [d.message] → p'.pending = [] →
      p'.cursor = p.cursor.advance segment.length → SegmentRun p'.next rest outcomes t →
      SegmentRun p (segment :: rest) (.error d :: outcomes) t

/-- The roots among outcomes, in order. -/
def rootsOf (outcomes : List (Except Diagnostic Node)) : List Node :=
  outcomes.filterMap Except.toOption

/-- The failures among outcomes, in order. -/
def failuresOf (outcomes : List (Except Diagnostic Node)) : List Diagnostic :=
  outcomes.filterMap fun
    | .ok _ => none
    | .error d => some d

section Outcomes

variable (node : Node) (d : Diagnostic) (outcomes : List (Except Diagnostic Node))

@[simp] theorem rootsOf_ok : rootsOf (.ok node :: outcomes) = node :: rootsOf outcomes := rfl

@[simp] theorem rootsOf_error : rootsOf (.error d :: outcomes) = rootsOf outcomes := rfl

@[simp] theorem failuresOf_ok : failuresOf (.ok node :: outcomes) = failuresOf outcomes := rfl

@[simp] theorem failuresOf_error : failuresOf (.error d :: outcomes) = d :: failuresOf outcomes :=
  rfl

/-- Every outcome is a root or a failure. -/
theorem length_rootsOf_add :
    (rootsOf outcomes).length + (failuresOf outcomes).length = outcomes.length := by
  induction outcomes with
  | nil => rfl
  | cons outcome outcomes ih =>
    cases outcome with
    | ok node =>
      simp only [rootsOf_ok, failuresOf_ok, List.length_cons]
      omega
    | error e =>
      simp only [rootsOf_error, failuresOf_error, List.length_cons]
      omega

end Outcomes

namespace Parser.SegmentRun

variable {p t : Parser} {parts : List (List Token)} {outcomes : List (Except Diagnostic Node)}

/-- There are as many outcomes as there are segments that are not empty. -/
theorem length_eq (h : SegmentRun p parts outcomes t) :
    outcomes.length = (parts.filter (!·.isEmpty)).length := by
  induction h with
  | done => rfl
  | empty _ ih => simpa using ih
  | root hne _ _ _ _ _ _ ih => simp [hne, ih]
  | failure hne _ _ _ _ _ _ ih => simp [hne, ih]

/-- An empty segment is passed without an outcome. -/
theorem next {rest : List (List Token)} (h : SegmentRun p ([] :: rest) outcomes t) :
    SegmentRun p.next rest outcomes t := by
  cases h with
  | empty h => exact h
  | root hne => exact absurd rfl hne
  | failure hne => exact absurd rfl hne

/-- What is reported are the failures, in order, and nothing is left to be reported. -/
theorem reports (h : SegmentRun p parts outcomes t) (hp : p.pending = []) :
    t.sink.items = p.sink.items ++ failuresOf outcomes ∧
      t.errors = p.errors ++ (failuresOf outcomes).map (·.message) ∧ t.pending = [] := by
  induction h with
  | done => simp [failuresOf, hp]
  | empty _ ih => exact ih hp
  | root _ _ hsink herrors hpending _ _ ih =>
    obtain ⟨hitems, hmessages, hnothing⟩ := ih hpending
    refine ⟨?_, ?_, hnothing⟩
    · rw [hitems, Parser.next, hsink, failuresOf_ok]
    · rw [hmessages, Parser.next, herrors, failuresOf_ok]
  | failure _ _ hsink herrors hpending _ _ ih =>
    obtain ⟨hitems, hmessages, hnothing⟩ := ih hpending
    refine ⟨?_, ?_, hnothing⟩
    · rw [hitems, Parser.next, hsink, failuresOf_error]
      exact List.append_assoc _ _ _
    · rw [hmessages, Parser.next, herrors, failuresOf_error]
      exact List.append_assoc _ _ _

end Parser.SegmentRun

/-- Without tokens for the end of input, the first segment is the first statement. -/
theorem segments_takeWhile {tokens : List Token} (heof : ∀ t ∈ tokens, t.kind ≠ .eof) :
    let statement := tokens.takeWhile fun t => !t.kind.endsStatement
    ∃ rest, segments tokens = statement :: rest ∧
      segments (tokens.drop statement.length) = [] :: rest := by
  unfold segments
  induction tokens with
  | nil => exact ⟨[], rfl, rfl⟩
  | cons t tokens ih =>
    obtain ⟨rest, hsegments, hdropped⟩ := ih fun u hu => heof u (List.mem_cons_of_mem _ hu)
    by_cases ht : t.kind = .semicolon
    · refine ⟨tokens.splitOnP (·.kind == .semicolon), ?_, ?_⟩
      · simp [List.splitOnP_cons_eq_if_modifyHead, ht, TokenKind.endsStatement]
      · simp [List.splitOnP_cons_eq_if_modifyHead, ht, TokenKind.endsStatement]
    · -- a token that is no semicolon goes on with the statement, as no end of input is among the
      -- tokens
      have hends : t.kind.endsStatement = false := by
        have hkind := heof t List.mem_cons_self
        cases hk : t.kind <;> simp_all [TokenKind.endsStatement]
      refine ⟨rest, ?_, ?_⟩
      · simp [List.splitOnP_cons_eq_if_modifyHead, ht, hends, hsegments]
      · simpa [hends] using hdropped

/-! ## All statements -/

namespace Cursor

variable {c c' : Cursor}

/-- The tokens from the cursor on. -/
def ahead (c : Cursor) : List Token := c.tokens.toList.drop c.pos

/-- No token says that it is the end of input. -/
def NoEof (c : Cursor) : Prop := ∀ t ∈ c.tokens, t.kind ≠ .eof

/-- A token that is not the end of input is the first one ahead. -/
theorem ahead_eq_cons (hc : c.Proper) (h : c.current.kind ≠ .eof) :
    c.ahead = c.current :: (c.advance 1).ahead ∧ c.pos < c.tokens.size := by
  have hlt : c.pos < c.tokens.size := by
    refine Nat.lt_of_not_le fun hge => h ?_
    have hnone : c.tokens[c.pos]? = none := Array.getElem?_eq_none hge
    simp [current, peek, hnone, hc.eof]
  refine ⟨?_, hlt⟩
  have hcurrent : c.current = c.tokens[c.pos] := by simp [current, peek, hlt]
  have hpos : (c.advance 1).pos = c.pos + 1 := Nat.min_eq_left hlt
  unfold ahead
  rw [List.drop_eq_getElem_cons (by simpa using hlt), hpos, hcurrent]
  rfl

/-- At the end of input no token is ahead. -/
theorem ahead_eq_nil (hc : c.Proper) (heof : c.NoEof) (h : c.current.kind = .eof) :
    c.ahead = [] ∧ c.advance 1 = c := by
  have hpos : c.pos = c.tokens.size := by
    refine Nat.le_antisymm hc.inRange (Nat.not_lt.mp fun hlt => ?_)
    have hcurrent : c.current = c.tokens[c.pos] := by simp [current, peek, hlt]
    exact heof _ (Array.getElem_mem hlt) (hcurrent ▸ h)
  refine ⟨by simp [ahead, hpos], ?_⟩
  have hmin : min (c.pos + 1) c.tokens.size = c.pos := by omega
  simp [advance, seek, hmin]

/-- Where nothing of a statement is left, all of it has been passed. -/
theorem Within.pos_eq (h : c.Within c') (hrest : c'.statementRest = 0) :
    c'.pos = c.pos + c.statementRest := by
  have hend := h.statementEnd
  simpa [Cursor.statementEnd, hrest] using hend

/-- Within a statement there is only one place where nothing of it is left. -/
theorem Within.eq_advance (h : c.Within c') (hrest : c'.statementRest = 0) :
    c' = c.advance c.statementRest := by
  have hend := h.pos_eq hrest
  have hpos : min (c.pos + c.statementRest) c.tokens.size = c'.pos := by
    have hrange := h.proper.inRange
    rw [h.tokens] at hrange
    omega
  obtain ⟨tokens, pos, eof⟩ := c'
  obtain rfl : tokens = c.tokens := h.tokens
  obtain rfl : eof = c.eof := h.eof
  simp [Cursor.advance, seek, hpos]

/-- Where nothing of a statement is left, what stands behind it is ahead. -/
theorem Within.ahead_eq (h : c.Within c') (hrest : c'.statementRest = 0) :
    c'.ahead = c.ahead.drop c.statementRest := by
  rw [ahead, ahead, List.drop_drop, h.pos_eq hrest, h.tokens]

/-- Behind a statement that is not empty fewer tokens are left. -/
theorem Within.remaining_lt (h : c.Within c') (hrest : c'.statementRest = 0)
    (hpositive : 0 < c.statementRest) : c'.remaining < c.remaining := by
  have hle := c.statementRest_le
  rw [h.eq_advance hrest, remaining_advance]
  omega

/-- A statement that does not end at the token in front is not empty. -/
theorem statementRest_pos (hc : c.Proper) (h : c.current.kind.endsStatement = false) :
    0 < c.statementRest := by
  refine le_statementRest hc fun i hi => ?_
  obtain rfl : i = 0 := by omega
  exact h

/-- The statement in front of the cursor is the first segment ahead, and behind it the next one
begins, after a semicolon or at the end of input. -/
theorem segments_ahead (heof : c.NoEof) : ∃ segment rest, segments c.ahead = segment :: rest ∧
    segment.length = c.statementRest ∧
      segments (c.ahead.drop c.statementRest) = [] :: rest := by
  obtain ⟨rest, hsegments, hdropped⟩ := segments_takeWhile fun t (ht : t ∈ c.ahead) =>
    heof t (by simpa using List.mem_of_mem_drop ht)
  exact ⟨_, rest, hsegments, rfl, hdropped⟩

end Cursor

/-- The statements of a text are parsed segment by segment. -/
theorem Parser.statements_segmentRun {scope : TupleId} (rounds : Nat)
    (roots : List Node) {p : Parser}
    (hp : p.Between scope) (hcursor : p.cursor.Proper) (heof : p.cursor.NoEof)
    (hrounds : p.cursor.remaining < rounds) :
    ∃ outcomes t, SegmentRun p (segments p.cursor.ahead) outcomes t ∧
      statements rounds roots p = (roots ++ rootsOf outcomes, t) := by
  induction rounds generalizing roots p with
  | zero => omega
  | succ rounds ih =>
    rw [statements_succ]
    by_cases hend : p.cursor.atEnd = true
    · rw [if_pos hend]
      obtain ⟨hahead, hnext⟩ :=
        Cursor.ahead_eq_nil hcursor heof (by simpa [Cursor.atEnd] using hend)
      have hstays : p.next = p := congrArg (fun cursor => { p with cursor }) hnext
      refine ⟨[], p.next, ?_, ?_⟩
      · rw [hahead]
        exact .empty (.done _)
      · rw [hstays]
        exact congrArg (·, p) (List.append_nil roots).symm
    · rw [if_neg hend]
      obtain ⟨hahead, hlt⟩ := Cursor.ahead_eq_cons hcursor (by simpa [Cursor.atEnd] using hend)
      by_cases hsemi : (p.cursor.current.kind == .semicolon) = true
      · rw [if_pos hsemi]
        obtain ⟨outcomes, t, hrun, hparsed⟩ := ih roots (hp.moved p.next.plain)
          ⟨Nat.min_le_right _ _, hcursor.eof⟩ heof
          (by
            have hremaining := p.cursor.remaining_advance 1
            simp only [Parser.moved, Parser.plain, Parser.next, Cursor.remaining] at *
            omega)
        refine ⟨outcomes, t, ?_, hparsed⟩
        rw [hahead, segments, List.splitOnP_cons_eq_if_modifyHead, if_pos hsemi]
        exact .empty hrun
      · rw [if_neg hsemi]
        obtain ⟨segment, rest, hsegments, hlength, hdropped⟩ := Cursor.segments_ahead heof
        have hpositive : 0 < p.cursor.statementRest := by
          refine Cursor.statementRest_pos hcursor ?_
          cases hk : p.cursor.current.kind <;> simp_all [TokenKind.endsStatement, Cursor.atEnd]
        have hne : segment ≠ [] := List.ne_nil_of_length_pos (hlength ▸ hpositive)
        rw [← hlength] at hdropped
        -- what comes behind the statement is the rest of the segments
        have hrest : ∀ (roots : List Node) {p' : Parser}, p'.Between scope →
            p.cursor.Within p'.cursor → p'.cursor.statementRest = 0 →
            ∃ outcomes t, SegmentRun p'.next rest outcomes t ∧
              statements rounds roots p' = (roots ++ rootsOf outcomes, t) := by
          intro roots p' hp' hwithin hzero
          have hfewer := hwithin.remaining_lt hzero hpositive
          obtain ⟨outcomes, t, hrun, hparsed⟩ := ih roots hp' hwithin.proper
            (fun u hu => heof u (hwithin.tokens ▸ hu)) (by omega)
          rw [hwithin.ahead_eq hzero, ← hlength, hdropped] at hrun
          exact ⟨outcomes, t, hrun.next, hparsed⟩
        have hwithin := parseStatement_within scope (s := p.plain) hcursor
        have hstatement := statement_run hp
        rw [hsegments]
        cases hrun : parseStatement scope p.plain with
        | ok node s =>
          simp only [hrun] at hwithin hstatement
          rw [hstatement]
          obtain ⟨outcomes, t, hsegment, hparsed⟩ :=
            hrest (roots ++ [node]) (hp.moved s) hwithin.1 hwithin.2
          refine ⟨.ok node :: outcomes, t, ?_, ?_⟩
          · exact .root hne hstatement rfl rfl (hp.moved s).pending
              (hlength ▸ hwithin.1.eq_advance hwithin.2) hsegment
          · exact hparsed.trans (congrArg (·, t) (List.append_assoc roots [node] _))
        | error e s =>
          simp only [hrun] at hwithin hstatement
          rw [hstatement]
          obtain ⟨outcomes, t, hsegment, hparsed⟩ :=
            hrest (roots ++ []) ((hp.moved s).reported e) hwithin.1 hwithin.2
          refine ⟨.error e.diagnostic :: outcomes, t, ?_, ?_⟩
          · exact .failure hne hstatement e.report_diagnostic rfl (hp.moved s).pending
              (hlength ▸ hwithin.1.eq_advance hwithin.2) hsegment
          · exact hparsed.trans (congrArg (·, t) (List.append_assoc roots [] _))

/-! ## Source texts -/

namespace Lexer

/-- No rule makes a token for the end of input. -/
theorem kind_longest (cs : List Char) : (longest cs).1 ≠ some .eof := by
  have hrules : ∀ rule ∈ rules, rule.kind ≠ some .eof := by decide
  -- the winner is one of the rules, or no rule at all
  have hfold : ∀ (l : List Rule) (best : Option TokenKind × Nat),
      (∀ rule ∈ l, rule.kind ≠ some .eof) → best.1 ≠ some .eof →
        (l.foldl (better cs) best).1 ≠ some .eof := by
    intro l
    induction l with
    | nil => exact fun best _ hbest => hbest
    | cons rule l ih =>
      intro best hl hbest
      refine ih _ (fun r hr => hl r (List.mem_cons_of_mem _ hr)) ?_
      unfold better
      split
      · exact hl rule List.mem_cons_self
      · exact hbest
  exact hfold rules _ hrules (by decide)

/-- No token of a text says that it is the end of input. -/
theorem kind_tokensFrom {skip : Nat} {p : Position} {cs : List Char} :
    ∀ t ∈ tokensFrom skip p cs, t.kind ≠ .eof := by
  induction cs generalizing skip p with
  | nil => simp [tokensFrom]
  | cons c cs ih =>
    cases skip with
    | succ skip => exact ih
    | zero =>
      have hkind := kind_longest (c :: cs)
      simp only [tokensFrom]
      cases hlongest : (longest (c :: cs)).1 with
      | none => exact ih
      | some kind =>
        rw [hlongest] at hkind
        intro t ht
        rcases List.mem_cons.mp ht with rfl | ht
        · exact fun h => hkind (congrArg some h)
        · exact ih t ht

end Lexer

/-- A cursor at the front of a source text is in order. -/
theorem Cursor.proper_ofSource (source : String) :
    (ofSource source).Proper ∧ (ofSource source).NoEof :=
  ⟨⟨Nat.zero_le _, rfl⟩, fun t ht =>
    Lexer.kind_tokensFrom t (by simpa [ofSource, ofTokens, Lexer.tokenize] using ht)⟩

/-- Every segment of a source text that is not empty counts once: it gives a root, or exactly one
diagnostic, and the others do neither. Parsing fails exactly when there is a failure; it then
carries the messages of all failures, which are what is reported, in the order of the segments.
Otherwise there is one root for each segment that is not empty. -/
theorem parse_counts_segments_once {s : Store} {scope : TupleId} (hscope : s.contains scope = true)
    (source : String) :
    let start : Parser := { store := s, scope, cursor := Cursor.ofSource source }
    let parsed := Expression.ofSource s scope source
    let parts := segments (Lexer.tokenize source)
    ∃ outcomes t, Parser.SegmentRun start parts outcomes t ∧
      Parser.statements (start.cursor.remaining + 1) [] start = (rootsOf outcomes, t) ∧
      outcomes.length = (parts.filter (!·.isEmpty)).length ∧
      t.pending = [] ∧ t.errors = t.sink.items.map (·.message) ∧
      parsed.diagnostics = t.sink.items ∧ parsed.diagnostics = failuresOf outcomes ∧
      match parsed.result with
      | .ok e => failuresOf outcomes = [] ∧ e.roots = rootsOf outcomes ∧
          e.roots.length = (parts.filter (!·.isEmpty)).length
      | .error e => failuresOf outcomes ≠ [] ∧ e = .invalidExpression t.errors := by
  intro start parsed parts
  obtain ⟨hproper, heof⟩ := Cursor.proper_ofSource source
  obtain ⟨outcomes, t, hrun, hstatements⟩ := Parser.statements_segmentRun (p := start)
    (start.cursor.remaining + 1) [] (.start s scope _) hproper heof (Nat.lt_succ_self _)
  rw [List.nil_append] at hstatements
  have hcount := hrun.length_eq
  -- every outcome is a root or a failure
  have hlength := length_rootsOf_add outcomes
  obtain ⟨hitems, herrors, hpending⟩ := hrun.reports rfl
  rw [List.nil_append] at hitems herrors
  have hparsed : parsed = _ := Expression.parse_of_statements hscope hstatements hpending
  refine ⟨outcomes, t, hrun, hstatements, hcount, hpending, by rw [herrors, hitems], ?_⟩
  rw [hparsed, herrors, List.isEmpty_map]
  cases hfailures : failuresOf outcomes with
  | nil =>
    rw [hfailures, List.length_nil, Nat.add_zero] at hlength
    exact ⟨rfl, hitems.trans hfailures, rfl, rfl, hlength.trans hcount⟩
  | cons d failures => exact ⟨rfl, hitems.trans hfailures, List.cons_ne_nil d failures, rfl⟩

/-- Three segments, of which the second one is empty and the last one is bad. -/
theorem parse_counts_segments_once_bare :
    let start : Parser :=
      { store := Store.bare {}, scope := ⟨0, 0⟩, cursor := Cursor.ofSource "a;;)" }
    start.store.contains start.scope = true ∧
      ∃ outcomes t, Parser.SegmentRun start (segments (Lexer.tokenize "a;;)")) outcomes t ∧
        outcomes.length = 2 ∧ t.pending = [] := by
  intro start
  have hscope : (Store.bare {}).contains ⟨0, 0⟩ = true := rfl
  obtain ⟨outcomes, t, hrun, -, hcount, hpending, -⟩ := parse_counts_segments_once hscope "a;;)"
  exact ⟨hscope, outcomes, t, hrun, hcount.trans (by decide +kernel), hpending⟩

end TupleLang
