import TupleLang.Proofs.Complaints

/-!
# Frames in balance

The operands of a frame are those that its waiting operators have been given so far, and one more if
the last thing read was an operand (`Frame.Balanced`). Taking in a token keeps a frame in balance,
and so does completing an operator behind an operand. Hence an operator that is completed finds its
operands, and a frame that comes to its end has one operand left.

`Frame.Narrowed` are the operators that are still possible while an operator of several tokens is
read; where the parser has to choose, one of them is left (`Frame.Narrowed.ended_eq`).
-/

namespace TupleLang

open ParseM

/-! ## Operators -/

/-- The operators of one token stand in front of at most one operand, or between two. -/
theorem Operator.arity_of_ofSpelling? {text : String} {leading : Bool} {op : Operator}
    (h : ofSpelling? text leading = some op) :
    if leading then op.arity ≤ 1 else op.arity = 2 := by
  unfold ofSpelling? at h
  cases leading with
  | true =>
    rw [if_pos rfl] at h ⊢
    split at h <;> cases h <;> decide
  | false =>
    rw [if_neg Bool.false_ne_true] at h ⊢
    split at h <;> cases h <;> rfl

namespace Waiting

/-- Operands that an operator of one token has been given; those of other operators are its own. -/
def given : Waiting → Nat
  | single op => op.arity - 1
  | tail _ _ => 0

/-- There are enough operands to complete the operator. -/
def Supplied (operands : List Node) : Waiting → Prop
  | single op => op.arity ≤ operands.length
  | tail _ _ => operands ≠ []

end Waiting

/-- Operands that something open has been given. -/
def Pending.given : Pending → Nat
  | opening => 0
  | waiting w => w.given

namespace Frame

/-! ## Balance -/

/-- The operands are those given to what is open, and one more behind an operand. Every operator of
one token waits for an operand. -/
structure Balanced (f : Frame) : Prop where
  operands : f.operands.length = (f.pending.map Pending.given).sum + f.lastOperand.toNat
  arity : ∀ op, .waiting (.single op) ∈ f.pending → 0 < op.arity

variable {scope : TupleId} {f : Frame} {w : Waiting} {rest : List Pending}

/-- An operator finds its operands behind an operand. -/
theorem Balanced.supplied (hf : f.Balanced) (hlast : f.lastOperand = true)
    (hpending : f.pending = .waiting w :: rest) : w.Supplied f.operands := by
  have hcount := hf.operands
  rw [hpending, hlast, List.map_cons, List.sum_cons, Bool.toNat_true] at hcount
  cases w with
  | single op =>
    have hpos := hf.arity op (hpending ▸ List.mem_cons_self)
    simp only [Pending.given, Waiting.given] at hcount
    change op.arity ≤ f.operands.length
    omega
  | tail op inner =>
    refine List.ne_nil_of_length_pos ?_
    omega

/-- Behind an operand there is one. -/
theorem Balanced.exists_last (hf : f.Balanced) (hlast : f.lastOperand = true) :
    ∃ last rest, f.operands = last :: rest := by
  have hcount := hf.operands
  rw [hlast, Bool.toNat_true] at hcount
  exact List.exists_cons_of_length_eq_add_one hcount

/-- Completing an operator behind an operand leaves one operand for those that it had. -/
theorem finds_reduce (hf : Balanced { f with pending := .waiting w :: rest })
    (hlast : f.lastOperand = true) :
    Finds (reduce scope { f with pending := rest } w)
      fun f' => f'.Balanced ∧ f'.lastOperand = true ∧ f'.pending = rest := by
  have hsupplied := hf.supplied hlast rfl
  have hcount := hf.operands
  rw [List.map_cons, List.sum_cons, hlast, Bool.toNat_true] at hcount
  have harity : ∀ op, .waiting (.single op) ∈ rest → 0 < op.arity := fun op hop =>
    hf.arity op (List.mem_cons_of_mem _ hop)
  -- whichever operands are taken, as many stay as were given to the others
  have hbind : ∀ (draft : Draft) (span : Span) (held operands : List Node),
      operands.length = (rest.map Pending.given).sum → Finds (do
        let node ← holding held (draft.bind scope span)
        return { f with operands := node :: operands, pending := rest })
        fun f' => f'.Balanced ∧ f'.lastOperand = true ∧ f'.pending = rest := by
    intro draft span held operands hoperands
    refine .andThen ((draft.sober_bind scope span).holding held) fun node => .pure ?_
    exact ⟨⟨by simp [hoperands, hlast], harity⟩, hlast, rfl⟩
  unfold reduce
  refine .andThen sober_current fun token => ?_
  cases w with
  | single op =>
    have hle : op.arity ≤ f.operands.length := hsupplied
    have hpos := hf.arity op List.mem_cons_self
    simp only [Pending.given, Waiting.given] at hcount
    dsimp only
    rw [if_neg (Nat.not_lt.mpr hle)]
    exact hbind _ _ _ _ (by rw [List.length_drop]; omega)
  | tail op inner =>
    have hne : f.operands ≠ [] := hsupplied
    obtain ⟨trailing, operands, hoperands⟩ := List.exists_cons_of_ne_nil hne
    simp only [Pending.given, Waiting.given, hoperands, List.length_cons] at hcount
    dsimp only
    rw [hoperands]
    exact hbind _ _ _ _ (by omega)

/-- Completing operators by their precedence keeps the balance. -/
theorem finds_reduceWhile (precedence : Nat) (f : Frame) (pending : List Pending)
    (hf : Balanced { f with pending }) (hlast : f.lastOperand = true) :
    Finds (reduceWhile scope precedence f pending)
      fun f' => f'.Balanced ∧ f'.lastOperand = true := by
  induction pending generalizing f with
  | nil => exact .pure ⟨hf, hlast⟩
  | cons p rest ih =>
    cases p with
    | opening => exact .pure ⟨hf, hlast⟩
    | waiting w =>
      unfold reduceWhile
      refine .ite (fun _ => ?_) fun _ => .pure ⟨hf, hlast⟩
      refine .bind (finds_reduce hf hlast) fun f' ⟨hf', hlast', hpending⟩ => ih f' ?_ hlast'
      rwa [← hpending]

/-- Where a parenthesis is open, closing one finds it. -/
theorem finds_closeGroup (f : Frame) (pending : List Pending) (hf : Balanced { f with pending })
    (hlast : f.lastOperand = true) (hopen : .opening ∈ pending) :
    Finds (closeGroup scope f pending) fun f' => f'.Balanced ∧ f'.lastOperand = true := by
  induction pending generalizing f with
  | nil => simp at hopen
  | cons p rest ih =>
    cases p with
    | opening =>
      -- an open parenthesis has been given nothing, so the count stays
      refine .pure ⟨⟨?_, fun op hop => hf.arity op (List.mem_cons_of_mem _ hop)⟩, hlast⟩
      simpa [Pending.given] using hf.operands
    | waiting w =>
      have hrest : .opening ∈ rest := by simpa using hopen
      unfold closeGroup
      refine .bind (finds_reduce hf hlast) fun f' ⟨hf', hlast', hpending⟩ => ?_
      exact ih f' (by rwa [← hpending]) hlast' hrest

/-- Completing all operators leaves exactly one operand. -/
theorem finds_closeAll (f : Frame) (pending : List Pending) (hf : Balanced { f with pending })
    (hlast : f.lastOperand = true) :
    Finds (closeAll scope f pending) fun f' =>
      f'.pending = [] ∧ ∃ root, f'.operands = [root] := by
  induction pending generalizing f with
  | nil =>
    refine .pure ⟨rfl, List.length_eq_one_iff.mp ?_⟩
    simpa [hlast] using hf.operands
  | cons p rest ih =>
    cases p with
    | opening => exact (Finds.complainHere (by decide)).holding _
    | waiting w =>
      unfold closeAll
      refine .bind (finds_reduce hf hlast) fun f' ⟨hf', hlast', hpending⟩ => ?_
      exact ih f' (by rwa [← hpending]) hlast'

/-- Finishing a balanced frame blames nobody but the source. -/
theorem sober_finish (hf : f.Balanced) : Sober (finish scope f) := by
  unfold finish
  refine .ite (fun _ => ?_) fun hlast => ?_
  · refine (Finds.complainHere ?_).holding _
    split <;> decide
  · rw [Bool.not_eq_true', Bool.not_eq_false] at hlast
    refine .bind (finds_closeAll f f.pending hf hlast) fun f' ⟨_, root, hroot⟩ => ?_
    rw [hroot]
    exact .andThen (sober_changeStore _) fun _ => .pure trivial

/-- A frame that expects an operand is in balance with one more. -/
theorem Balanced.pushOperand (hf : f.Balanced) (hlast : f.lastOperand = false) (node : Node) :
    (f.pushOperand node).Balanced := by
  refine ⟨?_, hf.arity⟩
  simpa [Frame.pushOperand, hlast] using hf.operands

/-! ## Operators of several tokens -/

/-- The candidates whose sub-tokens have all been read. -/
def ended (step : Nat) (candidates : List Operator) : List Operator :=
  candidates.filter fun op => op.sequence.length ≤ step

/-- The candidates that have a sub-token ahead. -/
def alive (step : Nat) (candidates : List Operator) : List Operator :=
  candidates.filter fun op => !decide (op.sequence.length ≤ step)

/-- The candidates that go on with an operand and then a sub-token. -/
def goingOn (step : Nat) (candidates : List Operator) : List Operator :=
  (alive step candidates).filter (expectsOperand step)

/-- The operators that are still possible when so many of their sub-tokens have been read. -/
inductive Narrowed : (step : Nat) → List Operator → Prop
  /-- All operators that begin with a token. -/
  | start {text : String} {leading : Bool} : Operator.sequencesStarting text leading ≠ [] →
      Narrowed 1 (Operator.sequencesStarting text leading)
  /-- A sub-token without an operand before it decides. -/
  | decided {step : Nat} {candidates : List Operator} {token : Token} {op : Operator} :
      Narrowed step candidates → op ∈ alive step candidates → goesOnWith step token op = true →
      expectsOperand step op = false → Narrowed (step + 1) [op]
  /-- The candidates that go on with the token behind an operand. -/
  | survived {step : Nat} {candidates : List Operator} {token : Token} :
      Narrowed step candidates → (goingOn step candidates).filter (goesOnWith step token) ≠ [] →
      Narrowed (step + 1) ((goingOn step candidates).filter (goesOnWith step token))

/-- All that can be left of the operators of several tokens, with the number of sub-tokens read. -/
def narrowings : List (Nat × List Operator) :=
  [(1, [.ifThen, .ifThenElse]), (1, [.select]), (1, [.is, .isNot]), (2, [.ifThen, .ifThenElse]),
   (2, [.select]), (2, [.isNot]), (3, [.ifThenElse])]

/-- What is left of the operators of several tokens is one of these. -/
theorem Narrowed.mem_narrowings {step : Nat} {candidates : List Operator}
    (h : Narrowed step candidates) : (step, candidates) ∈ narrowings := by
  induction h with
  | @start text leading hne =>
    have hall : ∀ op ∈ Operator.sequences, op.sequence.head?.all fun sub =>
        (1, Operator.sequencesStarting sub.text sub.leading) ∈ narrowings := by decide
    obtain ⟨op, hop⟩ := List.exists_mem_of_ne_nil _ hne
    obtain ⟨hmem, hhead⟩ := List.mem_filter.mp hop
    have hstart := hall op hmem
    rw [beq_iff_eq.mp hhead] at hstart
    simpa using hstart
  | @decided step candidates token op _ hop _ hexpects ih =>
    have hall : ∀ n ∈ narrowings, ∀ op ∈ alive n.1 n.2,
        expectsOperand n.1 op = false → (n.1 + 1, [op]) ∈ narrowings := by decide
    exact hall _ ih op hop hexpects
  | @survived step candidates token _ hne ih =>
    -- those that go on at all go on with the same sub-token, so all of them survive
    have hall : ∀ n ∈ narrowings, (∀ op ∈ goingOn n.1 n.2, ∀ op' ∈ goingOn n.1 n.2,
        subToken? n.1 op = subToken? n.1 op') ∧
          (goingOn n.1 n.2 ≠ [] → (n.1 + 1, goingOn n.1 n.2) ∈ narrowings) := by decide
    obtain ⟨hsame, hnext⟩ := hall _ ih
    obtain ⟨op, hop⟩ := List.exists_mem_of_ne_nil _ hne
    obtain ⟨hmem, hgoes⟩ := List.mem_filter.mp hop
    rw [List.filter_eq_self.mpr fun op' hop' => ?_]
    · exact hnext (List.ne_nil_of_mem hmem)
    · rw [goesOnWith, ← hsame op hmem op' hop']
      exact hgoes

/-- Where no candidate goes on with an operand, and where one has ended, exactly one has ended. -/
theorem Narrowed.ended_eq {step : Nat} {candidates : List Operator} (h : Narrowed step candidates)
    (hend : goingOn step candidates = [] ∨ ended step candidates ≠ []) :
    ∃ op, ended step candidates = [op] := by
  have hall : ∀ n ∈ narrowings, (goingOn n.1 n.2 = [] ∨ ended n.1 n.2 ≠ []) →
      (ended n.1 n.2).length = 1 := by decide
  exact List.length_eq_one_iff.mp (hall _ h.mem_narrowings hend)

/-- So does choosing the operator of a sequence if there is just one candidate. -/
theorem sober_chooseSequence {candidates : List Operator} (h : ∃ op, candidates = [op])
    (opener : Token) (operands : List Node) :
    Sober (chooseSequence opener candidates operands) := by
  obtain ⟨op, rfl⟩ := h
  exact .pure trivial

theorem unlike_misplacedMessage (text : String) (leading : Bool) :
    Unlike (misplacedMessage text leading) := by
  unfold misplacedMessage
  dsimp only
  split
  · exact (Unlike.append (by decide) _).append _
  · split
    · exact (Unlike.append (by decide) _).append _
    · exact (Unlike.append (by decide) _).append _

section Inner

variable {inner : List String → ParseM Node} (hinner : ∀ terminators, Sober (inner terminators))

include hinner

/-- So does reading the parts of a sequence while the candidates are narrowed down. -/
theorem sober_resolveFrom (terminators : List String) (opener : Token) (steps step : Nat)
    (candidates : List Operator) (operands : List Node) (h : Narrowed step candidates) :
    Sober (resolveFrom inner terminators opener steps step candidates operands) := by
  induction steps generalizing step candidates operands with
  | zero => exact Finds.stalled.holding _
  | succ steps ih =>
    have hpartition : candidates.partition (fun op => op.sequence.length ≤ step) =
        (ended step candidates, alive step candidates) := List.partition_eq_filter_filter
    unfold resolveFrom
    rw [hpartition]
    dsimp only
    split
    · -- without a candidate that goes on, all of them have ended
      rename_i hnone
      have halive : alive step candidates = [] := List.isEmpty_iff.mp hnone
      have hall : ended step candidates = candidates := by
        refine List.filter_eq_self.mpr fun op hop => ?_
        simpa using List.filter_eq_nil_iff.mp halive op hop
      have hchoice := h.ended_eq (.inl (by rw [goingOn, halive, List.filter_nil]))
      rw [hall] at hchoice
      exact sober_chooseSequence hchoice opener operands
    · refine .andThen sober_current fun next => ?_
      split
      · rename_i op hfind
        have hdecides := List.find?_some hfind
        rw [Bool.and_eq_true, Bool.not_eq_true'] at hdecides
        refine .andThen (sober_advance 1) fun _ => ih _ _ _ ?_
        exact .decided h (List.mem_of_find?_eq_some hfind) hdecides.1 hdecides.2
      · refine .ite (fun hnone => ?_) fun _ => .andThen sober_position fun start => ?_
        · exact sober_chooseSequence (h.ended_eq (.inl (List.isEmpty_iff.mp hnone))) _ _
        · refine .andThen ((hinner _).holding _) fun operand =>
            .andThen sober_current fun after => ?_
          refine .ite (fun hsurvivors => ?_) fun _ => .ite (fun hended => ?_) fun _ => ?_
          · refine .andThen (sober_advance 1) fun _ => ih _ _ _ (.survived h ?_)
            rwa [Bool.not_eq_true', ← Bool.not_eq_true, List.isEmpty_iff] at hsurvivors
          · refine .andThen (sober_changeStore _) fun _ => .andThen (sober_seek _) fun _ => ?_
            exact sober_chooseSequence (h.ended_eq (.inr (by simpa using hended))) _ _
          · exact (Finds.complain
              ((((Unlike.append (by decide) _).append _).append _).append _) _).holding _

/-- An operator of several tokens waits for its last operand, its left one taken from the frame. -/
theorem finds_resolveSequence (hf : f.Balanced) {candidates : List Operator}
    (hcandidates : Narrowed 1 candidates) (token : Token) :
    Finds (resolveSequence scope inner f candidates token) Balanced := by
  -- with or without a left operand, none is on top when the operator is placed
  have hleft : Finds (leftOperand scope f candidates token)
      fun r => r.1.Balanced ∧ r.1.lastOperand = false := by
    unfold leftOperand
    refine .ite (fun hlast => ?_) fun hlast => .pure ⟨hf, Bool.eq_false_iff.mpr hlast⟩
    refine .bind (finds_reduceWhile _ f f.pending hf hlast) fun f' ⟨hf', hlast'⟩ => ?_
    -- reducing leaves at least the operand it started with
    obtain ⟨left, operands, hoperands⟩ := hf'.exists_last hlast'
    have hcount := hf'.operands
    rw [hlast', Bool.toNat_true, hoperands, List.length_cons] at hcount
    rw [hoperands]
    exact .pure ⟨⟨by simpa using hcount, hf'.arity⟩, rfl⟩
  unfold resolveSequence
  refine .bind hleft fun r ⟨hr, hlast⟩ => .andThen (sober_advance 1) fun _ => ?_
  refine .andThen ((sober_resolveFrom hinner _ _ _ _ _ _ hcandidates).holding _) fun r' => .pure ?_
  refine ⟨?_, fun op hop => hr.arity op (by simpa [await] using hop)⟩
  simpa [await, hlast, Pending.given, Waiting.given] using hr.operands

/-- Taking in an operator keeps the balance. -/
theorem finds_operator (hf : f.Balanced) (token : Token) :
    Finds (operator scope inner f token) Balanced := by
  unfold operator
  dsimp only
  refine .ite (fun hsequences => ?_) fun _ => ?_
  · refine finds_resolveSequence hinner hf (.start ?_) token
    rwa [Bool.not_eq_true', ← Bool.not_eq_true, List.isEmpty_iff] at hsequences
  · split
    · exact (Finds.complain (unlike_misplacedMessage _ _) _).holding _
    · rename_i op hop
      have harity := Operator.arity_of_ofSpelling? hop
      -- an operator waits for its last operand, and has been given the others
      have hsingle : ∀ {f' : Frame}, f'.Balanced → 0 < op.arity →
          op.arity - 1 = f'.lastOperand.toNat → (f'.await (.single op)).Balanced := by
        intro f' hf' hpos hgiven
        refine ⟨?_, fun op' hop' => ?_⟩
        · have hcount := hf'.operands
          simp only [await, List.map_cons, List.sum_cons, Pending.given, Waiting.given, hgiven,
            Bool.toNat_false]
          omega
        · rcases List.mem_cons.mp hop' with heq | hop'
          · cases heq
            exact hpos
          · exact hf'.arity op' hop'
      refine .andThen (sober_advance 1) fun _ => ?_
      -- the arity decides, and it agrees with where the operator stands
      split
      · rename_i hzero
        have hlast : f.lastOperand = false := by
          cases hlast : f.lastOperand with
          | false => rfl
          | true => simp [hlast, hzero] at harity
        refine .andThen ((Draft.sober_bind _ _ _).holding _) fun node => .pure ?_
        exact hf.pushOperand hlast node
      · rename_i hone
        refine .pure (hsingle hf (by omega) ?_)
        cases hlast : f.lastOperand with
        | false => simp [hone]
        | true => simp [hlast, hone] at harity
      · rename_i hzero hone
        have hmore : ¬op.arity ≤ 1 := fun hle =>
          (Nat.le_one_iff_eq_zero_or_eq_one.mp hle).elim hzero hone
        have hlast : f.lastOperand = true := by
          cases hlast : f.lastOperand with
          | true => rfl
          | false => exact absurd (by simpa [hlast] using harity) hmore
        simp only [hlast, Bool.not_true, Bool.false_eq_true, if_false] at harity
        refine .bind (finds_reduceWhile _ f f.pending hf hlast) fun f' ⟨hf', hlast'⟩ => ?_
        exact .pure (hsingle hf' (by omega) (by rw [harity, hlast', Bool.toNat_true]))

/-! ## Operands -/

/-- So does reading arguments. -/
theorem sober_callArgs (callee : Token) (rounds : Nat) (args : List Node)
    (names : List (Option String)) : Sober (callArgs inner callee rounds args names) := by
  induction rounds generalizing args names with
  | zero => exact Finds.stalled.holding _
  | succ rounds ih =>
    unfold callArgs
    refine .andThen TypeReader.sober_name fun name => ?_
    refine .andThen ((hinner []).holding _) fun arg => .andThen sober_current fun token => ?_
    split
    · exact .andThen (sober_advance 1) fun _ => ih _ _
    · exact .andThen (sober_advance 1) fun _ => .pure trivial
    · exact (Finds.complainHere ((Unlike.append (by decide) _).append _)).holding _

/-- So does reading a call. -/
theorem sober_call (callee : Token) : Sober (call scope inner callee) := by
  unfold call
  refine .andThen (sober_advance 2) fun _ => .andThen sober_current fun token => ?_
  refine .ite (fun _ => ?_) fun _ => ?_
  · refine .andThen (sober_advance 1) fun _ => .andThen (.pure (a := ([], [])) trivial) fun _ => ?_
    exact Draft.sober_bind scope _ _
  · refine .andThen sober_rounds fun rounds => ?_
    exact .andThen (sober_callArgs hinner callee rounds [] []) fun _ => Draft.sober_bind scope _ _

omit hinner in

/-- So does reading an identifier. -/
theorem sober_identifier (token : Token) : Sober (identifier scope token) := by
  unfold identifier
  refine .andThen sober_store fun s => ?_
  split
  · exact .pure trivial
  · exact .andThen (sober_onStore _) fun _ => .pure trivial

omit hinner in

/-- So does reading an operand. -/
theorem sober_operand (levels : Nat) (token : Token) : Sober (operand scope levels token) := by
  unfold operand
  split
  · exact .complain (by decide) _
  · exact .complain (by decide) _
  · exact .andThen (ValueReader.sober_read scope levels) fun _ => .pure trivial
  · exact .andThen (ValueReader.sober_read scope levels) fun _ => .pure trivial
  · refine .ite (fun _ => .andThen (sober_advance 1) fun _ => ?_) fun _ => ?_
    · exact .andThen (ValueReader.sober_scalar token false) fun _ => .pure trivial
    · exact .complain ((Unlike.append (by decide) _).append _) _

/-! ## Frames -/

omit hinner in

/-- A closing parenthesis that does not end the frame has its opening one. -/
theorem opening_mem_of_not_endsAt {token : Token} (hends : f.endsAt token = false)
    (hkind : token.kind = .rparen) : .opening ∈ f.pending := by
  have hopen : f.hasOpen = true := by
    cases hopen : f.hasOpen with
    | true => rfl
    | false => simp [endsAt, hopen, hkind] at hends
  obtain ⟨p, hp, hp'⟩ := List.any_eq_true.mp hopen
  cases p with
  | opening => exact hp
  | waiting w => simp at hp'

/-- Taking in a token keeps the balance. -/
theorem finds_step (hf : f.Balanced) {token : Token} (hends : f.endsAt token = false)
    (levels : Nat) : Finds (step scope levels inner f token) Balanced := by
  unfold step
  split
  · exact (Finds.complain (by decide) _).holding _
  · -- a closing parenthesis: the frame would have ended at it if none were open
    rename_i hkind
    refine .ite (fun _ => (Finds.complain (by decide) _).holding _) fun hlast => ?_
    rw [Bool.not_eq_true', Bool.not_eq_false] at hlast
    refine .bind (finds_closeGroup f f.pending hf hlast (opening_mem_of_not_endsAt hends hkind))
      fun f' ⟨hf', hlast'⟩ => .andThen (sober_advance 1) fun _ => .pure ?_
    rwa [← hlast']
  · refine .ite (fun _ => (Finds.complain (by decide) _).holding _) fun _ => ?_
    refine .andThen (sober_advance 1) fun _ => .pure ⟨?_, fun op hop => hf.arity op ?_⟩
    · simpa [Pending.given] using hf.operands
    · simpa using hop
  · exact finds_operator hinner hf token
  · exact finds_operator hinner hf token
  · exact (Finds.complain ((Unlike.append (by decide) _).append _) _).holding _
  · refine .ite (fun _ => ?_) fun hlast => ?_
    · exact (Finds.complain ((Unlike.append (by decide) _).append _) _).holding _
    · have hpush : ∀ node, (f.pushOperand node).Balanced :=
        hf.pushOperand (Bool.eq_false_iff.mpr hlast)
      refine .ite (fun _ => .andThen (sober_peek 1) fun next => .ite (fun _ => ?_) fun _ => ?_)
        fun _ => ?_
      · exact .andThen ((sober_call hinner token).holding _) fun node => .pure (hpush node)
      · refine .andThen (sober_advance 1) fun _ => ?_
        exact .andThen (sober_identifier token) fun node => .pure (hpush node)
      · exact .andThen ((sober_operand levels token).holding _) fun node => .pure (hpush node)

/-- So do the steps of a frame in balance. -/
theorem sober_run (levels rounds : Nat) (f : Frame) (hf : f.Balanced) :
    Sober (run scope levels inner rounds f) := by
  induction rounds generalizing f with
  | zero => exact Finds.stalled.holding _
  | succ rounds ih =>
    unfold run
    refine .andThen sober_current fun token => .ite (fun _ => sober_finish hf) fun hends => ?_
    exact .bind (finds_step hinner hf (Bool.eq_false_iff.mpr hends) levels) ih

end Inner

/-- A frame is in balance when its reading begins. -/
theorem Balanced.start (terminators : List String) : Balanced { terminators } :=
  ⟨rfl, fun _ hop => by simp at hop⟩

end Frame

/-! ## Statements -/

/-- Parsing a frame blames nobody but the source. -/
theorem sober_parseFrame (scope : TupleId) (levels : Nat) (terminators : List String) :
    Sober (parseFrame scope levels terminators) := by
  induction levels generalizing terminators with
  | zero => exact (Finds.tooDeep (by decide)).onFailure _
  | succ levels ih =>
    refine Finds.onFailure _ (.andThen sober_rounds fun rounds => ?_)
    exact Frame.sober_run ih levels rounds _ (.start terminators)

/-- Parsing a statement blames nobody but the source. -/
theorem sober_parseStatement (scope : TupleId) : Sober (parseStatement scope) := by
  unfold parseStatement
  refine .andThen sober_store fun s => .andThen (sober_parseFrame scope _ _) fun node => ?_
  refine .andThen sober_current fun token => .ite (fun _ => .pure trivial) fun _ => ?_
  refine ((Finds.complain ?_ _).holding _).onFailure _
  exact (Unlike.append (by decide) _).append _

end TupleLang
