import TupleLang.Proofs.Statement

/-!
# Going on

No function of the parser comes out in front of the token where it began, and those that read an
operand pass at least one token. The rounds that a loop is given are therefore never used up, on any
tokens whatever: no failure is `ParseFailure.stalled`.

`ParseM.Reaches c n m s` says that `m`, run from `s`, ends at least `n` tokens behind `c`, or else
fails with a complaint. An operand that was read in vain is the only reason to go back; the place to
go back to is behind the token that began the operator, so even then a token is passed.
-/

namespace TupleLang

namespace Cursor

/-- The second cursor stands in the same tokens, at least `n` of them further. -/
structure Onward (n : Nat) (c c' : Cursor) : Prop where
  proper : c'.Proper
  tokens : c'.tokens = c.tokens
  passes : c.pos + n ≤ c'.pos

namespace Onward

variable {n k : Nat} {c c' c'' : Cursor}

/-- A cursor has moved on by no tokens from itself. -/
protected theorem refl (hc : c.Proper) : c.Onward 0 c := ⟨hc, rfl, Nat.le_refl _⟩

/-- Tokens passed one after the other add up. -/
protected theorem trans (h : c.Onward n c') (h' : c'.Onward k c'') : c.Onward (n + k) c'' := by
  refine ⟨h'.proper, h'.tokens.trans h.tokens, ?_⟩
  have := h.passes
  have := h'.passes
  omega

/-- Whoever has passed some tokens has passed fewer. -/
theorem weaken (h : c.Onward n c') (hk : k ≤ n) : c.Onward k c' :=
  ⟨h.proper, h.tokens, (Nat.add_le_add_left hk _).trans h.passes⟩

/-- Only tokens that are there are passed. -/
theorem remaining_le (h : c.Onward n c') : c'.remaining + n ≤ c.remaining := by
  have hrange := h.proper.inRange
  have hpasses := h.passes
  rw [remaining, remaining, h.tokens] at *
  omega

/-- Moving forward from a token that is not the end of input passes that token. -/
theorem advance (h : c.Onward n c') (hcurrent : c'.current.kind ≠ .eof) (hk : 0 < k) :
    c.Onward (n + 1) (c'.advance k) := by
  refine h.trans ⟨⟨Nat.min_le_right _ _, h.proper.eof⟩, rfl, ?_⟩
  have hlt := (ahead_eq_cons h.proper hcurrent).2
  simp only [Cursor.advance, pos_seek]
  omega

/-- Going back to a place that is far enough. -/
theorem seek (h : c.Onward n c') (h' : c.Onward k c'') : c.Onward n (c''.seek c'.pos) := by
  refine ⟨⟨Nat.min_le_right _ _, h'.proper.eof⟩, h'.tokens, ?_⟩
  have hrange := h.proper.inRange
  rw [h.tokens] at hrange
  rw [pos_seek, h'.tokens, Nat.min_eq_left hrange]
  exact h.passes

end Onward

end Cursor

/-- A token that does not end the statement is not the end of input. -/
theorem TokenKind.ne_eof {k : TokenKind} (h : k.endsStatement = false) : k ≠ .eof := by
  rintro rfl
  cases h

namespace ParseM

variable {α β : Type} {c : Cursor} {n k : Nat} {s : ParseState}

/-- Run from `s`, the parser ends at least `n` tokens behind `c`, or it fails with a complaint. -/
def Reaches (c : Cursor) (n : Nat) (m : ParseM α) (s : ParseState) : Prop :=
  match m s with
  | .ok _ s' => c.Onward n s'.cursor
  | .error e _ => e ≠ .stalled

/-- The parser passes at least `n` tokens, or it fails with a complaint. -/
def Passes (n : Nat) (m : ParseM α) : Prop :=
  ∀ s : ParseState, s.cursor.Proper → m.Reaches s.cursor n s

namespace Reaches

variable {m : ParseM α} {f : α → ParseM β}

/-- Whoever reaches far enough reaches less. -/
theorem weaken (h : m.Reaches c n s) (hk : k ≤ n) : m.Reaches c k s := by
  unfold Reaches at *
  cases hrun : m s with
  | ok a s' =>
    rw [hrun] at h
    exact Cursor.Onward.weaken h hk
  | error e s' =>
    rw [hrun] at h
    exact h

/-- A result moves nothing. -/
protected theorem pure (a : α) (hs : c.Onward n s.cursor) : (pure a : ParseM α).Reaches c n s := hs

/-- Nothing is asked of a part that complains. -/
theorem complain (message : String) (span : Span) :
    (ParseM.complain message span : ParseM α).Reaches c n s :=
  ParseFailure.noConfusion

/-- Nothing is asked of a complaint about the token in front. -/
theorem complainHere (message : String) : (ParseM.complainHere message : ParseM α).Reaches c n s :=
  ParseFailure.noConfusion

/-- Nothing is asked of a complaint about the depth. -/
theorem tooDeep (what : String) : (ParseM.tooDeep what : ParseM α).Reaches c n s :=
  ParseFailure.noConfusion

/-- Programs on the store do not move the cursor. -/
theorem onStore (m : StoreM α) (hs : c.Onward n s.cursor) : (ParseM.onStore m).Reaches c n s := by
  unfold Reaches ParseM.onStore
  cases m s.store with
  | ok a store => exact hs
  | error e store => exact ParseFailure.noConfusion

/-- One parser after the other. -/
protected theorem bind (hm : m.Reaches c k s)
    (hf : ∀ a s', c.Onward k s'.cursor → (f a).Reaches c n s') : (m >>= f).Reaches c n s := by
  unfold Reaches at hm
  change match EStateM.bind m f s with
    | .ok _ s' => c.Onward n s'.cursor
    | .error e _ => e ≠ .stalled
  unfold EStateM.bind
  cases hrun : m s with
  | ok a s' =>
    rw [hrun] at hm
    exact hf a s' hm
  | error e s' =>
    rw [hrun] at hm
    exact hm

/-- A parser that does not move the cursor, and then another one at the same place. -/
theorem still_bind (hm : m.Reaches c k s) (hstill : Still m)
    (hf : ∀ a s', c.Onward k s'.cursor → s'.cursor.current = s.cursor.current →
      (f a).Reaches c n s') : (m >>= f).Reaches c n s := by
  have hcursor := hstill s
  unfold Reaches at hm
  change match EStateM.bind m f s with
    | .ok _ s' => c.Onward n s'.cursor
    | .error e _ => e ≠ .stalled
  unfold EStateM.bind
  cases hrun : m s with
  | ok a s' =>
    rw [hrun] at hm hcursor
    exact hf a s' hm (congrArg Cursor.current hcursor)
  | error e s' =>
    rw [hrun] at hm
    exact hm

/-- Looking at the token in front passes nothing. -/
theorem current_bind {f : Token → ParseM β} (hf : (f s.cursor.current).Reaches c n s) :
    (ParseM.current >>= f).Reaches c n s := hf

/-- Looking further ahead passes nothing. -/
theorem peek_bind {i : Nat} {f : Token → ParseM β} (hf : (f (s.cursor.peek i)).Reaches c n s) :
    (ParseM.peek i >>= f).Reaches c n s := hf

/-- Asking for the position passes nothing. -/
theorem position_bind {f : Nat → ParseM β} (hf : (f s.cursor.pos).Reaches c n s) :
    (ParseM.position >>= f).Reaches c n s := hf

/-- Asking how many rounds are left passes nothing. -/
theorem rounds_bind {f : Nat → ParseM β} (hf : (f (s.cursor.remaining + 1)).Reaches c n s) :
    (ParseM.rounds >>= f).Reaches c n s := hf

/-- Asking for the store passes nothing. -/
theorem store_bind {f : Store → ParseM β} (hf : (f s.store).Reaches c n s) :
    (ParseM.store >>= f).Reaches c n s := hf

/-- Changing the store passes nothing. -/
theorem changeStore_bind {g : Store → Store} {f : Unit → ParseM β} (hs : c.Onward k s.cursor)
    (hf : ∀ s', c.Onward k s'.cursor → (f ()).Reaches c n s') :
    (ParseM.changeStore g >>= f).Reaches c n s :=
  hf { s with store := g s.store } hs

/-- Pass tokens, the first of which is not the end of input. -/
theorem advance_bind {i : Nat} {f : Unit → ParseM β} (hs : c.Onward k s.cursor)
    (h : s.cursor.current.kind ≠ .eof) (hi : 0 < i)
    (hf : ∀ s', c.Onward (k + 1) s'.cursor → (f ()).Reaches c n s') :
    (ParseM.advance i >>= f).Reaches c n s :=
  hf { s with cursor := s.cursor.advance i } (hs.advance h hi)

/-- Go back to a place that is far enough. -/
theorem seek_bind {i : Nat} {c' : Cursor} {f : Unit → ParseM β} (hc' : c.Onward k c')
    (hs : c.Onward i s.cursor) (hf : ∀ s', c.Onward k s'.cursor → (f ()).Reaches c n s') :
    (ParseM.seek c'.pos >>= f).Reaches c n s :=
  hf { s with cursor := s.cursor.seek c'.pos } (hc'.seek hs)

/-- What is done when a part fails has no say in how far it comes. -/
theorem onFailure (g : ParseState → ParseState) (hm : m.Reaches c n s) :
    (ParseM.onFailure g m).Reaches c n s := by
  unfold Reaches ParseM.onFailure at *
  cases hrun : m s with
  | ok a s' =>
    rw [hrun] at hm
    exact hm
  | error e s' =>
    rw [hrun] at hm
    exact hm

/-- Holding cells has no say in how far a part comes. -/
theorem holdingCells (cells : List Cell) (hm : m.Reaches c n s) :
    (ParseM.holdingCells cells m).Reaches c n s :=
  hm.onFailure _

/-- Holding nodes has no say in how far a part comes. -/
theorem holding (nodes : List Node) (hm : m.Reaches c n s) :
    (ParseM.holding nodes m).Reaches c n s :=
  hm.onFailure _

end Reaches

/-- A part passes its tokens behind those that were passed before. -/
theorem Reaches.after {m : ParseM α} (hm : m.Reaches s.cursor n s) (hs : c.Onward k s.cursor) :
    m.Reaches c (k + n) s := by
  unfold Reaches at *
  cases hrun : m s with
  | ok a s' =>
    rw [hrun] at hm
    exact hs.trans hm
  | error e s' =>
    rw [hrun] at hm
    exact hm

/-- A part that passes its tokens from anywhere does so behind other tokens. -/
theorem Passes.reaches {m : ParseM α} (h : Passes n m) (hs : c.Onward k s.cursor) :
    m.Reaches c (k + n) s :=
  (h s hs.proper).after hs

/-- What has come behind more tokens than there are cannot be. -/
theorem not_lt_of_onward {c c' : Cursor} (h : c.Onward k c') : ¬c.remaining < k + 0 := by
  have := h.remaining_le
  omega

end ParseM

open ParseM

/-! ## Types and values -/

namespace TypeReader

/-- The name of a type's element may be missing. -/
theorem passes_name : Passes 0 name := by
  intro s hs
  refine .current_bind (.peek_bind ?_)
  split
  · rename_i h
    simp only [Bool.and_eq_true, beq_iff_eq] at h
    refine .advance_bind (.refl hs) (by simp [h.1]) (by decide) fun s' hs' => ?_
    exact .pure _ (hs'.weaken (Nat.zero_le _))
  · exact .pure _ (.refl hs)

/-- An element of a type is at least one token. -/
theorem passes_element {nested : ParseM TypeDesc} (hnested : Passes 0 nested) :
    Passes 1 (element nested) := by
  intro s hs
  refine .current_bind ?_
  split
  · rename_i hkind
    exact .advance_bind (.refl hs) (by simp [hkind]) Nat.one_pos fun s' hs' => hnested.reaches hs'
  · rename_i hkind
    exact .advance_bind (.refl hs) (by simp [hkind]) Nat.one_pos fun s' hs' => hnested.reaches hs'
  · rename_i hkind
    exact .advance_bind (.refl hs) (by simp [hkind]) Nat.one_pos fun s' hs' => .pure _ hs'
  · rename_i hkind
    exact .advance_bind (.refl hs) (by simp [hkind]) Nat.one_pos fun s' hs' => .pure _ hs'
  · exact .complain _ _

/-- Each round passes an element, so the rounds do not end before the tokens do. -/
theorem reaches_elements {nested : ParseM TypeDesc} (hnested : Passes 0 nested) (rounds : Nat)
    (fields : List TypeDesc.Field) (comma : Bool) {c : Cursor} {k : Nat} {s : ParseState}
    (hs : c.Onward k s.cursor) (hrounds : c.remaining < k + rounds) :
    (elements nested rounds fields comma).Reaches c k s := by
  induction rounds generalizing fields comma k s with
  | zero => exact absurd hrounds (not_lt_of_onward hs)
  | succ rounds ih =>
    unfold elements
    refine .current_bind ?_
    split
    · rename_i h
      rw [beq_iff_eq] at h
      refine .advance_bind hs (by simp [h]) Nat.one_pos fun s' hs' => ?_
      exact .pure _ (hs'.weaken (Nat.le_succ k))
    · refine .bind (passes_name.reaches hs) fun name s₁ hs₁ => ?_
      refine .bind ((passes_element hnested).reaches hs₁) fun type s₂ hs₂ => .current_bind ?_
      -- an element is behind the cursor now, which pays for the next round
      split
      · rename_i hkind
        refine .advance_bind hs₂ (by simp [hkind]) Nat.one_pos fun s₃ hs₃ => ?_
        exact (ih _ _ (hs₃.weaken (Nat.le_add_right (k + 1) 1)) (by omega)).weaken (Nat.le_succ k)
      · rename_i hkind
        refine .advance_bind hs₂ (by simp [hkind]) Nat.one_pos fun s₃ hs₃ => ?_
        exact .pure _ (hs₃.weaken (Nat.le_add_right k 2))
      · exact .complainHere _

theorem passes_body (levels : Nat) : Passes 0 (body levels) := by
  induction levels with
  | zero => exact fun s _ => .tooDeep _
  | succ levels ih =>
    intro s hs
    exact .rounds_bind (reaches_elements ih _ [] false (.refl hs) (by omega))

end TypeReader

namespace ValueReader

theorem passes_scalar (token : Token) (negative : Bool) : Passes 0 (scalar token negative) := by
  intro s hs
  unfold scalar
  split
  · exact .onStore _ (.refl hs)
  · exact .complain _ _

theorem passes_build (scope : TupleId) (kind : TupleKind) (entries : List (Option String × Cell)) :
    Passes 0 (build scope kind entries) :=
  fun _ hs => .onStore _ (.refl hs)

/-- A value is at least one token. -/
theorem passes_value {levels : Nat} {tuple : TupleKind → ParseM Cell}
    (htuple : ∀ kind, Passes 0 (tuple kind)) : Passes 1 (value levels tuple) := by
  intro s hs
  -- whatever the value is, its first token is passed
  have hfirst : ∀ {i : Nat} {rest : Unit → ParseM Cell}, s.cursor.current.kind ≠ .eof → 0 < i →
      Passes 0 (rest ()) → (ParseM.advance i >>= rest).Reaches s.cursor 1 s :=
    fun hkind hi hrest => .advance_bind (.refl hs) hkind hi fun s' hs' => hrest.reaches hs'
  refine .current_bind ?_
  split
  · rename_i hkind
    exact hfirst (by simp [hkind]) Nat.one_pos (htuple _)
  · rename_i hkind
    exact hfirst (by simp [hkind]) Nat.one_pos (htuple _)
  · rename_i hkind
    exact hfirst (by simp [hkind]) Nat.one_pos (htuple _)
  · rename_i hkind
    refine hfirst (by simp [hkind]) Nat.one_pos fun s' hs' => ?_
    exact .bind (TypeReader.passes_body levels s' hs') fun type s'' hs'' => .onStore _ hs''
  · rename_i hkind
    exact hfirst (by simp [hkind]) Nat.one_pos fun s' hs' => .onStore _ (.refl hs')
  · split
    · rename_i hminus
      simp only [Bool.and_eq_true, beq_iff_eq] at hminus
      refine .peek_bind ?_
      split
      · exact hfirst (by simp [hminus.1]) Nat.two_pos (passes_scalar _ _)
      · exact .complain _ _
    · split
      · rename_i hliteral
        exact hfirst (TokenKind.ne_eof (TokenKind.endsStatement_of_isLiteral hliteral)) Nat.one_pos
          (passes_scalar _ _)
      · exact .complain _ _

/-- The name of a tuple's element may be missing. -/
theorem passes_name : Passes 0 name := by
  intro s hs
  refine .current_bind (.peek_bind ?_)
  split
  · rename_i h
    simp only [Bool.and_eq_true, beq_iff_eq] at h
    refine .advance_bind (.refl hs) (by simp [h.1]) Nat.two_pos fun s' hs' => ?_
    exact .pure _ (hs'.weaken (Nat.zero_le _))
  · exact .pure _ (.refl hs)

/-- An element of a tuple is at least one token. -/
theorem passes_element {value nested : ParseM Cell} (hvalue : Passes 1 value)
    (hnested : Passes 0 nested) : Passes 1 (element value nested) := by
  intro s hs
  refine .current_bind ?_
  split
  · rename_i h
    rw [beq_iff_eq] at h
    exact .advance_bind (.refl hs) (by simp [h]) Nat.one_pos fun s' hs' => hnested.reaches hs'
  · exact hvalue s hs

/-- Each round passes an element, so the rounds do not end before the tokens do. -/
theorem reaches_elements {scope : TupleId} {kind : TupleKind} {value nested : ParseM Cell}
    (hvalue : Passes 1 value) (hnested : Passes 0 nested) (rounds : Nat)
    (entries : List (Option String × Cell)) {c : Cursor} {k : Nat} {s : ParseState}
    (hs : c.Onward k s.cursor) (hrounds : c.remaining < k + rounds) :
    (elements scope kind value nested rounds entries).Reaches c k s := by
  induction rounds generalizing entries k s with
  | zero => exact absurd hrounds (not_lt_of_onward hs)
  | succ rounds ih =>
    unfold elements
    refine .current_bind ?_
    split
    · rename_i h
      rw [beq_iff_eq] at h
      refine .advance_bind hs (by simp [h]) Nat.one_pos fun s' hs' => ?_
      exact ((passes_build _ _ _).reaches hs').weaken (Nat.le_succ k)
    · refine .bind (passes_name.reaches hs) fun name s₁ hs₁ => ?_
      have helement := (passes_element hvalue hnested).reaches hs₁
      refine .bind (helement.holdingCells _) fun cell s₂ hs₂ => .current_bind ?_
      -- an element is behind the cursor now, which pays for the next round
      split
      · rename_i hkind
        refine .advance_bind hs₂ (by simp [hkind]) Nat.one_pos fun s₃ hs₃ => ?_
        exact (ih _ (hs₃.weaken (Nat.le_add_right (k + 1) 1)) (by omega)).weaken (Nat.le_succ k)
      · rename_i hkind
        refine .advance_bind hs₂ (by simp [hkind]) Nat.one_pos fun s₃ hs₃ => ?_
        exact ((passes_build _ _ _).reaches hs₃).weaken (Nat.le_add_right k 2)
      · exact (Reaches.complainHere _).holdingCells _

/-- Reading a tuple does not go back. -/
theorem passes_tuple (scope : TupleId) (levels : Nat) (kind : TupleKind) :
    Passes 0 (tuple scope levels kind) := by
  induction levels generalizing kind with
  | zero => exact fun s _ => .tooDeep _
  | succ levels ih =>
    intro s hs
    exact .rounds_bind (reaches_elements (passes_value ih) (ih kind) _ [] (.refl hs) (by omega))

/-- A value takes at least one token. -/
theorem passes_read (scope : TupleId) (levels : Nat) : Passes 1 (read scope levels) :=
  passes_value (passes_tuple scope levels)

end ValueReader

/-! ## Completing operators -/

theorem Draft.passes_bind (scope : TupleId) (draft : Draft) (span : Span) :
    Passes 0 (draft.bind scope span) := by
  have hcoerce : Passes 0 (draft.coerceTypeOperand scope) := by
    intro s hs
    unfold coerceTypeOperand
    split
    · refine .store_bind ?_
      split
      · exact .bind (.onStore _ (.refl hs)) fun _ s' hs' => .pure _ hs'
      · exact .pure _ (.refl hs)
    · exact .pure _ (.refl hs)
  intro s hs
  unfold Draft.bind
  refine .bind (hcoerce s hs) fun d s' hs' => .store_bind ?_
  split
  · exact .pure _ hs'
  · exact (Reaches.complain _ _).holding _
  · split
    · exact .bind (.onStore _ hs') fun _ s'' hs'' => .pure _ hs''
    · exact (Reaches.complain _ _).holding _

namespace Frame

variable {scope : TupleId}

theorem passes_reduce (f : Frame) (w : Waiting) : Passes 0 (reduce scope f w) := by
  intro s hs
  have hmissing : ∀ message span, Reaches s.cursor 0
      (holding f.held (holding w.inner (complain message span)) : ParseM Frame) s :=
    fun _ _ => ((Reaches.complain _ _).holding _).holding _
  have hbind : ∀ (draft : Draft) (span : Span) (f : Frame), Reaches s.cursor 0
      (do return { f with operands := (← holding f.held (draft.bind scope span)) :: f.operands } :
        ParseM Frame) s :=
    fun draft span f =>
      .bind ((Draft.passes_bind scope draft span s hs).holding f.held) fun _ s' hs' => .pure _ hs'
  unfold reduce
  refine .current_bind ?_
  cases w with
  | single op =>
    dsimp only
    split
    · exact hmissing _ _
    · exact hbind _ _ _
  | tail op inner =>
    dsimp only
    split
    · exact hmissing _ _
    · exact hbind _ _ _

theorem passes_reduceWhile (precedence : Nat) (f : Frame) (pending : List Pending) :
    Passes 0 (reduceWhile scope precedence f pending) := by
  induction pending generalizing f with
  | nil => exact fun s hs => .pure _ (.refl hs)
  | cons p rest ih =>
    intro s hs
    cases p with
    | opening => exact .pure _ (.refl hs)
    | waiting w =>
      unfold reduceWhile
      split
      · exact .bind (passes_reduce _ w s hs) fun f' s' hs' => (ih f').reaches hs'
      · exact .pure _ (.refl hs)

theorem passes_closeGroup (f : Frame) (pending : List Pending) :
    Passes 0 (closeGroup scope f pending) := by
  induction pending generalizing f with
  | nil => exact fun s _ => (Reaches.complainHere _).holding _
  | cons p rest ih =>
    intro s hs
    cases p with
    | opening => exact .pure _ (.refl hs)
    | waiting w => exact .bind (passes_reduce _ w s hs) fun f' s' hs' => (ih f').reaches hs'

theorem passes_closeAll (f : Frame) (pending : List Pending) :
    Passes 0 (closeAll scope f pending) := by
  induction pending generalizing f with
  | nil => exact fun s hs => .pure _ (.refl hs)
  | cons p rest ih =>
    intro s hs
    cases p with
    | opening => exact (Reaches.complainHere _).holding _
    | waiting w => exact .bind (passes_reduce _ w s hs) fun f' s' hs' => (ih f').reaches hs'

/-- A frame without an operand at its end has no expression. -/
theorem reaches_finish (f : Frame) {c : Cursor} {n : Nat} {s : ParseState}
    (hs : f.lastOperand = true → c.Onward n s.cursor) : (finish scope f).Reaches c n s := by
  unfold finish
  split
  · exact (Reaches.complainHere _).holding _
  · rename_i hlast
    have hs := hs (by simpa using hlast)
    refine .bind ((passes_closeAll f f.pending).reaches hs) fun f' s' hs' => ?_
    split
    · exact .changeStore_bind hs' fun s'' hs'' => .pure _ hs''
    · exact .complainHere _

/-! ## Operators of several tokens -/

theorem passes_chooseSequence (opener : Token) (candidates : List Operator)
    (operands : List Node) : Passes 0 (chooseSequence opener candidates operands) := by
  intro s hs
  unfold chooseSequence
  split
  · exact .pure _ (.refl hs)
  · exact (Reaches.complain _ _).holding _

theorem passes_leftOperand (f : Frame) (candidates : List Operator) (token : Token) :
    Passes 0 (leftOperand scope f candidates token) := by
  intro s hs
  unfold leftOperand
  split
  · refine .bind (passes_reduceWhile _ f f.pending s hs) fun f' s' hs' => ?_
    split
    · exact .pure _ hs'
    · exact (Reaches.complain _ _).holding _
  · exact .pure _ (.refl hs)

/-- Operators that are still possible after `step` sub-tokens: there is one, and each has at least
these and fewer than `steps` more. -/
structure Possible (steps step : Nat) (candidates : List Operator) : Prop where
  nonempty : candidates ≠ []
  within : ∀ op ∈ candidates, step ≤ op.sequence.length ∧ op.sequence.length < step + steps

/-- Operators that go on are possible after one more sub-token. -/
theorem Possible.next {steps step : Nat} {candidates next : List Operator}
    (h : Possible (steps + 1) step candidates) (hne : next ≠ [])
    (hnext : ∀ op ∈ next, op ∈ candidates ∧ step < op.sequence.length) :
    Possible steps (step + 1) next := by
  refine ⟨hne, fun op hop => ?_⟩
  obtain ⟨hmem, hlt⟩ := hnext op hop
  have hwithin := h.within op hmem
  omega

/-- Operators that begin with a token are possible behind it. -/
theorem possible_sequencesStarting {spelling : String} {leading : Bool}
    (h : Operator.sequencesStarting spelling leading ≠ []) :
    Possible 4 1 (Operator.sequencesStarting spelling leading) := by
  have hall : ∀ op ∈ Operator.sequences, 1 ≤ op.sequence.length ∧ op.sequence.length < 1 + 4 := by
    decide
  exact ⟨h, fun op hop => hall op (List.mem_filter.mp hop).1⟩

section Inner

variable {inner : List String → ParseM Node} (hinner : ∀ terminators, Passes 1 (inner terminators))

include hinner

/-- Every turn takes a sub-token, until the operators that are possible are at their end. An operand
read in vain is passed back over, but nothing in front of it. -/
theorem passes_resolveFrom (terminators : List String) (opener : Token) {steps step : Nat}
    {candidates : List Operator} (hpossible : Possible steps step candidates)
    (operands : List Node) :
    Passes 0 (resolveFrom inner terminators opener steps step candidates operands) := by
  induction steps generalizing step candidates operands with
  | zero =>
    -- no operator has as many sub-tokens
    obtain ⟨op, hop⟩ := List.exists_mem_of_ne_nil _ hpossible.nonempty
    have hwithin := hpossible.within op hop
    omega
  | succ steps ih =>
    intro s hs
    unfold resolveFrom
    rw [List.partition_eq_filter_filter]
    dsimp only
    split
    · exact passes_chooseSequence _ _ _ s hs
    · -- the operators that are not at their end yet
      have halive : ∀ op ∈ candidates.filter (not ∘ fun op => decide (op.sequence.length ≤ step)),
          op ∈ candidates ∧ step < op.sequence.length := by
        intro op hop
        simpa using hop
      refine .current_bind ?_
      split
      · rename_i op hfind
        -- a sub-token that decides is in front
        have hdecides := List.find?_some hfind
        rw [Bool.and_eq_true] at hdecides
        have hnext := hpossible.next (List.cons_ne_nil op []) fun op' hop' => by
          rw [List.mem_singleton.mp hop']
          exact halive op (List.mem_of_find?_eq_some hfind)
        refine .advance_bind (.refl hs) (TokenKind.ne_eof (endsStatement_of_goesOnWith hdecides.1))
          Nat.one_pos fun s' hs' => ?_
        exact ((ih hnext _).reaches hs').weaken (Nat.zero_le _)
      · split
        · exact passes_chooseSequence _ _ _ s hs
        · -- the place before the operand is remembered
          refine .position_bind ?_
          refine .bind ((hinner _ s hs).holding operands) fun operand s' hs' => .current_bind ?_
          split
          · -- a sub-token behind the operand goes on
            rename_i hsurvivors
            rw [Bool.not_eq_true', List.isEmpty_eq_false_iff] at hsurvivors
            have hnext := hpossible.next hsurvivors fun op hop =>
              halive op (List.mem_filter.mp (List.mem_filter.mp hop).1).1
            obtain ⟨op, hop⟩ := List.exists_mem_of_ne_nil _ hsurvivors
            have hgoes := (List.mem_filter.mp hop).2
            refine .advance_bind hs' (TokenKind.ne_eof (endsStatement_of_goesOnWith hgoes))
              Nat.one_pos fun s'' hs'' => ?_
            exact ((ih hnext _).reaches hs'').weaken (Nat.zero_le _)
          · split
            · -- the operand was read in vain, and the cursor goes back in front of it
              refine .changeStore_bind hs' fun s'' hs'' => ?_
              refine .seek_bind (.refl hs) hs'' fun t ht => ?_
              exact (passes_chooseSequence _ _ _).reaches ht
            · exact (Reaches.complain _ _).holding _

/-- However often the operands are read, the token that begins the operator stays behind. -/
theorem reaches_resolveSequence (f : Frame) {candidates : List Operator} (token : Token)
    (hpossible : Possible 4 1 candidates) {s : ParseState} (hs : s.cursor.Proper)
    (hcurrent : s.cursor.current.kind ≠ .eof) :
    (resolveSequence scope inner f candidates token).Reaches s.cursor 1 s := by
  refine .still_bind (passes_leftOperand f candidates token s hs) (still_leftOperand f _ token)
    fun r s₁ hs₁ hsame => ?_
  refine .advance_bind hs₁ (by rwa [hsame]) Nat.one_pos fun s₂ hs₂ => ?_
  refine .bind (((passes_resolveFrom hinner _ _ hpossible _).reaches hs₂).holding _)
    fun _ s₃ hs₃ => ?_
  exact .pure _ hs₃

theorem reaches_operator (f : Frame) (token : Token) {s : ParseState} (hs : s.cursor.Proper)
    (hcurrent : s.cursor.current.kind ≠ .eof) :
    (operator scope inner f token).Reaches s.cursor 1 s := by
  unfold operator
  dsimp only
  split
  · rename_i hsequences
    rw [Bool.not_eq_true', List.isEmpty_eq_false_iff] at hsequences
    exact reaches_resolveSequence hinner f token (possible_sequencesStarting hsequences) hs hcurrent
  · split
    · exact (Reaches.complain _ _).holding _
    · refine .advance_bind (.refl hs) hcurrent Nat.one_pos fun s₁ hs₁ => ?_
      split
      · refine .bind (((Draft.passes_bind _ _ _).reaches hs₁).holding _) fun _ s₂ hs₂ => ?_
        exact .pure _ hs₂
      · exact .pure _ hs₁
      · exact .bind ((passes_reduceWhile _ _ _).reaches hs₁) fun _ s₂ hs₂ => .pure _ hs₂

/-! ## Operands -/

/-- Each round passes an argument, so the rounds do not end before the tokens do. -/
theorem reaches_callArgs (callee : Token) (rounds : Nat) (args : List Node)
    (names : List (Option String)) {c : Cursor} {k : Nat} {s : ParseState}
    (hs : c.Onward k s.cursor) (hrounds : c.remaining < k + rounds) :
    (callArgs inner callee rounds args names).Reaches c k s := by
  induction rounds generalizing args names k s with
  | zero => exact absurd hrounds (not_lt_of_onward hs)
  | succ rounds ih =>
    unfold callArgs
    refine .bind (TypeReader.passes_name.reaches hs) fun name s₁ hs₁ => ?_
    refine .bind (((hinner []).reaches hs₁).holding args) fun arg s₂ hs₂ => .current_bind ?_
    -- an argument is behind the cursor now, which pays for the next round
    split
    · rename_i hkind
      refine .advance_bind hs₂ (by simp [hkind]) Nat.one_pos fun s₃ hs₃ => ?_
      exact (ih _ _ (hs₃.weaken (Nat.le_add_right (k + 1) 1)) (by omega)).weaken (Nat.le_succ k)
    · rename_i hkind
      refine .advance_bind hs₂ (by simp [hkind]) Nat.one_pos fun s₃ hs₃ => ?_
      exact .pure _ (hs₃.weaken (Nat.le_add_right k 2))
    · exact (Reaches.complainHere _).holding _

theorem reaches_call (callee : Token) {s : ParseState} (hs : s.cursor.Proper)
    (hcurrent : s.cursor.current.kind ≠ .eof) :
    (call scope inner callee).Reaches s.cursor 1 s := by
  refine .advance_bind (.refl hs) hcurrent Nat.two_pos fun s₁ hs₁ => .current_bind ?_
  split
  · rename_i h
    rw [beq_iff_eq] at h
    refine .advance_bind hs₁ (by simp [h]) Nat.one_pos fun s₂ hs₂ => ?_
    refine .bind (.pure _ hs₂) fun _ s₃ hs₃ => ?_
    exact ((Draft.passes_bind _ _ _).reaches hs₃).weaken (by omega)
  · refine .rounds_bind ?_
    have hargs := reaches_callArgs hinner callee (s₁.cursor.remaining + 1) [] [] (.refl hs₁.proper)
      (by omega)
    refine .bind (hargs.after hs₁) fun r s₂ hs₂ => ?_
    exact (Draft.passes_bind _ _ _).reaches hs₂

omit hinner in
theorem passes_identifier (token : Token) : Passes 0 (identifier scope token) := by
  intro s hs
  unfold identifier
  refine .store_bind ?_
  split
  · exact .pure _ (.refl hs)
  · exact .bind (.onStore _ (.refl hs)) fun _ s' hs' => .pure _ hs'

omit hinner in
theorem reaches_operand (levels : Nat) {s : ParseState} (hs : s.cursor.Proper) :
    (operand scope levels s.cursor.current).Reaches s.cursor 1 s := by
  have hread : (do return .literal (← ValueReader.read scope levels) : ParseM Node).Reaches
      s.cursor 1 s :=
    .bind (ValueReader.passes_read scope levels s hs) fun _ s' hs' => .pure _ hs'
  unfold operand
  split
  · exact .complain _ _
  · exact .complain _ _
  · exact hread
  · exact hread
  · split
    · rename_i hliteral
      refine .advance_bind (.refl hs)
        (TokenKind.ne_eof (TokenKind.endsStatement_of_isLiteral hliteral)) Nat.one_pos
        fun s₁ hs₁ => ?_
      exact .bind ((ValueReader.passes_scalar _ _).reaches hs₁) fun _ s₂ hs₂ => .pure _ hs₂
    · exact .complain _ _

/-! ## Frames -/

/-- Taking in a token passes it. -/
theorem reaches_step (levels : Nat) (f : Frame) {s : ParseState} (hs : s.cursor.Proper)
    (hcurrent : s.cursor.current.kind ≠ .eof) :
    (step scope levels inner f s.cursor.current).Reaches s.cursor 1 s := by
  have hcomplain : ∀ message span,
      (holding f.held (complain message span) : ParseM Frame).Reaches s.cursor 1 s :=
    fun _ _ => (Reaches.complain _ _).holding _
  have hpush : ∀ {m : ParseM Node}, m.Reaches s.cursor 1 s →
      (do return f.pushOperand (← holding f.held m) : ParseM Frame).Reaches s.cursor 1 s :=
    fun hm => .bind (hm.holding f.held) fun _ s' hs' => .pure _ hs'
  unfold step
  split
  · exact hcomplain _ _
  · split
    · exact hcomplain _ _
    · refine .still_bind (passes_closeGroup f f.pending s hs) (still_closeGroup f f.pending)
        fun f' s₁ hs₁ hsame => ?_
      exact .advance_bind hs₁ (by rwa [hsame]) Nat.one_pos fun s₂ hs₂ => .pure _ hs₂
  · split
    · exact hcomplain _ _
    · exact .advance_bind (.refl hs) hcurrent Nat.one_pos fun s₁ hs₁ => .pure _ hs₁
  · exact reaches_operator hinner f _ hs hcurrent
  · exact reaches_operator hinner f _ hs hcurrent
  · exact hcomplain _ _
  · split
    · exact hcomplain _ _
    · split
      · refine .peek_bind ?_
        split
        · exact hpush (reaches_call hinner _ hs hcurrent)
        · refine .advance_bind (.refl hs) hcurrent Nat.one_pos fun s₁ hs₁ => ?_
          exact .bind ((passes_identifier _).reaches hs₁) fun _ s₂ hs₂ => .pure _ hs₂
      · exact hpush (reaches_operand levels hs)

/-- A frame at whose end there is an operand has passed a token: the invariant is that an operand
which was read last lies behind the place where the frame began. -/
theorem reaches_run (levels rounds : Nat) (f : Frame) {c : Cursor} {k : Nat} {s : ParseState}
    (hs : c.Onward k s.cursor) (hrounds : c.remaining < k + rounds)
    (hlast : f.lastOperand = true → 1 ≤ k) :
    (run scope levels inner rounds f).Reaches c 1 s := by
  induction rounds generalizing f k s with
  | zero => exact absurd hrounds (not_lt_of_onward hs)
  | succ rounds ih =>
    unfold run
    refine .current_bind ?_
    split
    · exact reaches_finish f fun h => hs.weaken (hlast h)
    · rename_i hends
      have hcurrent : s.cursor.current.kind ≠ .eof := by
        simp only [endsAt, Bool.or_eq_true, not_or] at hends
        exact TokenKind.ne_eof (by simpa using hends.1)
      refine .bind ((reaches_step hinner levels f hs.proper hcurrent).after hs) fun f' s' hs' => ?_
      exact ih f' hs' (by omega) fun _ => Nat.le_add_left 1 k

end Inner

end Frame

/-- A frame that succeeds has passed a token. -/
theorem passes_parseFrame (scope : TupleId) (levels : Nat) (terminators : List String) :
    Passes 1 (parseFrame scope levels terminators) := by
  induction levels generalizing terminators with
  | zero => exact fun s _ => (Reaches.tooDeep _).onFailure _
  | succ levels ih =>
    intro s hs
    refine .onFailure _ (.rounds_bind ?_)
    exact Frame.reaches_run ih levels _ _ (.refl hs) (by omega) Bool.noConfusion

/-- A statement that succeeds has passed a token. -/
theorem passes_parseStatement (scope : TupleId) : Passes 1 (parseStatement scope) := by
  intro s hs
  unfold parseStatement
  refine .store_bind (.bind (passes_parseFrame scope _ [] s hs) fun node s' hs' => .current_bind ?_)
  split
  · exact .pure _ hs'
  · exact ((Reaches.complain _ _).holding _).onFailure _

end TupleLang
