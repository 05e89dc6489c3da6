import Mathlib
import TupleLang.Proofs.DirectParser

/-!
# Staying within a statement

A statement ends at the next semicolon or at the end of input. The functions of the parser move the
cursor back and forth, but never past the token that ends the statement (`Cursor.Within`).

`ParseM.Keeps c m s` says that `m`, run from `s`, ends within the statement of `c`, whether it
succeeds or fails. Parts that do not move the cursor at all are `ParseM.Still`.
-/

namespace TupleLang

namespace Cursor

/-- Position of the token that ends the statement. -/
def statementEnd (c : Cursor) : Nat := c.pos + c.statementRest

/-- The cursor is not beyond the end of input, and the token there says so. -/
structure Proper (c : Cursor) : Prop where
  inRange : c.pos ≤ c.tokens.size
  eof : c.eof.kind = .eof

/-- The second cursor stands in the same tokens, within the same statement. -/
structure Within (c c' : Cursor) : Prop where
  proper : c'.Proper
  tokens : c'.tokens = c.tokens
  eof : c'.eof = c.eof
  statementEnd : c'.statementEnd = c.statementEnd

variable {c c' c'' : Cursor}

/-- A cursor is within its own statement. -/
protected theorem Within.refl (hc : c.Proper) : c.Within c := ⟨hc, rfl, rfl, rfl⟩

/-- Staying within a statement composes. -/
protected theorem Within.trans (h : c.Within c') (h' : c'.Within c'') : c.Within c'' :=
  ⟨h'.proper, h'.tokens.trans h.tokens, h'.eof.trans h.eof, h'.statementEnd.trans h.statementEnd⟩

/-- Dropping some of the leading elements with a property leaves the others. -/
theorem length_takeWhile_drop {α : Type} (p : α → Bool) (l : List α) (n : Nat)
    (hn : n ≤ (l.takeWhile p).length) :
    ((l.drop n).takeWhile p).length = (l.takeWhile p).length - n := by
  induction n generalizing l with
  | zero => simp
  | succ n ih =>
    cases l with
    | nil => simp at hn
    | cons x l =>
      by_cases hx : p x = true
      · simp only [List.takeWhile_cons_of_pos hx, List.length_cons] at hn ⊢
        rw [List.drop_succ_cons, ih l (by omega)]
        omega
      · simp [List.takeWhile_cons_of_neg hx] at hn

/-- Elements with a property at the first places are counted. -/
theorem le_length_takeWhile {α : Type} {p : α → Bool} {l : List α} {n : Nat}
    (h : ∀ i < n, ∃ x, l[i]? = some x ∧ p x = true) : n ≤ (l.takeWhile p).length := by
  induction n generalizing l with
  | zero => exact Nat.zero_le _
  | succ n ih =>
    cases l with
    | nil => simpa using h 0 (Nat.succ_pos n)
    | cons x l =>
      obtain ⟨y, hy, hp⟩ := h 0 (Nat.succ_pos n)
      cases hy
      rw [List.takeWhile_cons_of_pos hp, List.length_cons]
      exact Nat.succ_le_succ (ih fun i hi => h (i + 1) (Nat.succ_lt_succ hi))

/-- The statement ends within the tokens. -/
theorem statementRest_le (c : Cursor) : c.statementRest ≤ c.remaining := by
  have hlen := (List.takeWhile_sublist (fun t : Token => !t.kind.endsStatement)
    (l := c.tokens.toList.drop c.pos)).length_le
  simpa [statementRest, remaining] using hlen

/-- Passing tokens of the statement leaves as many fewer. -/
theorem statementRest_advance (hc : c.Proper) {n : Nat} (hn : n ≤ c.statementRest) :
    (c.advance n).statementRest = c.statementRest - n := by
  have hrest := c.statementRest_le
  have hpos : (c.advance n).pos = c.pos + n := by
    simp only [Cursor.advance, pos_seek, remaining] at *
    have := hc.inRange
    omega
  have hdrop := length_takeWhile_drop _ _ n hn
  rw [List.drop_drop, ← hpos] at hdrop
  exact hdrop

/-- Tokens ahead that do not end the statement belong to it. -/
theorem le_statementRest (hc : c.Proper) {n : Nat}
    (h : ∀ i < n, (c.peek i).kind.endsStatement = false) : n ≤ c.statementRest := by
  refine le_length_takeWhile fun i hi => ?_
  have hi := h i hi
  unfold peek at hi
  cases htoken : c.tokens[c.pos + i]? with
  | none => simp [htoken, hc.eof, TokenKind.endsStatement] at hi
  | some t =>
    refine ⟨t, ?_, ?_⟩
    · simpa using htoken
    · simpa [htoken] using hi

/-- At a token that ends the statement, nothing of it is left. -/
theorem statementRest_eq_zero (h : c.current.kind.endsStatement = true) : c.statementRest = 0 := by
  unfold statementRest
  unfold current peek at h
  cases hdrop : c.tokens.toList.drop c.pos with
  | nil => rfl
  | cons t rest =>
    have ht : c.tokens[c.pos]? = some t := by
      have hhead := congrArg List.head? hdrop
      simpa [List.head?_drop] using hhead
    simp only [Nat.add_zero, ht, Option.getD_some] at h
    simp [h]

/-- Behind a statement, nothing of it is left. -/
theorem statementRest_skipStatement (c : Cursor) : c.skipStatement.statementRest = 0 := by
  have hdrop := length_takeWhile_drop (fun t : Token => !t.kind.endsStatement)
    (c.tokens.toList.drop c.pos) c.statementRest (Nat.le_refl _)
  have hpos : c.tokens.toList.drop (min (c.pos + c.statementRest) c.tokens.size) =
      (c.tokens.toList.drop c.pos).drop c.statementRest := by
    rw [List.drop_drop]
    exact List.drop_eq_drop_iff.mpr (by simp)
  rw [← hpos] at hdrop
  exact hdrop.trans (Nat.sub_self _)

/-- Going behind a statement twice is going there once. -/
theorem skipStatement_skipStatement (c : Cursor) :
    c.skipStatement.skipStatement = c.skipStatement := by
  have hpos : c.skipStatement.pos ≤ c.tokens.size := Nat.min_le_right _ _
  rw [skipStatement, statementRest_skipStatement]
  change { c.skipStatement with pos := min c.skipStatement.pos c.tokens.size } = _
  rw [Nat.min_eq_left hpos]

/-- Passing tokens of the statement stays within it. -/
theorem Within.advance {n : Nat} (h : c.Within c') (hn : n ≤ c'.statementRest) :
    c.Within (c'.advance n) := by
  have hrest := c'.statementRest_le
  have hrange := h.proper.inRange
  have hpos : (c'.advance n).pos = c'.pos + n := by
    simp only [Cursor.advance, pos_seek, remaining] at *
    omega
  refine h.trans ⟨⟨Nat.min_le_right _ _, h.proper.eof⟩, rfl, rfl, ?_⟩
  rw [Cursor.statementEnd, Cursor.statementEnd, statementRest_advance h.proper hn, hpos]
  omega

/-- Going back to a place in the statement. -/
theorem Within.seek_pos (h : c.Within c') (h' : c.Within c'') : c''.seek c'.pos = c' := by
  obtain ⟨tokens, pos, eof⟩ := c'
  have htokens : c''.tokens = tokens := h'.tokens.trans h.tokens.symm
  have heof : c''.eof = eof := h'.eof.trans h.eof.symm
  have hpos : min pos tokens.size = pos := Nat.min_eq_left h.proper.inRange
  simp [seek, htokens, heof, hpos]

/-- The end of a statement is within it, and nothing of the statement is left there. -/
theorem Within.skipStatement (h : c.Within c') :
    c.Within c'.skipStatement ∧ c'.skipStatement.statementRest = 0 :=
  ⟨h.advance (Nat.le_refl _),
    (statementRest_advance h.proper (Nat.le_refl _)).trans (Nat.sub_self _)⟩

end Cursor

namespace ParseM

variable {α β : Type} {c : Cursor} {s : ParseState}

/-- Run from `s`, the parser ends within the statement of `c`. -/
def Keeps (c : Cursor) (m : ParseM α) (s : ParseState) : Prop :=
  match m s with
  | .ok _ s' => c.Within s'.cursor
  | .error _ s' => c.Within s'.cursor

/-- The parser stays within the statement in which it begins. -/
def Stays (m : ParseM α) : Prop := ∀ c s, c.Within s.cursor → m.Keeps c s

/-- The parser leaves the cursor where it is. -/
def Still (m : ParseM α) : Prop :=
  ∀ s, match m s with
    | .ok _ s' => s'.cursor = s.cursor
    | .error _ s' => s'.cursor = s.cursor

/-! ## Parsers that leave the cursor where it is -/

namespace Still

variable {m m' : ParseM α} {f : α → ParseM β}

/-- Giving a result leaves the cursor alone. -/
protected theorem pure (a : α) : Still (pure a : ParseM α) := fun _ => rfl

/-- Failing leaves the cursor alone. -/
protected theorem throw (e : ParseFailure) : Still (throw e : ParseM α) := fun _ => rfl

/-- A complaint leaves the cursor alone. -/
theorem complain (message : String) (span : Span) :
    Still (ParseM.complain message span : ParseM α) := fun _ => rfl

/-- A complaint about the token in front leaves the cursor alone. -/
theorem complainHere (message : String) : Still (ParseM.complainHere message : ParseM α) :=
  fun _ => rfl

/-- Refusing a level leaves the cursor alone. -/
theorem tooDeep (what : String) : Still (ParseM.tooDeep what : ParseM α) := fun _ => rfl

/-- Looking at the token in front leaves the cursor alone. -/
theorem current : Still ParseM.current := fun _ => rfl

/-- Asking for the store leaves the cursor alone. -/
theorem store : Still ParseM.store := fun _ => rfl

/-- Changing the store leaves the cursor alone. -/
theorem changeStore (f : Store → Store) : Still (ParseM.changeStore f) := fun _ => rfl

/-- Work on the store leaves the cursor alone. -/
theorem onStore (m : StoreM α) : Still (ParseM.onStore m) := by
  intro s
  unfold ParseM.onStore
  cases m s.store with
  | ok a store => rfl
  | error e store => rfl

/-- Two programs that leave the cursor alone do so together. -/
protected theorem bind (hm : Still m) (hf : ∀ a, Still (f a)) : Still (m >>= f) := by
  intro s
  have hrun := hm s
  change match EStateM.bind m f s with
    | .ok _ s' => s'.cursor = s.cursor
    | .error _ s' => s'.cursor = s.cursor
  unfold EStateM.bind
  cases hres : m s with
  | error e s' =>
    rw [hres] at hrun
    exact hrun
  | ok a s' =>
    rw [hres] at hrun
    have hnext := hf a s'
    dsimp only at hrun ⊢
    rw [hrun] at hnext
    exact hnext

/-- Either branch leaves the cursor alone. -/
protected theorem ite {p : Prop} [Decidable p] (h : Still m) (h' : Still m') :
    Still (if p then m else m') := by
  split
  · exact h
  · exact h'

/-- Holding cells leaves the cursor alone. -/
theorem holdingCells (cells : List Cell) (hm : Still m) : Still (ParseM.holdingCells cells m) := by
  intro s
  have hrun := hm s
  simp only [ParseM.holdingCells, onFailure]
  cases hres : m s with
  | ok a s' => simpa only [hres] using hrun
  | error e s' => simpa only [hres] using hrun

/-- Holding nodes leaves the cursor alone. -/
theorem holding (nodes : List Node) (hm : Still m) : Still (ParseM.holding nodes m) :=
  holdingCells (Node.cellsOf nodes) hm

/-- A program that leaves the cursor alone keeps within what is ahead. -/
theorem keeps (hm : Still m) (hs : c.Within s.cursor) : m.Keeps c s := by
  have hrun := hm s
  unfold Keeps
  cases hres : m s with
  | ok a s' =>
    rw [hres] at hrun
    dsimp only at hrun ⊢
    rwa [hrun]
  | error e s' =>
    rw [hres] at hrun
    dsimp only at hrun ⊢
    rwa [hrun]

/-- It stays there from wherever it starts. -/
theorem stays (hm : Still m) : Stays m := fun _ _ hs => hm.keeps hs

/-- Go on at the same place. -/
theorem keeps_bind (hm : Still m) (hs : c.Within s.cursor)
    (hf : ∀ a s', s'.cursor = s.cursor → (f a).Keeps c s') : (m >>= f).Keeps c s := by
  have hrun := hm s
  change match EStateM.bind m f s with
    | .ok _ s' => c.Within s'.cursor
    | .error _ s' => c.Within s'.cursor
  unfold EStateM.bind
  cases hres : m s with
  | error e s' =>
    rw [hres] at hrun
    dsimp only at hrun ⊢
    rwa [hrun]
  | ok a s' =>
    rw [hres] at hrun
    exact hf a s' hrun

end Still

/-! ## Parsers that move the cursor -/

namespace Keeps

variable {m : ParseM α} {f : α → ParseM β}

/-- Look at the token under the cursor. -/
theorem current_bind {f : Token → ParseM β} (hf : (f s.cursor.current).Keeps c s) :
    (ParseM.current >>= f).Keeps c s := hf

/-- Look at a token ahead. -/
theorem peek_bind {n : Nat} {f : Token → ParseM β} (hf : (f (s.cursor.peek n)).Keeps c s) :
    (ParseM.peek n >>= f).Keeps c s := hf

/-- Remember the place. -/
theorem position_bind {f : Nat → ParseM β} (hf : (f s.cursor.pos).Keeps c s) :
    (ParseM.position >>= f).Keeps c s := hf

/-- Count the rounds that are left. -/
theorem rounds_bind {f : Nat → ParseM β} (hf : (f (s.cursor.remaining + 1)).Keeps c s) :
    (ParseM.rounds >>= f).Keeps c s := hf

/-- Go back to a place in the statement. -/
theorem seek_bind {c' : Cursor} {f : Unit → ParseM β} (hc' : c.Within c')
    (hs : c.Within s.cursor) (hf : ∀ s', c.Within s'.cursor → (f ()).Keeps c s') :
    (ParseM.seek c'.pos >>= f).Keeps c s := by
  refine hf { s with cursor := s.cursor.seek c'.pos } ?_
  rw [hc'.seek_pos hs]
  exact hc'

/-- Pass a token that does not end the statement. -/
theorem advance_bind {f : Unit → ParseM β} (hs : c.Within s.cursor)
    (h : s.cursor.current.kind.endsStatement = false)
    (hf : ∀ s', c.Within s'.cursor → (f ()).Keeps c s') : (ParseM.advance 1 >>= f).Keeps c s := by
  refine hf _ (hs.advance (Cursor.le_statementRest hs.proper fun i hi => ?_))
  obtain rfl : i = 0 := by omega
  exact h

/-- Pass two tokens that do not end the statement. -/
theorem advance_two_bind {f : Unit → ParseM β} (hs : c.Within s.cursor)
    (h : s.cursor.current.kind.endsStatement = false)
    (h' : (s.cursor.peek 1).kind.endsStatement = false)
    (hf : ∀ s', c.Within s'.cursor → (f ()).Keeps c s') : (ParseM.advance 2 >>= f).Keeps c s := by
  refine hf _ (hs.advance (Cursor.le_statementRest hs.proper fun i hi => ?_))
  obtain rfl | rfl : i = 0 ∨ i = 1 := by omega
  · exact h
  · exact h'

/-- One parser after the other. -/
protected theorem bind (hm : m.Keeps c s) (hf : ∀ a s', c.Within s'.cursor → (f a).Keeps c s') :
    (m >>= f).Keeps c s := by
  unfold Keeps at hm
  change match EStateM.bind m f s with
    | .ok _ s' => c.Within s'.cursor
    | .error _ s' => c.Within s'.cursor
  unfold EStateM.bind
  cases hres : m s with
  | error e s' =>
    rw [hres] at hm
    exact hm
  | ok a s' =>
    rw [hres] at hm
    exact hf a s' hm

/-- Holding cells keeps within what is ahead. -/
theorem holdingCells (cells : List Cell) (hm : m.Keeps c s) :
    (ParseM.holdingCells cells m).Keeps c s := by
  unfold Keeps ParseM.holdingCells onFailure at *
  cases hres : m s with
  | ok a s' =>
    rw [hres] at hm
    exact hm
  | error e s' =>
    rw [hres] at hm
    exact hm

/-- Holding nodes keeps within what is ahead. -/
theorem holding (nodes : List Node) (hm : m.Keeps c s) : (ParseM.holding nodes m).Keeps c s :=
  holdingCells (Node.cellsOf nodes) hm

end Keeps

/-- Run from `s`, the parser ends within the statement of `c`, and at its end if it fails. -/
def Skips (c : Cursor) (m : ParseM α) (s : ParseState) : Prop :=
  match m s with
  | .ok _ s' => c.Within s'.cursor
  | .error _ s' => c.Within s'.cursor ∧ s'.cursor.statementRest = 0

namespace Skips

variable {m : ParseM α}

/-- Skipping keeps within what is ahead. -/
theorem keeps (hm : m.Skips c s) : m.Keeps c s := by
  unfold Skips at hm
  unfold Keeps
  cases hres : m s with
  | ok a s' =>
    rw [hres] at hm
    exact hm
  | error e s' =>
    rw [hres] at hm
    exact hm.1

/-- A parser that moves to the end of the statement when it fails. -/
theorem onFailure (hm : m.Keeps c s) :
    (ParseM.onFailure (fun s => { s with cursor := s.cursor.skipStatement }) m).Skips c s := by
  unfold Keeps at hm
  unfold Skips ParseM.onFailure
  cases hres : m s with
  | ok a s' =>
    rw [hres] at hm
    exact hm
  | error e s' =>
    rw [hres] at hm
    exact hm.skipStatement

end Skips

end ParseM

end TupleLang
