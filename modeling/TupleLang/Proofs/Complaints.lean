import Mathlib
import TupleLang.Proofs.DirectParser

/-!
# What a failed parse complains about

Three complaints of the parser are about its own stacks and not about the source: that an operator
has no operand, that a closing parenthesis matches none, and that an operator of several tokens is
ambiguous. A fourth one says that a loop makes no progress. They are known by the words with which
they begin. A message may quote a piece of the source that holds the same words, but no other
message begins with them.

`ParseM.Finds Q m` says that `m` makes none of the three complaints, makes the fourth one only where
it stalls, and that its results have the property `Q`.
-/

namespace TupleLang

/-- The words with which a complaint about the parser's own stacks begins. -/
def stackComplaints : List String := ["missing operand for", "unmatched", "ambiguous operator"]

/-- The words with which a complaint of the parser about itself begins. -/
def ownComplaints : List String := "parsing makes" :: stackComplaints

/-- The message begins with none of these words, and goes its own way before any of them ends. -/
def Unlike (message : String) : Prop :=
  ∀ words ∈ ownComplaints,
    ¬words.toList <+: message.toList ∧ ¬message.toList <+: words.toList

instance (message : String) : Decidable (Unlike message) :=
  inferInstanceAs (Decidable (∀ words ∈ ownComplaints, _))

/-- What stands behind the beginning of a message does not matter. -/
theorem Unlike.append {lead : String} (h : Unlike lead) (rest : String) :
    Unlike (lead ++ rest) := by
  intro words hwords
  obtain ⟨hlead, hwords⟩ := h words hwords
  rw [String.toList_append]
  refine ⟨fun hp => ?_, fun hp => hwords ((List.prefix_append _ _).trans hp)⟩
  rcases List.prefix_or_prefix_of_prefix hp (List.prefix_append _ _) with hp | hp
  · exact hlead hp
  · exact hwords hp

/-- The diagnostic is a complaint about the parser's own stacks. -/
def Diagnostic.BlamesParser (d : Diagnostic) : Prop :=
  ∃ words ∈ stackComplaints, words.toList <+: d.message.toList

/-- A failure is a complaint about the source, or a loop has stalled. -/
def ParseFailure.Sober : ParseFailure → Prop
  | .complaint message _ => Unlike message
  | .stalled => True

namespace ParseFailure.Sober

variable {e : ParseFailure}

/-- Neither of them is about the parser's own stacks. -/
theorem not_blamesParser (h : e.Sober) : ¬e.diagnostic.BlamesParser := by
  rintro ⟨words, hwords, hprefix⟩
  cases e with
  | complaint message span => exact (h words (List.mem_cons_of_mem _ hwords)).1 hprefix
  | stalled =>
    have hnone : ∀ words ∈ stackComplaints,
        ¬words.toList <+: "parsing makes no progress".toList := by decide
    exact hnone words hwords hprefix

/-- Only a loop that has stalled says that there is no progress. -/
theorem message_ne (h : e.Sober) (hstalled : e ≠ .stalled) :
    e.diagnostic.message ≠ "parsing makes no progress" := by
  cases e with
  | complaint message span =>
    rintro (rfl : message = _)
    exact (h "parsing makes" List.mem_cons_self).1 (by decide)
  | stalled => exact absurd rfl hstalled

end ParseFailure.Sober

/-- No error of a store is worded like a complaint about the parser's stacks. -/
theorem Error.unlike_message (e : Error) : Unlike e.message := by
  cases e with
  | incompatibleType expected got => exact ((Unlike.append (by decide) _).append _).append _
  | accessDenied operation kind =>
    exact (((Unlike.append (by decide) _).append _).append _).append _
  | wrongType requested actual => exact ((Unlike.append (by decide) _).append _).append _
  | notFound what => exact Unlike.append (by decide) _
  | duplicateName name => exact Unlike.append (by decide) _
  | invalidExpression messages => exact Unlike.append (by decide) _
  | stackUnderflow action => exact (Unlike.append (by decide) _).append _
  | depthExceeded depth limit => exact ((Unlike.append (by decide) _).append _).append _

/-- No explanation why there is no literal is worded like that. -/
theorem Literal.unlike_of_read {token : Token} {negative : Bool} {message : String}
    (h : read token negative = .error message) : Unlike message := by
  have hinteger : ∀ {text e}, integer? text negative = .error e → Unlike e := by
    intro text e he
    unfold integer? at he
    split at he
    · cases he
    · rw [← Except.error.inj he]
      exact (Unlike.append (by decide) _).append _
  have hfail : ∀ {literal e m}, orFail literal m = .error e → Unlike m → Unlike e := by
    intro literal e m he hm
    unfold orFail at he
    split at he
    · cases he
    · rwa [← Except.error.inj he]
  unfold read at h
  dsimp only at h
  split at h
  -- two kinds of integers: the number may be unreadable, and it may be too large
  case h_4 =>
    cases hn : integer? token.text negative with
    | error e => simp only [hn, bind, Except.bind] at h; exact Except.error.inj h ▸ hinteger hn
    | ok n =>
      simp only [hn, bind, Except.bind] at h
      exact hfail h ((Unlike.append (by decide) _).append _)
  case h_5 =>
    cases hn : integer? (Cut.inside 0 1 token.text) negative with
    | error e => simp only [hn, bind, Except.bind] at h; exact Except.error.inj h ▸ hinteger hn
    | ok n =>
      simp only [hn, bind, Except.bind] at h
      exact hfail h ((Unlike.append (by decide) _).append _)
  -- one attempt at the text decides
  case h_6 => exact hfail h ((Unlike.append (by decide) _).append _)
  case h_7 => exact hfail h ((Unlike.append (by decide) _).append _)
  case h_8 => exact hfail h ((Unlike.append (by decide) _).append _)
  case h_9 => exact hfail h ((Unlike.append (by decide) _).append _)
  case h_10 => exact hfail h ((Unlike.append (by decide) _).append _)
  case h_11 =>
    split at h
    · cases h
    · exact Except.error.inj h ▸ (Unlike.append (by decide) _).append _
  -- the token is no literal; words, texts and names are read without fail
  case h_18 => exact Except.error.inj h ▸ (Unlike.append (by decide) _).append _
  all_goals cases h

namespace ParseM

variable {α β : Type} {Q Q' : α → Prop}

/-- The results of the parser have the property `Q`, and its failures are sober. -/
def Finds (m : ParseM α) (Q : α → Prop) : Prop :=
  ∀ s, match m s with
    | .ok a _ => Q a
    | .error e _ => e.Sober

/-- The parser never complains about its own stacks. -/
abbrev Sober (m : ParseM α) : Prop := Finds m fun _ => True

namespace Finds

variable {m m' : ParseM α} {f : α → ParseM β} {P : β → Prop}

/-- What a program gives is as it says. -/
theorem of_ok {a : α} {s s' : ParseState} (h : Finds m Q) (hrun : m s = .ok a s') : Q a := by
  have hm := h s
  rwa [hrun] at hm

/-- Its failures blame nobody but the source. -/
theorem of_error {e : ParseFailure} {s s' : ParseState} (h : Finds m Q)
    (hrun : m s = .error e s') : e.Sober := by
  have hm := h s
  rwa [hrun] at hm

/-- Giving a result that is as it should be. -/
protected theorem pure {a : α} (ha : Q a) : Finds (pure a) Q := fun _ => ha

/-- Failing soberly. -/
protected theorem throw {e : ParseFailure} (he : e.Sober) : Finds (throw e) Q := fun _ => he

/-- A parser that stalls blames nobody. -/
theorem stalled : Finds (MonadExcept.throw ParseFailure.stalled) Q :=
  .throw (e := .stalled) trivial

/-- A complaint that is not one of the parser about itself. -/
theorem complain {message : String} (h : Unlike message) (span : Span) :
    Finds (ParseM.complain message span) Q := fun _ => h

/-- So for the token in front. -/
theorem complainHere {message : String} (h : Unlike message) :
    Finds (ParseM.complainHere message) Q := fun _ => h

/-- So for a level that is refused. -/
theorem tooDeep {what : String} (h : Unlike what) : Finds (ParseM.tooDeep what) Q := fun _ =>
  ((h.append _).append _).append _

/-- One parser after the other. -/
protected theorem bind (hm : Finds m Q) (hf : ∀ a, Q a → Finds (f a) P) : Finds (m >>= f) P := by
  intro s
  have hrun := hm s
  change match EStateM.bind m f s with
    | .ok b _ => P b
    | .error e _ => e.Sober
  unfold EStateM.bind
  cases hres : m s with
  | error e s' =>
    rw [hres] at hrun
    exact hrun
  | ok a s' =>
    rw [hres] at hrun
    exact hf a hrun s'

/-- One parser after the other, whatever the first one gives. -/
theorem andThen (hm : Sober m) (hf : ∀ a, Finds (f a) P) : Finds (m >>= f) P :=
  hm.bind fun a _ => hf a

/-- Either of two parsers. -/
protected theorem ite {c : Prop} [Decidable c] (h : c → Finds m Q) (h' : ¬c → Finds m' Q) :
    Finds (if c then m else m') Q := by
  split
  · exact h ‹_›
  · exact h' ‹_›

/-- Cleaning up after a failure does not change what it says. -/
theorem onFailure (g : ParseState → ParseState) (hm : Finds m Q) :
    Finds (ParseM.onFailure g m) Q := by
  intro s
  have hrun := hm s
  unfold ParseM.onFailure
  cases hres : m s with
  | ok a s' =>
    rw [hres] at hrun
    exact hrun
  | error e s' =>
    rw [hres] at hrun
    exact hrun

/-- Holding cells changes no complaint. -/
theorem holdingCells (cells : List Cell) (hm : Finds m Q) :
    Finds (ParseM.holdingCells cells m) Q := hm.onFailure _

/-- Holding nodes changes no complaint. -/
theorem holding (nodes : List Node) (hm : Finds m Q) : Finds (ParseM.holding nodes m) Q :=
  hm.onFailure _

end Finds

/-! ## Tokens and the store -/

/-- A parser that cannot fail. -/
theorem sober_of_ok {m : ParseM α} (h : ∀ s, ∃ a s', m s = .ok a s') : Sober m := by
  intro s
  obtain ⟨a, s', hrun⟩ := h s
  rw [hrun]
  trivial

theorem sober_current : Sober current := sober_of_ok fun _ => ⟨_, _, rfl⟩

theorem sober_peek (offset : Nat) : Sober (peek offset) := sober_of_ok fun _ => ⟨_, _, rfl⟩

theorem sober_advance (n : Nat) : Sober (advance n) := sober_of_ok fun _ => ⟨_, _, rfl⟩

theorem sober_seek (position : Nat) : Sober (seek position) := sober_of_ok fun _ => ⟨_, _, rfl⟩

theorem sober_position : Sober position := sober_of_ok fun _ => ⟨_, _, rfl⟩

theorem sober_rounds : Sober rounds := sober_of_ok fun _ => ⟨_, _, rfl⟩

theorem sober_store : Sober store := sober_of_ok fun _ => ⟨_, _, rfl⟩

/-- A change of the store complains of nothing. -/
theorem sober_changeStore (f : Store → Store) : Sober (changeStore f) :=
  sober_of_ok fun _ => ⟨_, _, rfl⟩

/-- Work on the store fails without blaming the parser. -/
theorem sober_onStore (m : StoreM α) : Sober (onStore m) := by
  intro s
  unfold onStore
  cases m s.store with
  | ok a s' => trivial
  | error e s' => exact e.unlike_message

end ParseM

open ParseM

/-! ## Types and values -/

namespace TypeReader

/-- Reading a name of a type is sober. -/
theorem sober_name : Sober name := by
  refine .andThen sober_current fun token => .andThen (sober_peek 1) fun next => ?_
  refine .ite (fun _ => .andThen (sober_advance 2) fun _ => .pure trivial) fun _ => .pure trivial

/-- Reading an element of a type is sober if what is nested is. -/
theorem sober_element {nested : ParseM TypeDesc} (hnested : Sober nested) :
    Sober (element nested) := by
  refine .andThen sober_current fun token => ?_
  split
  · exact .andThen (sober_advance 1) fun _ => hnested
  · exact .andThen (sober_advance 1) fun _ => hnested
  · exact .andThen (sober_advance 1) fun _ => .pure trivial
  · exact .andThen (sober_advance 1) fun _ => .pure trivial
  · exact .complain ((Unlike.append (by decide) _).append _) _

/-- Reading the elements of a type is sober if what is nested is. -/
theorem sober_elements {nested : ParseM TypeDesc} (hnested : Sober nested) (rounds : Nat)
    (fields : List TypeDesc.Field) (comma : Bool) : Sober
    (elements nested rounds fields comma) := by
  induction rounds generalizing fields comma with
  | zero => exact .stalled
  | succ rounds ih =>
    unfold elements
    refine .andThen sober_current fun token => .ite (fun _ => ?_) fun _ => ?_
    · exact .andThen (sober_advance 1) fun _ => .pure trivial
    · refine .andThen sober_name fun name => .andThen (sober_element hnested) fun type => ?_
      refine .andThen sober_current fun token => ?_
      split
      · exact .andThen (sober_advance 1) fun _ => ih _ _
      · exact .andThen (sober_advance 1) fun _ => .pure trivial
      · exact .complainHere ((Unlike.append (by decide) _).append _)

/-- Reading a type is sober. -/
theorem sober_body (levels : Nat) : Sober (body levels) := by
  induction levels with
  | zero => exact .tooDeep (by decide)
  | succ levels ih => exact .andThen sober_rounds fun rounds => sober_elements ih rounds [] false

end TypeReader

namespace ValueReader

/-- Reading a scalar is sober. -/
theorem sober_scalar (token : Token) (negative : Bool) : Sober (scalar token negative) := by
  unfold scalar
  split
  · exact sober_onStore _
  · rename_i message hread
    exact .complain (Literal.unlike_of_read hread) _

/-- Reading a value is sober if tuples are. -/
theorem sober_value {levels : Nat} {tuple : TupleKind → ParseM Cell}
    (htuple : ∀ kind, Sober (tuple kind)) : Sober (value levels tuple) := by
  refine .andThen sober_current fun token => ?_
  split
  · exact .andThen (sober_advance 1) fun _ => htuple _
  · exact .andThen (sober_advance 1) fun _ => htuple _
  · exact .andThen (sober_advance 1) fun _ => htuple _
  · refine .andThen (sober_advance 1) fun _ =>
      .andThen (TypeReader.sober_body levels) fun type => ?_
    exact sober_onStore _
  · exact .andThen (sober_advance 1) fun _ => sober_onStore _
  · refine .ite (fun _ => .andThen (sober_peek 1) fun number => ?_) fun _ => ?_
    · refine .ite (fun _ => ?_) fun _ => .complain (by decide) _
      exact .andThen (sober_advance 2) fun _ => sober_scalar number true
    · refine .ite (fun _ => ?_) fun _ => .complain ((Unlike.append (by decide) _).append _) _
      exact .andThen (sober_advance 1) fun _ => sober_scalar token false

theorem sober_name : Sober name := by
  refine .andThen sober_current fun token => .andThen (sober_peek 1) fun next => ?_
  refine .ite (fun _ => .andThen (sober_advance 2) fun _ => .pure trivial) fun _ => .pure trivial

theorem sober_elements {scope : TupleId} {kind : TupleKind} {value nested : ParseM Cell}
    (hvalue : Sober value) (hnested : Sober nested) (rounds : Nat)
    (entries : List (Option String × Cell)) :
    Sober (elements scope kind value nested rounds entries) := by
  -- a tuple in bare parentheses, of the kind around it, or any value
  have helement : Sober (element value nested) := by
    refine .andThen sober_current fun token => .ite (fun _ => ?_) fun _ => hvalue
    exact .andThen (sober_advance 1) fun _ => hnested
  induction rounds generalizing entries with
  | zero => exact Finds.stalled.holdingCells _
  | succ rounds ih =>
    unfold elements
    refine .andThen sober_current fun token => .ite (fun _ => ?_) fun _ => ?_
    · exact .andThen (sober_advance 1) fun _ => sober_onStore _
    · refine .andThen sober_name fun name => .andThen (helement.holdingCells _) fun cell => ?_
      refine .andThen sober_current fun token => ?_
      split
      · exact .andThen (sober_advance 1) fun _ => ih _
      · exact .andThen (sober_advance 1) fun _ => sober_onStore _
      · exact (Finds.complainHere ((Unlike.append (by decide) _).append _)).holdingCells _

/-- Reading a tuple is sober. -/
theorem sober_tuple (scope : TupleId) (levels : Nat) (kind : TupleKind) :
    Sober (tuple scope levels kind) := by
  induction levels generalizing kind with
  | zero => exact .tooDeep (by decide)
  | succ levels ih =>
    exact .andThen sober_rounds fun rounds => sober_elements (sober_value ih) (ih kind) rounds []

/-- Reading a value is sober, whatever the depth. -/
theorem sober_read (scope : TupleId) (levels : Nat) : Sober (read scope levels) :=
  sober_value (sober_tuple scope levels)

end ValueReader

/-! ## Binding -/

/-- Binding complains about types and overloads only. -/
theorem Draft.sober_bind (scope : TupleId) (draft : Draft) (span : Span) :
    Sober (draft.bind scope span) := by
  have hcoerce : Sober (draft.coerceTypeOperand scope) := by
    unfold coerceTypeOperand
    refine .ite (fun _ => .andThen sober_store fun s => ?_) fun _ => .pure trivial
    split
    · exact .andThen (sober_onStore _) fun _ => .pure trivial
    · exact .pure trivial
  unfold Draft.bind
  refine .andThen hcoerce fun d => .andThen sober_store fun s => ?_
  split
  · exact .pure trivial
  · refine (Finds.complain ?_ _).holding _
    -- the name is quoted at once, where the parser's own complaint goes on with a word
    have hlead : Unlike "ambiguous `" := by decide
    exact ((((((hlead.append _).append _).append _).append _).append _).append _).append _
  · split
    · exact .andThen (sober_onStore _) fun _ => .pure trivial
    · refine (Finds.complain ?_ _).holding _
      unfold noActionMessage
      split
      · exact ((Unlike.append (by decide) _).append _).append _
      · exact ((((Unlike.append (by decide) _).append _).append _).append _).append _

end TupleLang
