import TupleLang.Proofs.Build

/-!
# Reading values keeps account of tuples

Reading a type or a scalar involves no tuples. A reader of a tuple holds the cells of the elements
read so far, and hands on a single cell for the whole tuple.
-/

namespace TupleLang

open ParseM

variable {pre : Multiset Cell}

namespace TypeReader

/-- Reading a name of a type brings nothing. -/
theorem linear_name : Linear pre name fun _ => pre := by
  unfold name
  refine .bind .current fun token => .bind (.peek 1) fun next => .ite (fun _ => ?_) fun _ => ?_
  · exact .bind (.advance 2) fun _ => .pure _ rfl
  · exact .pure _ rfl

/-- Reading an element of a type brings nothing. -/
theorem linear_element {nested : ParseM TypeDesc} (hnested : Linear 0 nested fun _ => 0) :
    Linear 0 (element nested) fun _ => 0 := by
  unfold element
  refine .bind .current fun token => ?_
  split
  · exact .bind (.advance 1) fun _ => hnested
  · exact .bind (.advance 1) fun _ => hnested
  · exact .bind (.advance 1) fun _ => .pure _ rfl
  · exact .bind (.advance 1) fun _ => .pure _ rfl
  · exact (Fails.complain _ _).linear

/-- Reading the elements of a type brings nothing. -/
theorem linear_elements {nested : ParseM TypeDesc} (hnested : Linear 0 nested fun _ => 0)
    (rounds : Nat) (fields : List TypeDesc.Field) (comma : Bool) :
    Linear 0 (elements nested rounds fields comma) fun _ => 0 := by
  induction rounds generalizing fields comma with
  | zero => exact (Fails.throw _).linear
  | succ rounds ih =>
    unfold elements
    refine .bind .current fun token => .ite (fun _ => ?_) fun _ => ?_
    · exact .bind (.advance 1) fun _ => .pure _ rfl
    · refine .bind linear_name fun name => .bind (linear_element hnested) fun type => ?_
      refine .bind .current fun token => ?_
      split
      · exact .bind (.advance 1) fun _ => ih _ _
      · exact .bind (.advance 1) fun _ => .pure _ rfl
      · exact (Fails.complainHere _).linear

/-- Reading a type brings nothing. -/
theorem linear_body (levels : Nat) : Linear 0 (body levels) fun _ => 0 := by
  induction levels with
  | zero => exact (Fails.tooDeep _).linear
  | succ levels ih => exact .bind .rounds fun rounds => linear_elements ih rounds [] false

end TypeReader

namespace Literal

variable {typed : Typed}

/-- Native values are no tuples. -/
@[simp] theorem tupleId?_native (n : Native) (v : n.Carrier) :
    (native n v).value.tupleId? = none := by
  cases n <;> rfl

/-- A literal that does not fail is there. -/
theorem eq_of_orFail {literal : Option Typed} {message : String}
    (h : orFail literal message = .ok typed) : literal = some typed := by
  unfold orFail at h
  split at h
  · cases h
    rfl
  · cases h

/-- A number is no tuple. -/
theorem tupleId?_word {w : Word} {n : Int} (h : word? w n = some typed) :
    typed.value.tupleId? = none := by
  obtain ⟨x, -, rfl⟩ := Option.map_eq_some_iff.mp h
  exact tupleId?_native _ _

/-- What is computed from an optional value is no tuple if it never is. -/
theorem tupleId?_map {α : Type} {x : Option α} {f : α → Typed} {message : String}
    (h : orFail (x.map f) message = .ok typed) (hf : ∀ a, (f a).value.tupleId? = none) :
    typed.value.tupleId? = none := by
  obtain ⟨a, -, rfl⟩ := Option.map_eq_some_iff.mp (eq_of_orFail h)
  exact hf a

/-- Literals are no tuples. -/
theorem tupleId?_read {token : Token} {negative : Bool} (h : read token negative = .ok typed) :
    typed.value.tupleId? = none := by
  unfold read at h
  dsimp only at h
  split at h
  case h_4 =>
    cases hint : integer? token.text negative with
    | error e => simp [hint, bind, Except.bind] at h
    | ok n =>
      simp only [hint, bind, Except.bind] at h
      -- what is too large for an int is a long
      rcases Option.or_eq_some_iff.mp (eq_of_orFail h) with h | ⟨-, h⟩
      · exact tupleId?_word h
      · exact tupleId?_word h
  case h_5 =>
    cases hint : integer? (Cut.inside 0 1 token.text) negative with
    | error e => simp [hint, bind, Except.bind] at h
    | ok n =>
      simp only [hint, bind, Except.bind] at h
      exact tupleId?_word (eq_of_orFail h)
  case h_6 => exact tupleId?_map h fun _ => rfl
  case h_7 => exact tupleId?_map h fun _ => rfl
  case h_8 => exact tupleId?_map h fun _ => rfl
  case h_9 => exact tupleId?_map h fun _ => rfl
  case h_10 => exact tupleId?_map h fun _ => rfl
  case h_11 =>
    split at h
    · cases h
      rfl
    · cases h
  all_goals cases h <;> rfl

end Literal

namespace ValueReader

/-- Reading a scalar brings its cell. -/
theorem linear_scalar (token : Token) (negative : Bool) :
    Linear 0 (scalar token negative) fun c => {c} := by
  unfold scalar
  split
  · rename_i typed hread
    exact .newCell _ (Literal.tupleId?_read hread)
  · exact (Fails.complain _ _).linear

/-- Reading a value brings its cell if reading tuples does. -/
theorem linear_value {levels : Nat} {tuple : TupleKind → ParseM Cell}
    (htuple : ∀ kind, Linear 0 (tuple kind) fun c => {c}) :
    Linear 0 (value levels tuple) fun c => {c} := by
  unfold value
  refine .bind .current fun token => ?_
  split
  · exact .bind (.advance 1) fun _ => htuple _
  · exact .bind (.advance 1) fun _ => htuple _
  · exact .bind (.advance 1) fun _ => htuple _
  · exact .bind (.advance 1) fun _ => .bind (TypeReader.linear_body levels) fun _ => .newNative _ _
  · exact .bind (.advance 1) fun _ => .newNative _ _
  · refine .ite (fun _ => ?_) fun _ => .ite (fun _ => ?_) fun _ => ?_
    · refine .bind (.peek 1) fun number => .ite (fun _ => ?_) fun _ => ?_
      · exact .bind (.advance 2) fun _ => linear_scalar _ _
      · exact (Fails.complain _ _).linear
    · exact .bind (.advance 1) fun _ => linear_scalar _ _
    · exact (Fails.complain _ _).linear

theorem linear_name : Linear pre name fun _ => pre := by
  unfold name
  refine .bind .current fun token => .bind (.peek 1) fun next => .ite (fun _ => ?_) fun _ => ?_
  · exact .bind (.advance 2) fun _ => .pure _ rfl
  · exact .pure _ rfl

theorem linear_element {value nested : ParseM Cell} (hvalue : Linear 0 value fun c => {c})
    (hnested : Linear 0 nested fun c => {c}) : Linear 0 (element value nested) fun c => {c} := by
  unfold element
  refine .bind .current fun token => .ite (fun _ => ?_) fun _ => hvalue
  exact .bind (.advance 1) fun _ => hnested

theorem linear_elements {scope : TupleId} {kind : TupleKind} {value nested : ParseM Cell}
    (hvalue : Linear 0 value fun c => {c}) (hnested : Linear 0 nested fun c => {c}) (rounds : Nat)
    (entries : List (Option String × Cell)) :
    Linear (entries.map (·.2) : List Cell) (elements scope kind value nested rounds entries)
      fun c => {c} := by
  induction rounds generalizing entries with
  | zero => exact ((Fails.throw _).holdingCells _).linear.congr (by simp) fun _ => rfl
  | succ rounds ih =>
    unfold elements
    refine .bind .current fun token => .ite (fun _ => ?_) fun _ => ?_
    · exact .bind (.advance 1) fun _ => linear_build scope kind entries
    · refine .bind linear_name fun name => ?_
      have helement := (linear_element hvalue hnested).holdingCells (entries.map (·.2))
      refine .bind (helement.congr (by simp) fun _ => rfl) fun cell => ?_
      -- the new cell joins those that are held
      have hcells : ((entries.map (·.2) : List Cell) : Multiset Cell) + {cell} =
          ((entries ++ [(name, cell)]).map (·.2) : List Cell) := by
        rw [List.map_append, ← Multiset.coe_add]
        rfl
      rw [hcells]
      refine .bind .current fun token => ?_
      split
      · exact .bind (.advance 1) fun _ => ih _
      · exact .bind (.advance 1) fun _ => linear_build scope kind _
      · exact ((Fails.complainHere _).holdingCells _).linear.congr (by simp) fun _ => rfl

/-- Reading a tuple brings its cell, or nothing where it fails. -/
theorem linear_tuple (scope : TupleId) (levels : Nat) (kind : TupleKind) :
    Linear 0 (tuple scope levels kind) fun c => {c} := by
  induction levels generalizing kind with
  | zero => exact (Fails.tooDeep _).linear
  | succ levels ih =>
    exact .bind .rounds fun rounds => linear_elements (linear_value ih) (ih kind) rounds []

/-- Reading a value brings its cell, whatever the depth. -/
theorem linear_read (scope : TupleId) (levels : Nat) :
    Linear 0 (read scope levels) fun c => {c} :=
  linear_value (linear_tuple scope levels)

end ValueReader

end TupleLang
