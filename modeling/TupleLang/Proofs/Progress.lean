import TupleLang.Proofs.ExprGrammar

/-!
# Progress and depth

Two facts about the readers of the grammar. They never come out in front of the lexemes where they
began, and those that read an operand pass at least one lexeme, so a loop over lexemes needs no more
rounds than there are lexemes (`run_rounds`). And what the readers of values and types read with
some levels of nesting, they read in the same way with more of them (`read_mono`).
-/

namespace TupleLang.Grammar

variable {α β : Type}

/-! ## Passing lexemes -/

/-- The reader leaves no more lexemes than there are behind the first `n`. -/
def Passes (n : Nat) (scan : Scan α) : Prop :=
  ∀ ls x rest, scan ls = some (x, rest) → rest.length ≤ ls.length - n

namespace Passes

variable {n : Nat} {scan : Scan α}

/-- What passes lexemes passes none at least. -/
theorem weaken (h : Passes n scan) : Passes 0 scan := by
  intro ls x rest hscan
  have hle := h ls x rest hscan
  omega

/-- What is read behind some lexemes leaves no more than there are behind these. -/
theorem drop (h : Passes 0 scan) {k : Nat} {ls rest : List Lexeme} {x : α}
    (hscan : scan (ls.drop k) = some (x, rest)) : rest.length ≤ ls.length - k := by
  have hle := h _ x rest hscan
  rwa [List.length_drop] at hle

end Passes

/-- A name may be empty. -/
theorem passes_name (signs : List String) : Passes 0 (name signs) := by
  intro ls x rest h
  rw [name] at h
  split at h
  · obtain ⟨-, rfl⟩ := Prod.mk.inj (Option.some.inj h)
    rw [List.length_drop]
    omega
  · obtain ⟨-, rfl⟩ := Prod.mk.inj (Option.some.inj h)
    omega

section Types

variable {nested : Scan TypeDesc}

/-- Reading an element of a type does not go back. -/
theorem passes_typeElement (hnested : Passes 0 nested) : Passes 0 (typeElement nested) := by
  intro ls x rest h
  rw [typeElement] at h
  -- two openings with a type behind them, and two words that are types
  split at h
  · have hle := hnested.drop h
    omega
  · have hle := hnested.drop h
    omega
  · obtain ⟨-, rfl⟩ := Prod.mk.inj (Option.some.inj h)
    rw [List.length_drop]
    omega
  · obtain ⟨-, rfl⟩ := Prod.mk.inj (Option.some.inj h)
    rw [List.length_drop]
    omega
  · cases h

/-- Nor does reading the elements of a type. -/
theorem passes_typeElements (hnested : Passes 0 nested) (rounds : Nat)
    (fields : List TypeDesc.Field) (comma : Bool) :
    Passes 0 (typeElements nested rounds fields comma) := by
  induction rounds generalizing fields comma with
  | zero =>
    intro ls x rest h
    cases h
  | succ rounds ih =>
    intro ls x rest h
    rw [typeElements] at h
    split at h
    · obtain ⟨-, rfl⟩ := Prod.mk.inj (Option.some.inj h)
      rw [List.length_drop]
      omega
    · obtain ⟨⟨name, ls₁⟩, hname, h⟩ := Option.bind_eq_some_iff.mp h
      obtain ⟨⟨type, ls₂⟩, htype, h⟩ := Option.bind_eq_some_iff.mp h
      -- neither the name nor the type gives tokens back
      have hle₁ := passes_name _ _ _ _ hname
      have hle₂ := passes_typeElement hnested _ _ _ htype
      dsimp only at h hle₁ hle₂
      split at h
      · have hle := (ih _ _).drop h
        omega
      · obtain ⟨-, rfl⟩ := Prod.mk.inj (Option.some.inj h)
        rw [List.length_drop]
        omega
      · cases h

/-- Nor does reading a type. -/
theorem passes_typeBody (levels : Nat) : Passes 0 (typeBody levels) := by
  induction levels with
  | zero =>
    intro ls x rest h
    cases h
  | succ levels ih =>
    intro ls x rest h
    exact passes_typeElements ih _ _ _ _ _ _ h

end Types

section Values

variable {levels : Nat}

/-- Reading a value passes a lexeme. -/
theorem passes_value {tuple : TupleKind → Scan Datum} (htuple : ∀ kind, Passes 0 (tuple kind)) :
    Passes 1 (value levels tuple) := by
  intro ls x rest h
  rw [value] at h
  dsimp only at h
  -- three kinds of tuples, a type, a name, and scalars with and without a sign
  split at h
  · exact (htuple _).drop h
  · exact (htuple _).drop h
  · exact (htuple _).drop h
  · obtain ⟨⟨t, ls'⟩, ht, hx⟩ := Option.map_eq_some_iff.mp h
    obtain ⟨-, rfl⟩ := Prod.mk.inj hx
    exact (passes_typeBody levels).drop ht
  · obtain ⟨-, rfl⟩ := Prod.mk.inj (Option.some.inj h)
    rw [List.length_drop]
  · split at h
    · split at h
      · obtain ⟨d, -, hx⟩ := Option.map_eq_some_iff.mp h
        obtain ⟨-, rfl⟩ := Prod.mk.inj hx
        rw [List.length_drop]
        omega
      · cases h
    · split at h
      · obtain ⟨d, -, hx⟩ := Option.map_eq_some_iff.mp h
        obtain ⟨-, rfl⟩ := Prod.mk.inj hx
        rw [List.length_drop]
      · cases h

/-- Reading an element of a tuple does not go back. -/
theorem passes_element {value nested : Scan Datum} (hvalue : Passes 0 value)
    (hnested : Passes 0 nested) : Passes 0 (element value nested) := by
  intro ls x rest h
  rw [element] at h
  split at h
  · have hle := hnested.drop h
    omega
  · exact hvalue _ _ _ h

/-- Nor does reading the elements of a tuple. -/
theorem passes_elements {kind : TupleKind} {value nested : Scan Datum} (hvalue : Passes 0 value)
    (hnested : Passes 0 nested) (rounds : Nat) (entries : List Datum.Entry) :
    Passes 0 (elements kind value nested rounds entries) := by
  induction rounds generalizing entries with
  | zero =>
    intro ls x rest h
    cases h
  | succ rounds ih =>
    intro ls x rest h
    rw [elements] at h
    split at h
    · obtain ⟨d, -, hx⟩ := Option.map_eq_some_iff.mp h
      obtain ⟨-, rfl⟩ := Prod.mk.inj hx
      rw [List.length_drop]
      omega
    · obtain ⟨⟨name, ls₁⟩, hname, h⟩ := Option.bind_eq_some_iff.mp h
      obtain ⟨⟨d, ls₂⟩, hd, h⟩ := Option.bind_eq_some_iff.mp h
      -- neither the name nor the value gives tokens back
      have hle₁ := passes_name _ _ _ _ hname
      have hle₂ := passes_element hvalue hnested _ _ _ hd
      dsimp only at h hle₁ hle₂
      split at h
      · have hle := (ih _).drop h
        omega
      · obtain ⟨d, -, hx⟩ := Option.map_eq_some_iff.mp h
        obtain ⟨-, rfl⟩ := Prod.mk.inj hx
        rw [List.length_drop]
        omega
      · cases h

/-- Nor does reading a tuple. -/
theorem passes_tuple (levels : Nat) (kind : TupleKind) : Passes 0 (tuple levels kind) := by
  induction levels generalizing kind with
  | zero =>
    intro ls x rest h
    cases h
  | succ levels ih =>
    intro ls x rest h
    exact passes_elements (passes_value ih).weaken (ih kind) _ _ _ _ _ h

/-- Reading a value passes a lexeme, whatever the depth. -/
theorem passes_read (levels : Nat) : Passes 1 (read levels) := passes_value (passes_tuple levels)

end Values

/-! ## Passing the lexemes of expressions -/

section Expressions

variable {Γ : Env} {inner : List String → Scan Tree} (hinner : ∀ ts, Passes 0 (inner ts))

include hinner

/-- Reading a conditional does not go back. -/
theorem passes_conditional (ts : List String) : Passes 0 (conditional inner ts) := by
  intro ls x rest h
  rw [conditional] at h
  obtain ⟨⟨c, ls₁⟩, hc, h⟩ := Option.bind_eq_some_iff.mp h
  have hle₁ := hinner _ _ _ _ hc
  dsimp only at h
  split at h
  · obtain ⟨⟨b, ls₂⟩, hb, h⟩ := Option.bind_eq_some_iff.mp h
    have hle₂ := (hinner _).drop hb
    dsimp only at h
    split at h
    · obtain ⟨-, rfl⟩ := Prod.mk.inj (Option.some.inj h)
      rw [List.length_drop]
      omega
    · obtain ⟨-, rfl⟩ := Prod.mk.inj (Option.some.inj h)
      rw [List.length_drop]
      omega
  · cases h

/-- Nor does reading a selection. -/
theorem passes_selection (ts : List String) (left : Tree) : Passes 0 (selection inner ts left) := by
  intro ls x rest h
  rw [selection] at h
  obtain ⟨⟨b, ls₁⟩, hb, h⟩ := Option.bind_eq_some_iff.mp h
  have hle := hinner _ _ _ _ hb
  dsimp only at h
  split at h
  · obtain ⟨-, rfl⟩ := Prod.mk.inj (Option.some.inj h)
    rw [List.length_drop]
    omega
  · cases h

omit hinner in

/-- Nor does reading a type test. -/
theorem passes_typeTest (left : Tree) : Passes 0 (typeTest left) := by
  intro ls x rest h
  rw [typeTest] at h
  split at h
  · obtain ⟨-, rfl⟩ := Prod.mk.inj (Option.some.inj h)
    rw [List.length_drop]
    omega
  · obtain ⟨-, rfl⟩ := Prod.mk.inj (Option.some.inj h)
    omega

/-- Nor does reading arguments. -/
theorem passes_callArgs (rounds : Nat) (args : List Tree) (names : List (Option String)) :
    Passes 0 (callArgs inner rounds args names) := by
  induction rounds generalizing args names with
  | zero =>
    intro ls x rest h
    cases h
  | succ rounds ih =>
    intro ls x rest h
    rw [callArgs] at h
    obtain ⟨⟨name, ls₁⟩, hname, h⟩ := Option.bind_eq_some_iff.mp h
    obtain ⟨⟨arg, ls₂⟩, harg, h⟩ := Option.bind_eq_some_iff.mp h
    have hle₁ := passes_name _ _ _ _ hname
    have hle₂ := hinner _ _ _ _ harg
    dsimp only at h hle₁ hle₂
    split at h
    · have hle := (ih _ _).drop h
      omega
    · obtain ⟨-, rfl⟩ := Prod.mk.inj (Option.some.inj h)
      rw [List.length_drop]
      omega
    · cases h

/-- Reading a call passes a lexeme. -/
theorem passes_call : Passes 1 (call Γ inner) := by
  intro ls x rest h
  rw [call] at h
  obtain ⟨⟨args, ls₁⟩, hargs, h⟩ := Option.bind_eq_some_iff.mp h
  obtain ⟨t, -, hx⟩ := Option.map_eq_some_iff.mp h
  obtain ⟨-, rfl⟩ := Prod.mk.inj hx
  split at hargs
  · obtain ⟨-, rfl⟩ := Prod.mk.inj (Option.some.inj hargs)
    rw [List.length_drop, List.length_drop]
    omega
  · have hle := (passes_callArgs hinner _ _ _).drop hargs
    change ls₁.length ≤ ls.length - 1
    omega

/-- Reading an operand passes a lexeme. -/
theorem passes_operand (levels : Nat) : Passes 1 (operand Γ inner levels) := by
  intro ls x rest h
  rw [operand] at h
  -- a word, two kinds of literals with parentheses, and scalars
  split at h
  · split at h
    · exact passes_call hinner _ _ _ h
    · obtain ⟨-, rfl⟩ := Prod.mk.inj (Option.some.inj h)
      rw [List.length_drop]
  · obtain ⟨⟨d, ls₁⟩, hd, hx⟩ := Option.map_eq_some_iff.mp h
    obtain ⟨-, rfl⟩ := Prod.mk.inj hx
    exact passes_read levels _ _ _ hd
  · obtain ⟨⟨d, ls₁⟩, hd, hx⟩ := Option.map_eq_some_iff.mp h
    obtain ⟨-, rfl⟩ := Prod.mk.inj hx
    exact passes_read levels _ _ _ hd
  · split at h
    · obtain ⟨d, -, hx⟩ := Option.map_eq_some_iff.mp h
      obtain ⟨-, rfl⟩ := Prod.mk.inj hx
      rw [List.length_drop]
    · cases h

omit hinner in

/-- What follows the reduction of operators passes a lexeme. -/
theorem passes_resolveAfter {f : TreeFrame} {precedence : Nat}
    {resolve : Tree → Scan (Operator × List Tree)} (hresolve : ∀ left, Passes 0 (resolve left)) :
    Passes 1 (resolveAfter Γ f precedence resolve) := by
  intro ls x rest h
  rw [resolveAfter] at h
  obtain ⟨⟨operands, pending⟩, -, h⟩ := Option.bind_eq_some_iff.mp h
  dsimp only at h
  split at h
  · obtain ⟨⟨r, ls₁⟩, hr, hx⟩ := Option.map_eq_some_iff.mp h
    obtain ⟨-, rfl⟩ := Prod.mk.inj hx
    exact (hresolve _).drop hr
  · cases h

/-- Reading a prefix operator passes a lexeme. -/
theorem passes_prefixed (ts : List String) (f : TreeFrame) : Passes 1 (prefixed Γ inner ts f) := by
  intro ls x rest h
  rw [prefixed] at h
  split at h
  · obtain ⟨⟨r, ls₁⟩, hr, hx⟩ := Option.map_eq_some_iff.mp h
    obtain ⟨-, rfl⟩ := Prod.mk.inj hx
    exact (passes_conditional hinner ts).drop hr
  · obtain ⟨op, -, h⟩ := Option.bind_eq_some_iff.mp h
    split at h
    · obtain ⟨t, -, hx⟩ := Option.map_eq_some_iff.mp h
      obtain ⟨-, rfl⟩ := Prod.mk.inj hx
      rw [List.length_drop]
    · obtain ⟨-, rfl⟩ := Prod.mk.inj (Option.some.inj h)
      rw [List.length_drop]

/-- Reading an infix operator passes a lexeme. -/
theorem passes_infixed (ts : List String) (f : TreeFrame) : Passes 1 (infixed Γ inner ts f) := by
  intro ls x rest h
  rw [infixed] at h
  split at h
  · exact passes_resolveAfter (passes_selection hinner ts) _ _ _ h
  · split at h
    · exact passes_resolveAfter passes_typeTest _ _ _ h
    · obtain ⟨op, -, h⟩ := Option.bind_eq_some_iff.mp h
      obtain ⟨reduced, -, hx⟩ := Option.map_eq_some_iff.mp h
      obtain ⟨-, rfl⟩ := Prod.mk.inj hx
      rw [List.length_drop]

/-- Each step of a frame passes a lexeme. -/
theorem passes_step (ts : List String) (f : TreeFrame) (levels : Nat) :
    Passes 1 (step Γ inner ts f levels) := by
  -- symbols and keywords are operators of both kinds
  have hoperator : ∀ ls x rest,
      (if f.lastOperand = true then infixed Γ inner ts f ls else prefixed Γ inner ts f ls) =
        some (x, rest) → rest.length ≤ ls.length - 1 := by
    intro ls x rest h
    split at h
    · exact passes_infixed hinner ts f _ _ _ h
    · exact passes_prefixed hinner ts f _ _ _ h
  intro ls x rest h
  rw [step] at h
  split at h
  · split at h
    · obtain ⟨r, -, hx⟩ := Option.map_eq_some_iff.mp h
      obtain ⟨-, rfl⟩ := Prod.mk.inj hx
      rw [List.length_drop]
    · cases h
  · split at h
    · cases h
    · obtain ⟨-, rfl⟩ := Prod.mk.inj (Option.some.inj h)
      rw [List.length_drop]
  · exact hoperator _ _ _ h
  · exact hoperator _ _ _ h
  · split at h
    · cases h
    · obtain ⟨⟨t, ls₁⟩, ht, hx⟩ := Option.map_eq_some_iff.mp h
      obtain ⟨-, rfl⟩ := Prod.mk.inj hx
      exact passes_operand hinner levels _ _ _ ht

/-- The steps of a frame do not go back. -/
theorem passes_run (levels : Nat) (ts : List String) (rounds : Nat) (f : TreeFrame) :
    Passes 0 (run Γ levels inner ts rounds f) := by
  induction rounds generalizing f with
  | zero =>
    intro ls x rest h
    cases h
  | succ rounds ih =>
    intro ls x rest h
    rw [run] at h
    split at h
    · obtain ⟨t, -, hx⟩ := Option.map_eq_some_iff.mp h
      obtain ⟨-, rfl⟩ := Prod.mk.inj hx
      omega
    · obtain ⟨⟨f', ls₁⟩, hstep, h⟩ := Option.bind_eq_some_iff.mp h
      have hle₁ := passes_step hinner ts f levels _ _ _ hstep
      have hle₂ := ih f' ls₁ _ _ h
      omega

end Expressions

/-- Reading a frame does not go back. -/
theorem passes_frame (Γ : Env) (levels : Nat) (ts : List String) :
    Passes 0 (frame Γ levels ts) := by
  induction levels generalizing ts with
  | zero =>
    intro ls x rest h
    cases h
  | succ levels ih =>
    intro ls x rest h
    exact passes_run ih levels ts _ _ _ _ _ h

/-! ## Rounds -/

/-- A frame ends in front of the end of input at the latest. -/
theorem endsAt_nil (ts : List String) (f : TreeFrame) : f.endsAt ts (ahead [] 0) = true := rfl

/-- A frame takes no more rounds than there are lexemes. -/
theorem run_rounds (Γ : Env) (levels : Nat) (ts : List String) {rounds rounds' : Nat}
    {f : TreeFrame} {ls : List Lexeme} (h : ls.length < rounds) (h' : ls.length < rounds') :
    run Γ levels (frame Γ levels) ts rounds f ls = run Γ levels
    (frame Γ levels) ts rounds' f ls := by
  induction rounds generalizing rounds' f ls with
  | zero => omega
  | succ rounds ih =>
    obtain ⟨rounds', rfl⟩ : ∃ r, rounds' = r + 1 := ⟨rounds' - 1, by omega⟩
    rw [run, run]
    split
    · rfl
    · rename_i hends
      -- without tokens the frame would end
      have hne : ls ≠ [] := by
        rintro rfl
        exact hends (endsAt_nil ts f)
      have hpos := List.length_pos_of_ne_nil hne
      cases hstep : step Γ (frame Γ levels) ts f levels ls with
      | none => rfl
      | some r =>
        obtain ⟨f', ls'⟩ := r
        have hle := passes_step (passes_frame Γ levels) ts f levels _ _ _ hstep
        exact ih (show ls'.length < rounds by omega) (show ls'.length < rounds' by omega)

/-- What becomes of a frame with the given lexemes ahead. -/
def runs (Γ : Env) (levels : Nat) (ts : List String) (f : TreeFrame) : Scan Tree := fun ls =>
  run Γ levels (frame Γ levels) ts (ls.length + 1) f ls

section Runs

variable {Γ : Env} {levels : Nat} {ts : List String} {f : TreeFrame} {ls : List Lexeme}

/-- With a level left a frame is read step by step. -/
theorem frame_succ : frame Γ (levels + 1) ts ls = runs Γ levels ts {} ls := rfl

/-- Where a frame ends it is finished. -/
theorem runs_of_endsAt (h : f.endsAt ts (ahead ls 0) = true) :
    runs Γ levels ts f ls = (Γ.finish f).map (·, ls) := by
  rw [runs, run, if_pos h]

/-- A frame that does not end takes in a lexeme and goes on. -/
theorem runs_of_not_endsAt (h : f.endsAt ts (ahead ls 0) = false) :
    runs Γ levels ts f ls =
      (step Γ (frame Γ levels) ts f levels ls).bind fun r => runs Γ levels ts r.1 r.2 := by
  have hne : ls ≠ [] := by
    rintro rfl
    rw [endsAt_nil] at h
    cases h
  -- a step passes a token, so one round less is enough for the rest
  have hpos := List.length_pos_of_ne_nil hne
  rw [runs, run, if_neg (by rw [h]; exact Bool.false_ne_true)]
  cases hstep : step Γ (frame Γ levels) ts f levels ls with
  | none => rfl
  | some r =>
    have hle := passes_step (passes_frame Γ levels) ts f levels _ _ _ hstep
    exact run_rounds Γ levels ts (by omega) (Nat.lt_succ_self _)

end Runs

/-! ## Levels -/

/-- What the first reader reads, the second one reads in the same way. -/
def Below (scan scan' : Scan α) : Prop := ∀ ls r, scan ls = some r → scan' ls = some r

/-- A scan is below itself. -/
theorem Below.refl (scan : Scan α) : Below scan scan := fun _ _ h => h

/-- Readers that depend on their levels step by step depend on them altogether. -/
theorem Below.of_succ {scan : Nat → Scan α} (h : ∀ n, Below (scan n) (scan (n + 1))) {m n : Nat}
    (hmn : m ≤ n) : Below (scan m) (scan n) := by
  induction hmn with
  | refl => exact .refl _
  | step _ ih => exact fun ls r hr => h _ ls r (ih ls r hr)

section Types

variable {nested nested' : Scan TypeDesc} (hnested : Below nested nested')

include hnested

theorem below_typeElement : Below (typeElement nested) (typeElement nested') := by
  intro ls r h
  rw [typeElement] at h ⊢
  split at h
  · exact hnested _ _ h
  · exact hnested _ _ h
  · exact h
  · exact h
  · cases h

theorem below_typeElements (rounds : Nat) (fields : List TypeDesc.Field) (comma : Bool) :
    Below (typeElements nested rounds fields comma) (typeElements nested' rounds fields comma) := by
  induction rounds generalizing fields comma with
  | zero =>
    intro ls r h
    cases h
  | succ rounds ih =>
    intro ls r h
    rw [typeElements] at h ⊢
    split at h
    · rename_i hclose
      rwa [if_pos hclose]
    · rename_i hclose
      rw [if_neg hclose]
      obtain ⟨name, hname, h⟩ := Option.bind_eq_some_iff.mp h
      obtain ⟨type, htype, h⟩ := Option.bind_eq_some_iff.mp h
      rw [hname, Option.bind_some, below_typeElement hnested _ _ htype, Option.bind_some]
      dsimp only at h ⊢
      split at h
      · exact ih _ _ _ _ h
      · exact h
      · cases h

end Types

/-- With more levels no type is refused that was read. -/
theorem typeBody_mono {m n : Nat} (hmn : m ≤ n) : Below (typeBody m) (typeBody n) := by
  refine Below.of_succ (fun k => ?_) hmn
  induction k with
  | zero =>
    intro ls r h
    cases h
  | succ k ih => exact fun ls r h => below_typeElements ih _ _ _ _ _ h

section Values

variable {m n : Nat}

theorem below_value (hmn : m ≤ n) {tuple tuple' : TupleKind → Scan Datum}
    (htuple : ∀ kind, Below (tuple kind) (tuple' kind)) : Below (value m tuple)
    (value n tuple') := by
  intro ls r h
  rw [value] at h ⊢
  dsimp only at h ⊢
  split at h
  · exact htuple _ _ _ h
  · exact htuple _ _ _ h
  · exact htuple _ _ _ h
  · obtain ⟨t, ht, rfl⟩ := Option.map_eq_some_iff.mp h
    rw [typeBody_mono hmn _ _ ht]
    rfl
  · exact h
  · exact h

theorem below_elements {kind : TupleKind} {value value' nested nested' : Scan Datum}
    (hvalue : Below value value') (hnested : Below nested nested') (rounds : Nat)
    (entries : List Datum.Entry) :
    Below (elements kind value nested rounds entries)
      (elements kind value' nested' rounds entries) := by
  -- an element is a tuple behind a bare parenthesis, or a value
  have helement : Below (element value nested) (element value' nested') := by
    intro ls r h
    rw [element] at h ⊢
    split at h
    · rename_i hparen
      rw [if_pos hparen]
      exact hnested _ _ h
    · rename_i hparen
      rw [if_neg hparen]
      exact hvalue _ _ h
  induction rounds generalizing entries with
  | zero =>
    intro ls r h
    cases h
  | succ rounds ih =>
    intro ls r h
    rw [elements] at h ⊢
    split at h
    · rename_i hclose
      rwa [if_pos hclose]
    · rename_i hclose
      rw [if_neg hclose]
      obtain ⟨name, hname, h⟩ := Option.bind_eq_some_iff.mp h
      obtain ⟨d, hd, h⟩ := Option.bind_eq_some_iff.mp h
      rw [hname, Option.bind_some, helement _ _ hd, Option.bind_some]
      dsimp only at h ⊢
      split at h
      · exact ih _ _ _ h
      · exact h
      · cases h

/-- With more levels no tuple is refused that was read. -/
theorem tuple_mono (hmn : m ≤ n) (kind : TupleKind) : Below (tuple m kind) (tuple n kind) := by
  refine @Below.of_succ _ (fun k => tuple k kind) (fun k => ?_) m n hmn
  induction k generalizing kind with
  | zero =>
    intro ls r h
    cases h
  | succ k ih =>
    exact fun ls r h => below_elements (below_value (Nat.le_succ k) ih) (ih kind) _ _ _ _ h

/-- A value that is read with some levels of nesting is read in the same way with more. -/
theorem read_mono (hmn : m ≤ n) : Below (read m) (read n) := below_value hmn (tuple_mono hmn)

end Values

end TupleLang.Grammar
