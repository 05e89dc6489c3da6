import TupleLang.Proofs.ExprGrammar

/-!
# Reading arguments

An argument of a call is an expression with a comma or a closing parenthesis behind it. What is read
as an expression when nothing is behind it is read in the same way there (`frame_stands`): a frame
without open parentheses ends in front of either, and no reader looks further ahead than to the
lexeme behind the one it takes in. `Trails` relates a reading to the one with something behind it,
and passes through all that the readers are made of.

So a call is read argument by argument, each as it is read on its own (`statements_call`).
-/

namespace TupleLang

/-! ## In front of commas and parentheses -/

namespace Grammar

variable {α : Type} {x : List Lexeme} {Γ : Env} {levels : Nat}

/-- A comma or a closing parenthesis is next. -/
def Closes (x : List Lexeme) : Prop := (ahead x 0).kind = .comma ∨ (ahead x 0).kind = .rparen

/-- What one reading gives, the other one gives with `x` left over behind it. -/
def Trails (x : List Lexeme) (o o' : Option (α × List Lexeme)) : Prop :=
  ∀ a r, o = some (a, r) → o' = some (a, r ++ x)

/-- What the first reader gives with nothing behind the lexemes, the second one gives with `x`
behind them, and it leaves `x` over. -/
def Stands (x : List Lexeme) (m m' : Scan α) : Prop := ∀ ls, Trails x (m ls) (m' (ls ++ x))

/-- The same of lexemes of which there is at least one. -/
def StandsBehind (x : List Lexeme) (m m' : Scan α) : Prop :=
  ∀ l ls, Trails x (m (l :: ls)) (m' (l :: (ls ++ x)))

/-- What is read in the same way is read in the same way behind something. -/
theorem Stands.behind {m m' : Scan α} (h : Stands x m m') : StandsBehind x m m' :=
  fun l ls => h (l :: ls)

namespace Trails

variable {β γ : Type} {o o' p p' : Option (α × List Lexeme)}

/-- Nothing trails what has not been read. -/
protected theorem none : Trails x none o := nofun

/-- What was not read trails the rest. -/
protected theorem some (a : α) (r : List Lexeme) : Trails x (some (a, r)) (some (a, r ++ x)) := by
  rintro _ _ ⟨⟩
  rfl

/-- A result that does not depend on the lexemes. -/
theorem value (d : Option γ) (f : γ → α) (r : List Lexeme) :
    Trails x (d.map fun v => (f v, r)) (d.map fun v => (f v, r ++ x)) := by
  cases d with
  | none => exact .none
  | some v => exact .some _ _

/-- Changing the result changes nothing about the rest. -/
protected theorem map (h : Trails x o o') (f : α → β) :
    Trails x (o.map fun p => (f p.1, p.2)) (o'.map fun p => (f p.1, p.2)) := by
  intro b r hb
  obtain ⟨⟨a, r⟩, ha, heq⟩ := Option.map_eq_some_iff.mp hb
  cases heq
  rw [h a r ha]
  rfl

/-- One reading after the other. -/
protected theorem bind {k k' : α × List Lexeme → Option (β × List Lexeme)} (h : Trails x o o')
    (hk : ∀ a r, Trails x (k (a, r)) (k' (a, r ++ x))) : Trails x (o.bind k) (o'.bind k') := by
  intro b r hb
  obtain ⟨⟨a, rest⟩, ha, hb⟩ := Option.bind_eq_some_iff.mp hb
  rw [h a rest ha, Option.bind_some]
  exact hk a rest b r hb

/-- A reading after what does not depend on the lexemes. -/
theorem after {k k' : γ → Option (α × List Lexeme)} (d : Option γ)
    (hk : ∀ v, Trails x (k v) (k' v)) : Trails x (d.bind k) (d.bind k') := by
  cases d with
  | none => exact .none
  | some v => exact hk v

/-- Both branches of a choice that is made in the same way. -/
protected theorem ite {c c' : Prop} [Decidable c] [Decidable c'] (hc : c' ↔ c)
    (hpos : c → Trails x o o') (hneg : ¬c → Trails x p p') :
    Trails x (if c then o else p) (if c' then o' else p') := by
  by_cases h : c
  · rw [if_pos h, if_pos (hc.mpr h)]
    exact hpos h
  · rw [if_neg h, if_neg (mt hc.mp h)]
    exact hneg h

end Trails

namespace Stands

variable {m m' : Scan α}

/-- A reader that gives nothing at the end of input. -/
theorem of_behind (h : StandsBehind x m m') (hnil : m [] = none) : Stands x m m' := by
  intro ls
  cases ls with
  | nil => rw [hnil]; exact .none
  | cons l ls => exact h l ls

/-- Giving a result reads nothing. -/
protected theorem pure (a : α) : Stands x (fun ls => some (a, ls)) fun ls => some (a, ls) :=
  fun ls => .some a ls

/-- A result that may be missing reads nothing. -/
protected theorem value (d : Option α) :
    Stands x (fun ls => d.map (·, ls)) fun ls => d.map (·, ls) :=
  fun ls => .value d (fun v => v) ls

end Stands

/-- Reading goes on behind a comma, and ends behind a closing parenthesis. -/
theorem Trails.separated {m m' n n' : Scan α} (hcomma : Stands x m m') (hrparen : Stands x n n')
    (r : List Lexeme) :
    Trails x
      (match (ahead r 0).kind with
        | .comma => m (r.drop 1)
        | .rparen => n (r.drop 1)
        | _ => none)
      (match (ahead (r ++ x) 0).kind with
        | .comma => m' ((r ++ x).drop 1)
        | .rparen => n' ((r ++ x).drop 1)
        | _ => none) := by
  cases r with
  | nil => exact .none
  | cons l ls =>
    rw [List.cons_append, ahead_cons_zero, ahead_cons_zero]
    split
    · exact hcomma ls
    · exact hrparen ls
    · exact .none

section Ahead

variable (hx : Closes x)

include hx

/-- No closing lexeme is taken for a word. -/
theorem Closes.isWord_eq (ls : List Lexeme) (w : String) :
    (ahead (ls ++ x) 0).isWord w = (ahead ls 0).isWord w := by
  cases ls with
  | nil =>
    have hnot : (ahead x 0).isWord w = false := by rcases hx with h | h <;> simp [Lexeme.isWord, h]
    rw [List.nil_append, hnot]
    rfl
  | cons l ls => rfl

/-- Behind the first lexeme, too, the same words are seen. -/
theorem Closes.isWord_second_eq (l : Lexeme) (ls : List Lexeme) (w : String) :
    (ahead (l :: (ls ++ x)) 1).isWord w = (ahead (l :: ls) 1).isWord w := by
  rw [ahead_cons_succ, ahead_cons_succ, hx.isWord_eq]

/-- No parenthesis is opened where nothing was. -/
theorem Closes.lparen_second_iff (l : Lexeme) (ls : List Lexeme) :
    (ahead (l :: (ls ++ x)) 1).kind = .lparen ↔ (ahead (l :: ls) 1).kind = .lparen := by
  rw [ahead_cons_succ, ahead_cons_succ]
  cases ls with
  | nil =>
    have hnot : (ahead x 0).kind ≠ .lparen := by rcases hx with h | h <;> simp [h]
    exact iff_of_false hnot nofun
  | cons m ls => rfl

/-- A word is ahead just if it is without what closes. -/
theorem Closes.isWord_iff (ls : List Lexeme) (w : String) :
    (ahead (ls ++ x) 0).isWord w = true ↔ (ahead ls 0).isWord w = true := by rw [hx.isWord_eq]

/-- A name is read in the same way. -/
theorem name_stands (signs : List String) : Stands x (name signs) (name signs) := by
  intro ls
  cases ls with
  | nil =>
    have hkind : (ahead x 0).kind ≠ .ident := by rcases hx with h | h <;> simp [h]
    rw [name, List.nil_append, name, if_neg (fun h => by cases h.1), if_neg fun h => hkind h.1]
    exact .some none []
  | cons l ls =>
    have hany : (signs.any (ahead (l :: (ls ++ x)) 1).isWord) =
        signs.any (ahead (l :: ls) 1).isWord :=
      congrArg signs.any (funext fun w => hx.isWord_second_eq l ls w)
    rw [List.cons_append, name, name, hany]
    refine .ite .rfl (fun hnamed => ?_) fun _ => .some none (l :: ls)
    -- behind a name there is a sign
    cases ls with
    | nil =>
      obtain ⟨w, -, hw⟩ := List.any_eq_true.mp hnamed.2
      cases hw
    | cons m ls => exact .some _ ls

end Ahead


/-! ## Types and values -/

section Values

/-- An element of a type is read in the same way if what is nested is. -/
theorem typeElement_stands {nested : Scan TypeDesc} (h : Stands x nested nested) :
    Stands x (typeElement nested) (typeElement nested) := by
  refine .of_behind (fun l ls => ?_) rfl
  rw [typeElement, typeElement, ahead_cons_zero, ahead_cons_zero]
  split
  · exact h ls
  · exact h ls
  · exact .some _ ls
  · exact .some _ ls
  · exact .none

/-- The elements of a type are read in the same way, in as many rounds or more. -/
theorem typeElements_stands (hx : Closes x) {nested : Scan TypeDesc} (h : Stands x nested nested)
    {rounds rounds' : Nat} (hrounds : rounds ≤ rounds') (fields : List TypeDesc.Field)
    (comma : Bool) : Stands x (typeElements nested rounds fields comma)
      (typeElements nested rounds' fields comma) := by
  induction rounds generalizing rounds' fields comma with
  | zero => exact fun ls => .none
  | succ rounds ih =>
    obtain ⟨rounds', rfl⟩ := Nat.exists_eq_add_one.mpr (Nat.zero_lt_of_lt hrounds)
    refine .of_behind (fun l ls => ?_) rfl
    rw [typeElements, typeElements]
    refine .ite .rfl (fun _ => .some _ ls) fun _ => .bind ((name_stands hx _).behind l ls)
      fun name r => .bind (typeElement_stands h r) fun element r => ?_
    exact .separated (ih (Nat.le_of_succ_le_succ hrounds) _ true) (.pure _) r

/-- A type is read in the same way. -/
theorem typeBody_stands (hx : Closes x) (levels : Nat) :
    Stands x (typeBody levels) (typeBody levels) := by
  induction levels with
  | zero => exact fun ls => .none
  | succ levels ih =>
    refine fun ls => typeElements_stands hx ih ?_ _ _ ls
    rw [List.length_append]
    omega

/-- A value is read in the same way if tuples are. -/
theorem value_stands (hx : Closes x) {tuple : TupleKind → Scan Datum}
    (h : ∀ kind, Stands x (tuple kind) (tuple kind)) :
    Stands x (value levels tuple) (value levels tuple) := by
  refine .of_behind (fun l ls => ?_) rfl
  unfold value
  rw [ahead_cons_zero, ahead_cons_zero]
  dsimp only
  split
  · exact h .plain ls
  · exact h .dynamic ls
  · exact h .data ls
  · exact (typeBody_stands hx levels ls).map fun type => Datum.scalar "type" (.type type)
  · exact .some _ ls
  · refine .ite .rfl (fun _ => ?_) fun _ => .ite .rfl (fun _ => .value _ _ ls) fun _ => .none
    -- behind the sign there is a number
    cases ls with
    | nil => exact .none
    | cons m ls => exact .ite .rfl (fun _ => .value _ _ ls) fun _ => .none

/-- An element of a tuple is read in the same way if values are. -/
theorem element_stands {value nested : Scan Datum} (hvalue : Stands x value value)
    (hnested : Stands x nested nested) (hnil : value [] = none) :
    Stands x (element value nested) (element value nested) := by
  refine .of_behind (fun l ls => ?_) (by rw [element, if_neg nofun, hnil])
  rw [element, element]
  exact .ite .rfl (fun _ => hnested ls) fun _ => hvalue.behind l ls

/-- The elements of a tuple are read in the same way, in as many rounds or more. -/
theorem elements_stands (hx : Closes x) {kind : TupleKind} {value nested : Scan Datum}
    (hvalue : Stands x value value) (hnested : Stands x nested nested) (hnil : value [] = none)
    {rounds rounds' : Nat} (hrounds : rounds ≤ rounds') (entries : List Datum.Entry) :
    Stands x (elements kind value nested rounds entries)
      (elements kind value nested rounds' entries) := by
  induction rounds generalizing rounds' entries with
  | zero => exact fun ls => .none
  | succ rounds ih =>
    obtain ⟨rounds', rfl⟩ := Nat.exists_eq_add_one.mpr (Nat.zero_lt_of_lt hrounds)
    have hempty : elements kind value nested (rounds + 1) entries [] = none := by
      have helement : element value nested [] = none := by rw [element, if_neg nofun, hnil]
      rw [elements, if_neg nofun, show name ["=", ":"] [] = some (none, []) from rfl,
        Option.bind_some, helement, Option.bind_none]
    refine .of_behind (fun l ls => ?_) hempty
    rw [elements, elements]
    refine .ite .rfl (fun _ => .value _ _ ls) fun _ => .bind ((name_stands hx _).behind l ls)
      fun name r => .bind (element_stands hvalue hnested hnil r) fun element r => ?_
    exact .separated (ih (Nat.le_of_succ_le_succ hrounds) _) (.value _) r

/-- A tuple is read in the same way. -/
theorem tuple_stands (hx : Closes x) (levels : Nat) (kind : TupleKind) :
    Stands x (tuple levels kind) (tuple levels kind) := by
  induction levels generalizing kind with
  | zero => exact fun ls => .none
  | succ levels ih =>
    refine fun ls => elements_stands hx (value_stands hx ih) (ih kind) rfl ?_ _ ls
    rw [List.length_append]
    omega

/-- A value is read in the same way in front of a comma or a closing parenthesis. -/
theorem read_stands (hx : Closes x) (levels : Nat) : Stands x (read levels) (read levels) :=
  value_stands hx (tuple_stands hx levels)

end Values

/-! ## Frames -/

/-- Where all operators can be completed no parenthesis is open. -/
theorem hasOpen_of_closeAll {operands trees : List Tree} {pending : List TreePending}
    (h : Γ.closeAll operands pending = some trees) : pending.any (fun
      | .opening => true
      | .waiting _ => false) = false := by
  induction pending generalizing operands with
  | nil => rfl
  | cons p pending ih =>
    cases p with
    | opening => cases h
    | waiting w =>
      rw [Env.closeAll] at h
      obtain ⟨operands', -, h⟩ := Option.bind_eq_some_iff.mp h
      rw [List.any_cons, ih h]
      rfl

/-- Where a word is ahead, there is a lexeme. -/
theorem exists_cons_of_isWord {ls : List Lexeme} {w : String} (h : (ahead ls 0).isWord w = true) :
    ∃ l ls', ls = l :: ls' := by
  cases ls with
  | nil => cases h
  | cons l ls => exact ⟨l, ls, rfl⟩

section Frames

variable (hx : Closes x) {inner : List String → Scan Tree}
  (hinner : ∀ ts, Stands x (inner ts) (inner ts)) {ts : List String}

include hx hinner

/-- A conditional is read in the same way. -/
theorem conditional_stands : Stands x (conditional inner ts) (conditional inner ts) := by
  intro ls
  refine .bind (hinner _ ls) fun condition r =>
    .ite (hx.isWord_iff r "then") (fun hthen => ?_) fun _ => .none
  obtain ⟨m, ms, rfl⟩ := exists_cons_of_isWord hthen
  refine .bind (hinner _ ms) fun branch r =>
    .ite (hx.isWord_iff r "else") (fun helse => ?_) fun _ => .some _ ms
  obtain ⟨n, ns, rfl⟩ := exists_cons_of_isWord helse
  exact .some _ ns

/-- A selection is read in the same way. -/
theorem selection_stands (left : Tree) : Stands x (selection inner ts left)
    (selection inner ts left) := by
  intro ls
  refine .bind (hinner _ ls) fun branch r =>
    .ite (hx.isWord_iff r ":") (fun hcolon => ?_) fun _ => .none
  obtain ⟨m, ms, rfl⟩ := exists_cons_of_isWord hcolon
  exact .some _ ms

omit hinner in

/-- A type test is read in the same way. -/
theorem typeTest_stands (left : Tree) : Stands x (typeTest left) (typeTest left) := by
  intro ls
  refine .ite (hx.isWord_iff ls "not") (fun hnot => ?_) fun _ => .some _ ls
  obtain ⟨m, ms, rfl⟩ := exists_cons_of_isWord hnot
  exact .some _ ms

/-- Arguments are read in the same way, in as many rounds or more. -/
theorem callArgs_stands {rounds rounds' : Nat} (hrounds : rounds ≤ rounds') (args : List Tree)
    (names : List (Option String)) :
    Stands x (callArgs inner rounds args names) (callArgs inner rounds' args names) := by
  induction rounds generalizing rounds' args names with
  | zero => exact fun ls => .none
  | succ rounds ih =>
    obtain ⟨rounds', rfl⟩ := Nat.exists_eq_add_one.mpr (Nat.zero_lt_of_lt hrounds)
    refine fun ls => .bind (name_stands hx _ ls) fun name r => .bind (hinner _ r) fun arg r => ?_
    exact .separated (ih (Nat.le_of_succ_le_succ hrounds) _ _) (.pure _) r

variable (hnil : ∀ ts, inner ts [] = none)

include hnil

/-- A call, of which the name and the parenthesis are ahead. -/
theorem call_stands (l m : Lexeme) (ls : List Lexeme) :
    Trails x (call Γ inner (l :: m :: ls)) (call Γ inner (l :: m :: (ls ++ x))) := by
  refine .bind ?_ fun args r => .value _ _ r
  cases ls with
  | nil =>
    -- the first argument cannot be missing
    rw [if_neg nofun, callArgs, show name ["="] _ = some (none, []) from rfl, Option.bind_some,
      hnil, Option.bind_none]
    exact .none
  | cons n ns =>
    refine .ite .rfl (fun _ => .some _ ns) fun _ => callArgs_stands hx hinner ?_ _ _ (n :: ns)
    simp only [List.drop_succ_cons, List.drop_zero, List.length_cons, List.length_append]
    omega

/-- An operand is read in the same way. -/
theorem operand_stands : Stands x (operand Γ inner levels) (operand Γ inner levels) := by
  refine .of_behind (fun l ls => ?_) rfl
  -- a literal is read by the value grammar, for which the lemma is known
  have hread : Trails x ((read levels (l :: ls)).map fun d => (Tree.literal d.1, d.2))
      ((read levels (l :: (ls ++ x))).map fun d => (Tree.literal d.1, d.2)) :=
    ((read_stands hx levels).behind l ls).map Tree.literal
  unfold operand
  rw [ahead_cons_zero, ahead_cons_zero]
  dsimp only
  split
  · refine .ite (hx.lparen_second_iff l ls) (fun hopen => ?_) fun _ => .some _ ls
    -- the name is the last lexeme: the parenthesis would have to come from the tail
    cases ls with
    | nil => cases hopen
    | cons m ls => exact call_stands hx hinner hnil l m ls
  · exact hread
  · exact hread
  · exact .ite .rfl (fun _ => .value _ _ ls) fun _ => .none

omit hx hinner hnil in

/-- What follows the reduction of operators is read in the same way. -/
theorem resolveAfter_stands {f : TreeFrame} {precedence : Nat}
    {resolve : Tree → Scan (Operator × List Tree)}
    (h : ∀ left, Stands x (resolve left) (resolve left)) :
    StandsBehind x (resolveAfter Γ f precedence resolve) (resolveAfter Γ f precedence resolve) := by
  refine fun l ls => .after _ fun ⟨operands, pending⟩ => ?_
  cases operands with
  | nil => exact .none
  | cons left operands =>
    exact (h left ls).map fun r => TreeFrame.await { operands, pending } (.tail r.1 r.2)

omit hnil in

/-- A prefix operator is read in the same way. -/
theorem prefixed_stands (f : TreeFrame) :
    StandsBehind x (prefixed Γ inner ts f) (prefixed Γ inner ts f) := by
  refine fun l ls => .ite .rfl (fun _ => ?_) fun _ => .after _ fun op =>
    .ite .rfl (fun _ => .value _ _ ls) fun _ => .some _ ls
  exact (conditional_stands hx hinner ls).map fun r => f.await (.tail r.1 r.2)

omit hnil in

/-- An infix operator is read in the same way. -/
theorem infixed_stands (f : TreeFrame) :
    StandsBehind x (infixed Γ inner ts f) (infixed Γ inner ts f) := by
  refine fun l ls => .ite .rfl (fun _ => resolveAfter_stands (selection_stands hx hinner) l ls)
    fun _ => .ite .rfl (fun _ => resolveAfter_stands (typeTest_stands hx) l ls)
      fun _ => .after _ fun op => .value _ _ ls

/-- One lexeme is taken in in the same way. -/
theorem step_stands (f : TreeFrame) :
    StandsBehind x (step Γ inner ts f levels) (step Γ inner ts f levels) := by
  intro l ls
  -- which of the two applies is decided by the frame alone
  have hoperator : Trails x
      (if f.lastOperand then infixed Γ inner ts f (l :: ls) else prefixed Γ inner ts f (l :: ls))
      (if f.lastOperand then infixed Γ inner ts f (l :: (ls ++ x))
        else prefixed Γ inner ts f (l :: (ls ++ x))) :=
    .ite .rfl (fun _ => infixed_stands hx hinner f l ls) fun _ => prefixed_stands hx hinner f l ls
  unfold step
  rw [ahead_cons_zero, ahead_cons_zero]
  split
  · exact .ite .rfl (fun _ => .value _ _ ls) fun _ => .none
  · exact .ite .rfl (fun _ => .none) fun _ => .some _ ls
  · exact hoperator
  · exact hoperator
  · refine .ite .rfl (fun _ => .none) fun _ => ?_
    exact ((operand_stands hx hinner hnil).behind l ls).map f.push

/-- A frame that has begun comes to the same end: it does not end with a parenthesis open. -/
theorem run_stands {rounds rounds' : Nat} (hrounds : rounds ≤ rounds') (f : TreeFrame) :
    Stands x (run Γ levels inner ts rounds f) (run Γ levels inner ts rounds' f) := by
  induction rounds generalizing rounds' f with
  | zero => exact fun ls => .none
  | succ rounds ih =>
    obtain ⟨rounds', rfl⟩ := Nat.exists_eq_add_one.mpr (Nat.zero_lt_of_lt hrounds)
    intro ls
    unfold run
    cases ls with
    | nil =>
      -- without a tail the frame ends here; it must end in front of the tail too
      rw [if_pos (show f.endsAt ts (ahead [] 0) = true from rfl), List.nil_append]
      intro t r hr
      obtain ⟨t, ht, heq⟩ := Option.map_eq_some_iff.mp hr
      cases heq
      -- a frame with an open group would not have finished
      have hclosed : f.hasOpen = false := by
        unfold Env.finish at ht
        obtain ⟨-, ht⟩ := Option.ite_none_right_eq_some.mp ht
        obtain ⟨trees, htrees, -⟩ := Option.bind_eq_some_iff.mp ht
        exact hasOpen_of_closeAll htrees
      have hends : f.endsAt ts (ahead x 0) = true := by
        rw [TreeFrame.endsAt, hclosed]
        rcases hx with h | h <;> simp [h]
      rw [if_pos hends, ht]
      rfl
    | cons l ls =>
      refine .ite .rfl (fun _ => .value _ _ (l :: ls)) fun _ =>
        .bind (step_stands hx hinner hnil f l ls) fun f' r => ?_
      exact ih (Nat.le_of_succ_le_succ hrounds) f' r

end Frames

/-- There is no expression at the end of input. -/
theorem frame_nil (Γ : Env) (levels : Nat) (ts : List String) : frame Γ levels ts [] = none := by
  cases levels <;> rfl

/-- What is an expression with nothing behind it is the same expression in front of a comma or a
closing parenthesis. -/
theorem frame_stands (hx : Closes x) (Γ : Env) (levels : Nat) (ts : List String) :
    Stands x (frame Γ levels ts) (frame Γ levels ts) := by
  induction levels generalizing ts with
  | zero => exact fun ls => .none
  | succ levels ih =>
    refine fun ls => run_stands hx ih (frame_nil Γ levels) ?_ _ ls
    rw [List.length_append]
    omega

/-! ## Calls -/

/-- The lexemes of an argument: its name and `=`, if it is given by name, and those of its value. -/
def argument : Option String × List Lexeme → List Lexeme
  | (some name, ls) => ⟨.ident, name⟩ :: ⟨.symbol, "="⟩ :: ls
  | (none, ls) => ls

/-- The lexemes of arguments, with commas between them and the closing parenthesis behind them. -/
def arguments : List (Option String × List Lexeme) → List Lexeme
  | [] => [⟨.rparen, ")"⟩]
  | [a] => argument a ++ [⟨.rparen, ")"⟩]
  | a :: b :: rest => argument a ++ ⟨.comma, ","⟩ :: arguments (b :: rest)

/-- There are at least as many lexemes as arguments. -/
theorem length_le_arguments (args : List (Option String × List Lexeme)) :
    args.length ≤ (arguments args).length := by
  induction args with
  | nil => exact Nat.zero_le _
  | cons a args ih =>
    cases args with
    | nil => simp [arguments]
    | cons b args =>
      simp only [arguments, List.length_append, List.length_cons] at ih ⊢
      omega

/-- The lexemes of a call. -/
def callOf (name : String) (args : List (Option String × List Lexeme)) : List Lexeme :=
  ⟨.ident, name⟩ :: ⟨.lparen, "("⟩ :: arguments args

/-- Read on its own, the argument is the tree. If it has no name, it does not look as if it had. -/
structure Argues (Γ : Env) (levels : Nat) (a : Option String × List Lexeme) (t : Tree) : Prop where
  tree : frame Γ levels [] a.2 = some (t, [])
  unnamed : a.1 = none → (name ["="] a.2).map (·.1) = some none

/-- No expression begins with a closing parenthesis. -/
theorem ne_rparen_of_frame {ls r : List Lexeme} {ts : List String} {t : Tree}
    (h : frame Γ levels ts ls = some (t, r)) : (ahead ls 0).kind ≠ .rparen := by
  intro hkind
  cases levels with
  | zero => cases h
  | succ levels =>
    have hends : TreeFrame.endsAt ts {} (ahead ls 0) = true := by
      simp [TreeFrame.endsAt, TreeFrame.hasOpen, hkind]
    rw [frame, run, if_pos hends] at h
    cases h

namespace Argues

variable {a : Option String × List Lexeme} {t : Tree}

/-- The name of an argument is read, and then its value. -/
theorem name_eq (h : Argues Γ levels a t) (hx : Closes x) :
    name ["="] (argument a ++ x) = some (a.1, a.2 ++ x) := by
  obtain ⟨_ | n, ls⟩ := a
  · obtain ⟨⟨_, rest⟩, hname, rfl⟩ := Option.map_eq_some_iff.mp (h.unnamed rfl)
    have hrest : rest = ls := by
      rw [name] at hname
      split at hname <;> cases hname
      rfl
    exact name_stands hx _ _ _ _ (hrest ▸ hname)
  · rfl

/-- An argument does not close the call. -/
theorem ne_rparen (h : Argues Γ levels a t) (hx : Closes x) :
    (ahead (argument a ++ x) 0).kind ≠ .rparen := by
  obtain ⟨_ | n, ls⟩ := a
  · exact ne_rparen_of_frame (frame_stands hx Γ levels [] _ _ _ h.tree)
  · exact nofun

/-- Arguments are read one after the other. -/
theorem callArgs_eq {a : Option String × List Lexeme} {args : List (Option String × List Lexeme)}
    {trees : List Tree} (h : List.Forall₂ (Argues Γ levels) (a :: args) trees) {rounds : Nat}
    (hrounds : args.length < rounds) (front : List Tree) (names : List (Option String)) :
    callArgs (frame Γ levels) rounds front names (arguments (a :: args)) =
      some ((front ++ trees, names ++ (a :: args).map (·.1)), []) := by
  obtain ⟨rounds, rfl⟩ := Nat.exists_eq_add_one.mpr (Nat.zero_lt_of_lt hrounds)
  induction args generalizing a trees rounds front names with
  | nil =>
    obtain ⟨t, _, ha, hnil, rfl⟩ := List.forall₂_cons_left_iff.mp h
    cases hnil
    -- the last argument is closed by the parenthesis
    have hx : Closes [⟨.rparen, ")"⟩] := .inr rfl
    rw [callArgs, arguments, ha.name_eq hx, Option.bind_some,
      frame_stands hx _ _ _ _ _ _ ha.tree, Option.bind_some]
    rfl
  | cons b args ih =>
    obtain ⟨t, trees, ha, hrest, rfl⟩ := List.forall₂_cons_left_iff.mp h
    -- the others are closed by the comma behind them
    have hx : Closes (⟨.comma, ","⟩ :: arguments (b :: args)) := .inl rfl
    obtain ⟨rounds, rfl⟩ := Nat.exists_eq_add_one.mpr (show 0 < rounds by simp at hrounds; omega)
    have hnext := ih hrest (front ++ [t]) (names ++ [a.1]) rounds (by simpa using hrounds)
    rw [callArgs, arguments, ha.name_eq hx, Option.bind_some,
      frame_stands hx _ _ _ _ _ _ ha.tree, Option.bind_some]
    refine hnext.trans ?_
    simp

end Argues

/-- A call with nothing behind it is one statement. It is bound to what its arguments are on their
own. -/
theorem statements_call {name : String} {args : List (Option String × List Lexeme)}
    {trees : List Tree} (h : List.Forall₂ (Argues Γ levels) args trees) (rounds : Nat) :
    statements Γ (levels + 1) (rounds + 2) (callOf name args) =
      (Γ.bind .call name trees (args.map (·.1))).map ([·]) := by
  have hcall : call Γ (frame Γ levels) (callOf name args) =
      (Γ.bind .call name trees (args.map (·.1))).map (·, []) := by
    cases args with
    | nil =>
      cases h
      rfl
    | cons a args =>
      -- an argument starts with a token of its own, so the list is not empty
      have hrparen : (ahead (arguments (a :: args)) 0).kind ≠ .rparen := by
        obtain ⟨t, _, ha, -, -⟩ := List.forall₂_cons_left_iff.mp h
        cases args with
        | nil => exact ha.ne_rparen (.inr rfl)
        | cons b args => exact ha.ne_rparen (.inl rfl)
      -- the lexemes left bound the rounds the argument loop has
      have hlength := length_le_arguments (a :: args)
      rw [List.length_cons] at hlength
      rw [callOf, call, List.drop_succ_cons, List.drop_succ_cons, List.drop_zero, if_neg hrparen,
        Argues.callArgs_eq h (by omega), Option.bind_some]
      rfl
  -- one operand and the end: the frame has nothing to reduce
  have hframe : frame Γ (levels + 1) [] (callOf name args) =
      (Γ.bind .call name trees (args.map (·.1))).map (·, []) := by
    have hstep : step Γ (frame Γ levels) [] {} levels (callOf name args) =
        (call Γ (frame Γ levels) (callOf name args)).map fun r => (TreeFrame.push {} r.1, r.2) :=
      rfl
    have hends : TreeFrame.endsAt [] {} (ahead (callOf name args) 0) = false := rfl
    rw [frame, run, if_neg (by simp [hends]), hstep, hcall]
    cases Γ.bind .call name trees (args.map (·.1)) <;> rfl
  have hident : (ahead (callOf name args) 0).kind = .ident := rfl
  rw [statements, if_neg (by simp [hident]), if_neg (by simp [hident]), hframe]
  cases Γ.bind .call name trees (args.map (·.1)) <;> rfl

end Grammar

end TupleLang
