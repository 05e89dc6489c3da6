import TupleLang.Proofs.Building
import TupleLang.Proofs.Making
import TupleLang.Proofs.ParserRegime

/-!
# Parsing lets stores grow older

Whatever a parser is given and however it ends, slots only move on to later generations
(`ParseM.Ages`). So what is known of the store in the end, that no slot has come to its first
generation anew, was true of every store on the way.
-/

namespace TupleLang

open ParseM

/-- Stores only grow older. -/
def Store.aging : Regime Store where
  World := Store
  Later := Ages
  refl := .refl
  trans := .trans
  Holds w s := w = s

namespace ParseM

variable {α β : Type}

/-- The state that a parser leaves behind, whether it fails or not. -/
def after (m : ParseM α) (s : ParseState) : ParseState :=
  match m s with
  | .ok _ s' => s'
  | .error _ s' => s'

/-- The parser lets every store grow older, whether it fails or not. -/
def Ages (m : ParseM α) : Prop := ∀ w, Store.aging.Parses w m fun _ _ => True

namespace Ages

variable {m : ParseM α} {f : α → ParseM β}

/-- What the parser leaves behind is as old as the store, or older. -/
theorem after (h : Ages m) (s : ParseState) : s.store.Ages (m.after s).store := by
  have hrun := h s.store s.store (.refl _) s rfl
  unfold Regime.Leads at hrun
  unfold ParseM.after
  split at hrun
  · rename_i a s' hres
    obtain ⟨v, hages, rfl, -⟩ := hrun
    rwa [hres]
  · rename_i e s' hres
    obtain ⟨-, v, hages, rfl⟩ := hrun
    rwa [hres]

/-- Where a program succeeds slots have only moved on. -/
theorem of_ok {s s' : ParseState} {a : α} (h : Ages m) (hrun : m s = .ok a s') :
    s.store.Ages s'.store := by
  have hages := h.after s
  rwa [ParseM.after, hrun] at hages

/-- Giving a result changes no store. -/
protected theorem pure (a : α) : Ages (pure a) := fun _ => .pure fun _ _ => trivial

/-- Failing changes no store. -/
protected theorem throw (e : ParseFailure) : Ages (throw e : ParseM α) := fun _ => .throw trivial

/-- Programs that let slots move on may follow one another. -/
protected theorem bind (hm : Ages m) (hf : ∀ a, Ages (f a)) : Ages (m >>= f) :=
  fun w => .andThen (hm w) fun a v _ => hf a v

/-- Either branch lets slots move on. -/
protected theorem ite {c : Prop} [Decidable c] {m m' : ParseM α} (h : Ages m) (h' : Ages m') :
    Ages (if c then m else m') := fun w => .ite (fun _ => h w) fun _ => h' w

/-- A parser that cannot fail and leaves the store alone. -/
theorem idle (h : ∀ s, ∃ a s', m s = .ok a s' ∧ s'.store = s.store) : Ages m := fun _ => .idle h

/-- Looking at the token in front changes no store. -/
theorem current : Ages current := idle fun _ => ⟨_, _, rfl, rfl⟩

/-- Looking further ahead changes no store. -/
theorem peek (n : Nat) : Ages (peek n) := idle fun _ => ⟨_, _, rfl, rfl⟩

/-- Asking for the position changes no store. -/
theorem position : Ages position := idle fun _ => ⟨_, _, rfl, rfl⟩

/-- Asking how many rounds are left changes no store. -/
theorem rounds : Ages rounds := idle fun _ => ⟨_, _, rfl, rfl⟩

/-- Asking for the store does not change it. -/
theorem store : Ages store := idle fun _ => ⟨_, _, rfl, rfl⟩

/-- Moving the cursor on changes no store. -/
theorem advance (n : Nat) : Ages (advance n) := idle fun _ => ⟨_, _, rfl, rfl⟩

/-- Moving the cursor to a position changes no store. -/
theorem seek (position : Nat) : Ages (seek position) := idle fun _ => ⟨_, _, rfl, rfl⟩

/-- A complaint changes no store. -/
theorem complain (message : String) (span : Span) : Ages (complain message span : ParseM α) :=
  fun _ => .complain _ _

/-- A complaint about the token in front changes no store. -/
theorem complainHere (message : String) : Ages (complainHere message : ParseM α) :=
  fun _ => .complainHere _

/-- Refusing a level changes no store. -/
theorem tooDeep (what : String) : Ages (tooDeep what : ParseM α) := fun _ => .tooDeep _

/-- Cleaning up after a failure lets slots move on if both parts do. -/
theorem onFailure {f : ParseState → ParseState} (hf : ∀ s : ParseState, s.store.Ages (f s).store)
    (hm : Ages m) : Ages (onFailure f m) := by
  refine fun w => .onFailure (hm w) fun v _ s hs => ⟨(f s).store, ?_, rfl⟩
  obtain rfl : v = s.store := hs
  exact hf s

/-- Holding nodes lets slots move on: they are released where the program fails. -/
theorem holding (nodes : List Node) (hm : Ages m) : Ages (holding nodes m) :=
  onFailure (fun s : ParseState => .releaseAll s.store _) hm

theorem skipping (hm : Ages m) :
    Ages (ParseM.onFailure (fun s => { s with cursor := s.cursor.skipStatement }) m) :=
  onFailure (fun s : ParseState => .refl s.store) hm

/-- A change of the store that lets slots move on. -/
theorem changeStore {f : Store → Store} (hf : ∀ s : Store, s.Ages (f s)) :
    Ages (changeStore f) := by
  intro w v _ s hs
  obtain rfl : v = s.store := hs
  exact ⟨f s.store, hf s.store, rfl, trivial⟩

end Ages

end ParseM

/-! ## Reading values -/

namespace Store

/-- A function on stores that lets them grow older. -/
theorem moves_aging {f : Store → Store} (hf : ∀ s : Store, s.Ages (f s)) (w : Store) :
    aging.Moves w f := by
  intro v _ s hs
  obtain rfl : v = s := hs
  exact ⟨f v, hf v, rfl⟩

/-- Tuples are built of any cells. -/
def agingBuilding : Building aging where
  CellOk _ _ := True
  Open _ _ := True
  cell_lasts _ _ := trivial
  open_lasts _ _ := trivial
  owned _ _ _ := trivial
  insert {w s id t t' name cell pos} hs _ _ _ _ := by
    obtain rfl : w = s := hs
    exact ⟨_, .putTuple w id t', rfl⟩
  adopt w parent child _ _ := moves_aging (fun s => .adoptOwned s parent (some child)) w
  destroy w id _ := moves_aging (fun s => .destroyWithin _ s id) w

/-- A new cell for a value that is kept in the heap. -/
theorem keeps_newCell_aging {w : Store} (type : TypeDesc) (v : Value) {E : Error → Prop} :
    aging.Keeps w (StoreM.newCell type v) (fun _ _ => True) E := by
  intro u _ s hs
  obtain rfl : u = s := hs
  exact .onHeap ⟨_, .make u type v, rfl, trivial⟩

/-- A new tuple and a cell that holds it. -/
theorem keeps_built_aging {w : Store} (kind : TupleKind) (parent : Option TupleId)
    (entries : List (Option String × Cell)) :
    aging.Keeps w (do
      let id ← StoreM.createFrom kind parent entries
      let type ← StoreM.ofExcept ((← get).typeOf id)
      StoreM.newCell type (.tuple id)) (fun _ _ => True) fun _ => True := by
  -- the new tuple is one more, and filling it changes no other
  have hcreate : aging.Keeps w (StoreM.change (·.create kind parent)) agingBuilding.Open
      Error.OfBuilding := by
    intro u _ s hs
    obtain rfl : u = s := hs
    exact .change ⟨_, .createWith u kind {} parent, rfl, trivial⟩
  have hmade : aging.Keeps w (StoreM.createFrom kind parent entries) agingBuilding.Open
      Error.OfBuilding := agingBuilding.createFrom hcreate fun _ _ => trivial
  refine .andThen (hmade.mono (fun _ _ _ _ => trivial) fun _ _ => trivial) fun id _ _ => ?_
  refine .get_bind fun _ _ s' _ => .andThen ?_ fun type _ _ => keeps_newCell_aging _ _
  exact .ofExcept (fun _ _ _ _ => trivial) fun _ _ => trivial

/-- Parsing builds tuples and gives them up. -/
def agingParsing (scope : TupleId) : Parsing aging scope where
  CellOk _ _ := True
  NodeOk _ _ := True
  cell_lasts _ _ := trivial
  node_lasts _ _ := trivial
  scalar _ _ _ _ _ := keeps_newCell_aging _ _
  native w n v := (keeps_newCell_aging (.leaf n.typeName) (n.wrap v)).also fun s c s' h => by
    cases h
    rfl
  build _ kind entries _ _ := (keeps_built_aging kind (some scope) entries).parser
  giveUp w cells _ := moves_aging (fun s => .releaseAll s cells) w
  giveUpNodes w nodes _ := moves_aging (fun s => .releaseAll s _) w
  literal _ _ _ := trivial
  variableCell _ _ _ _ _ _ := trivial
  bound _ _ _ _ _ _ _ _ _ _ _ := trivial
  compared _ _ _ _ _ _ _ _ _ _ _ _ _ _ _ _ _ _ _ _ := trivial

end Store

variable {scope : TupleId}

/-- New cells change no slot. -/
theorem ages_newNative (n : Native) (v : n.Carrier) : Ages (onStore (StoreM.newNative n v)) :=
  fun _ => (Store.agingParsing ⟨0, 0⟩).newNative n v

/-- Reading a name changes no store. -/
theorem TypeReader.ages_name : Ages TypeReader.name := fun _ => .typeName

/-- Reading a value moves tuples in, and destroys those that come to nothing. -/
theorem ValueReader.ages_read (scope : TupleId) (levels : Nat) : Ages (read scope levels) :=
  fun w => (Store.agingParsing scope).readValue ((Store.agingParsing scope).readTuple levels) w

/-- Reading a scalar changes no slot. -/
theorem ValueReader.ages_scalar (token : Token) (negative : Bool) : Ages (scalar token negative) :=
  fun _ => (Store.agingParsing ⟨0, 0⟩).readScalar token negative

/-! ## Binding -/

namespace Draft

theorem ages_coerceTypeOperand (draft : Draft) : Ages (draft.coerceTypeOperand scope) := by
  unfold coerceTypeOperand
  refine .ite (.bind .store fun s => ?_) (.pure _)
  split
  · exact .bind (ages_newNative _ _) fun cell => .pure _
  · exact .pure _

/-- Binding a draft gives up its operands at most. -/
theorem ages_bind (draft : Draft) (span : Span) : Ages (draft.bind scope span) := by
  unfold Draft.bind
  refine .bind draft.ages_coerceTypeOperand fun d => .bind .store fun s => ?_
  dsimp only
  split
  · exact .pure _
  · exact (Ages.complain _ _).holding _
  · split
    · exact .bind (ages_newNative _ _) fun zero => .pure _
    · exact (Ages.complain _ _).holding _

end Draft

namespace Frame

/-! ## Completing operators -/

/-- Reducing an operator lets slots move on. -/
theorem ages_reduce (f : Frame) (w : Waiting) : Ages (reduce scope f w) := by
  unfold reduce
  refine .bind .current fun token => ?_
  cases w with
  | single op =>
    refine .ite (((Ages.complain _ _).holding _).holding _) (.bind ?_ fun node => .pure _)
    exact (Draft.ages_bind _ _).holding _
  | tail op inner =>
    dsimp only
    split
    · exact ((Ages.complain _ _).holding _).holding _
    · exact .bind ((Draft.ages_bind _ _).holding _) fun node => .pure _

/-- Reducing operators of a precedence lets slots move on. -/
theorem ages_reduceWhile (precedence : Nat) (f : Frame) (pending : List Pending) :
    Ages (reduceWhile scope precedence f pending) := by
  induction pending generalizing f with
  | nil => exact .pure _
  | cons p rest ih =>
    cases p with
    | opening => exact .pure _
    | waiting w => exact .ite (.bind (ages_reduce _ w) fun f' => ih f') (.pure _)

/-- Closing a group lets slots move on. -/
theorem ages_closeGroup (f : Frame) (pending : List Pending) :
    Ages (closeGroup scope f pending) := by
  induction pending generalizing f with
  | nil => exact (Ages.complainHere _).holding _
  | cons p rest ih =>
    cases p with
    | opening => exact .pure _
    | waiting w => exact .bind (ages_reduce _ w) fun f' => ih f'

/-- Closing all groups lets slots move on. -/
theorem ages_closeAll (f : Frame) (pending : List Pending) : Ages (closeAll scope f pending) := by
  induction pending generalizing f with
  | nil => exact .pure _
  | cons p rest ih =>
    cases p with
    | opening => exact (Ages.complainHere _).holding _
    | waiting w => exact .bind (ages_reduce _ w) fun f' => ih f'

/-- The only operand of a frame that has come to its end, with the others given up. -/
theorem ages_root (operands : List Node) : Ages (match operands with
    | root :: rest => do
      changeStore (·.releaseNodes rest.reverse)
      return root
    | [] => complainHere "expected an operand" : ParseM Node) := by
  cases operands with
  | nil => exact .complainHere _
  | cons root rest => exact .bind (.changeStore fun s => .releaseAll s _) fun _ => .pure _

/-- Finishing a frame lets slots move on. -/
theorem ages_finish (f : Frame) : Ages (finish scope f) := by
  unfold finish
  refine .ite ((Ages.complainHere _).holding _) (.bind (ages_closeAll _ _) fun f' => ?_)
  exact ages_root f'.operands

/-! ## Taking in tokens -/

theorem ages_chooseSequence (opener : Token) (candidates : List Operator) (operands : List Node) :
    Ages (chooseSequence opener candidates operands) := by
  unfold chooseSequence
  split
  · exact .pure _
  · exact (Ages.complain _ _).holding _

/-- The last operand of a frame, without which there is no operator behind it. -/
theorem ages_left (f : Frame) (token : Token) : Ages (match f.operands with
    | left :: operands => return ({ f with operands, lastOperand := false }, [left])
    | [] => holding f.held (complain s!"missing left operand for `{token.text}`" token.span) :
      ParseM (Frame × List Node)) := by
  split
  · exact .pure _
  · exact (Ages.complain _ _).holding _

/-- Behind an inner operand an operator goes on, or the operand was read in vain, or else something
is wrong. -/
theorem ages_behindOperand {c : Token → Prop} [∀ t, Decidable (c t)] {vain : Bool}
    {goOn : Token → ParseM (Operator × List Node)} (h : ∀ t, Ages (goOn t)) (opener : Token)
    (ended : List Operator) (operands : List Node) (operand : Node) (start : Nat)
    (message : Token → String) : Ages (do
      let after ← current
      if c after then goOn after
      else if vain then
        changeStore (·.releaseNode operand)
        seek start
        chooseSequence opener ended operands
      else holding (operand :: operands) (complain (message after) after.span)) := by
  refine .bind .current fun after => .ite (h after) (.ite ?_ ((Ages.complain _ _).holding _))
  refine .bind (.changeStore fun s => .releaseAll s _) fun _ => .bind (.seek start) fun _ => ?_
  exact ages_chooseSequence _ _ _

section Inner

variable {inner : List String → ParseM Node} (hinner : ∀ ts, Ages (inner ts))

include hinner

/-- Reading the parts of a sequence lets slots move on. -/
theorem ages_resolveFrom (ts : List String) (opener : Token) (steps step : Nat)
    (candidates : List Operator) (operands : List Node) :
    Ages (resolveFrom inner ts opener steps step candidates operands) := by
  induction steps generalizing step candidates operands with
  | zero => exact (Ages.throw _).holding _
  | succ steps ih =>
    unfold resolveFrom
    dsimp only
    refine .ite (ages_chooseSequence _ _ _) (.bind .current fun next => ?_)
    split
    · exact .bind (.advance 1) fun _ => ih _ _ _
    · refine .ite (ages_chooseSequence _ _ _) (.bind .position fun start => ?_)
      -- the operands read so far are held while the next one is read
      refine .bind ((hinner _).holding _) fun operand => ?_
      exact ages_behindOperand (fun after => .bind (.advance 1) fun _ => ih _ _ _) _ _ _ _ _ _

omit hinner in
theorem ages_leftOperand (f : Frame) (candidates : List Operator) (token : Token) :
    Ages (leftOperand scope f candidates token) := by
  unfold leftOperand
  exact .ite (.bind (ages_reduceWhile _ _ _) fun f' => ages_left f' token) (.pure _)

/-- Resolving a sequence lets slots move on, also where a trial is given up. -/
theorem ages_resolveSequence (f : Frame) (candidates : List Operator) (token : Token) :
    Ages (resolveSequence scope inner f candidates token) := by
  refine .bind (ages_leftOperand _ _ _) fun r => .bind (.advance 1) fun _ => ?_
  exact .bind ((ages_resolveFrom hinner _ _ _ _ _ _).holding _) fun q => .pure _

/-- Reading an operator lets slots move on. -/
theorem ages_operator (f : Frame) (token : Token) : Ages (operator scope inner f token) := by
  unfold operator
  refine .ite (ages_resolveSequence hinner _ _ _) ?_
  split
  · exact (Ages.complain _ _).holding _
  · refine .bind (.advance 1) fun _ => ?_
    split
    · exact .bind ((Draft.ages_bind _ _).holding _) fun node => .pure _
    · exact .pure _
    · exact .bind (ages_reduceWhile _ _ _) fun f' => .pure _

omit hinner in

/-- Behind an argument there is another one, or the call ends. -/
theorem ages_behindArgument {goOn : ParseM (List Node × List (Option String))} (h : Ages goOn)
    (args : List Node) (names : List (Option String)) (message : String) : Ages (do
      match (← current).kind with
      | .comma =>
        advance 1
        goOn
      | .rparen =>
        advance 1
        return (args, names)
      | _ => holding args (complainHere message)) := by
  refine .bind .current fun token => ?_
  split
  · exact .bind (.advance 1) fun _ => h
  · exact .bind (.advance 1) fun _ => .pure _
  · exact (Ages.complainHere _).holding _

/-- Reading arguments lets slots move on. -/
theorem ages_callArgs (callee : Token) (rounds : Nat) (args : List Node)
    (names : List (Option String)) : Ages (callArgs inner callee rounds args names) := by
  induction rounds generalizing args names with
  | zero => exact (Ages.throw _).holding _
  | succ rounds ih =>
    refine .bind TypeReader.ages_name fun name => .bind ((hinner _).holding _) fun arg => ?_
    exact ages_behindArgument (ih _ _) _ _ _

theorem ages_call (callee : Token) : Ages (call scope inner callee) := by
  refine .bind (.advance 2) fun _ => .bind .current fun token => .ite ?_ ?_
  · exact .bind (.advance 1) fun _ => .bind (.pure _) fun r => Draft.ages_bind _ _
  · exact .bind .rounds fun rounds => .bind (ages_callArgs hinner _ _ _ _) fun r =>
      Draft.ages_bind _ _

omit hinner in

/-- Reading an identifier lets slots move on. -/
theorem ages_identifier (token : Token) : Ages (identifier scope token) := by
  refine .bind .store fun s => ?_
  split
  · exact .pure _
  · exact .bind (ages_newNative _ _) fun cell => .pure _

omit hinner in

/-- Reading an operand lets slots move on. -/
theorem ages_operand (levels : Nat) (token : Token) : Ages (operand scope levels token) := by
  unfold operand
  split
  · exact .complain _ _
  · exact .complain _ _
  · exact .bind (ValueReader.ages_read _ _) fun cell => .pure _
  · exact .bind (ValueReader.ages_read _ _) fun cell => .pure _
  · refine .ite (.bind (.advance 1) fun _ => ?_) (.complain _ _)
    exact .bind (ValueReader.ages_scalar _ _) fun cell => .pure _

/-- A step of a frame lets slots move on. -/
theorem ages_step (levels : Nat) (f : Frame) (token : Token) :
    Ages (step scope levels inner f token) := by
  -- case by case on the kind of the token, in the order of the parser
  unfold step
  split
  · exact (Ages.complain _ _).holding _
  · refine .ite ((Ages.complain _ _).holding _) (.bind (ages_closeGroup _ _) fun f' => ?_)
    exact .bind (.advance 1) fun _ => .pure _
  · exact .ite ((Ages.complain _ _).holding _) (.bind (.advance 1) fun _ => .pure _)
  · exact ages_operator hinner _ _
  · exact ages_operator hinner _ _
  · exact (Ages.complain _ _).holding _
  · refine .ite ((Ages.complain _ _).holding _) (.ite (.bind (.peek 1) fun next => .ite ?_ ?_) ?_)
    · exact .bind ((ages_call hinner _).holding _) fun node => .pure _
    · exact .bind (.advance 1) fun _ => .bind (ages_identifier _) fun node => .pure _
    · exact .bind ((ages_operand _ _).holding _) fun node => .pure _

/-- The steps of a frame let slots move on. -/
theorem ages_run (levels rounds : Nat) (f : Frame) : Ages (run scope levels inner rounds f) := by
  induction rounds generalizing f with
  | zero => exact (Ages.throw _).holding _
  | succ rounds ih =>
    refine .bind .current fun token => .ite (ages_finish f) ?_
    exact .bind (ages_step hinner _ _ _) fun f' => ih f'

end Inner

end Frame

/-! ## Statements -/

/-- Parsing a frame lets slots move on, whatever the depth. -/
theorem ages_parseFrame (scope : TupleId) (levels : Nat) (ts : List String) :
    Ages (parseFrame scope levels ts) := by
  induction levels generalizing ts with
  | zero => exact Ages.skipping (.tooDeep _)
  | succ levels ih =>
    exact Ages.skipping (.bind .rounds fun rounds => Frame.ages_run ih _ _ _)

/-- Parsing a statement lets slots move on. -/
theorem ages_parseStatement (scope : TupleId) : Ages (parseStatement scope) := by
  refine .bind .store fun s => .bind (ages_parseFrame _ _ _) fun node =>
    .bind .current fun token => ?_
  exact .ite (.pure _) (Ages.skipping ((Ages.complain _ _).holding _))

/-- Parsing statements lets slots move on: no id that has been issued is issued again before its
slot has gone round. -/
theorem ages_parseStatements (scope : TupleId) (rounds : Nat) (s : ParseState) :
    s.store.Ages (parseStatements scope rounds s).store := by
  induction rounds generalizing s with
  | zero => exact .refl _
  | succ rounds ih =>
    unfold parseStatements
    split
    · exact .refl _
    · split
      · exact ih { s with cursor := s.cursor.advance 1 }
      · -- whether a statement is read or not, what follows starts from the store it leaves
        have hages := (ages_parseStatement scope).after s
        unfold ParseM.after at hages
        cases hrun : parseStatement scope s with
        | ok node s' =>
          rw [hrun] at hages
          exact hages.trans (ih s')
        | error e s' =>
          rw [hrun] at hages
          exact hages.trans (ih s')

end TupleLang
