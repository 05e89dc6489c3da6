import TupleLang.Proofs.DirectParser
import TupleLang.Proofs.Regime

/-!
# What parsing keeps

A parser makes cells for literals, builds tuples from them, looks up variables and actions, and
gives nodes up when it fails. `Parsing R scope` says what these few steps keep, in the words of a
regime: which cells and which nodes are good, and that each step makes good ones from good ones.
Then every node that is parsed is good (`Parsing.parseStatements`).
-/

namespace TupleLang

open ParseM

/-- The arguments of a call have a place for a name each; any other operator is known by its name,
and it has operands unless it takes none. -/
def Draft.Regular (draft : Draft) : Prop :=
  if draft.op = .call then draft.argNames.length = draft.children.length
  else draft.name = draft.op.actionName ∧ draft.argNames = [] ∧
    (draft.children = [] → draft.op.arity = 0)

/-- From world `w` on, the parser comes to a later world, in which its result has the property `Q`.
-/
abbrev Regime.Parses {α : Type} (R : Regime Store) (w : R.World) (m : ParseM α)
    (Q : R.World → α → Prop) : Prop :=
  (R.comap ParseState.store).Keeps w m Q fun _ => True

/-- What a regime has to offer for parsing to keep it. -/
structure Parsing (R : Regime Store) (scope : TupleId) where
  /-- The cells of literals. -/
  CellOk : R.World → Cell → Prop
  /-- The nodes of expressions. -/
  NodeOk : R.World → Node → Prop
  cell_lasts : ∀ {v w c}, R.Later v w → CellOk v c → CellOk w c
  node_lasts : ∀ {v w n}, R.Later v w → NodeOk v n → NodeOk w n
  scalar : ∀ w token negative typed, Literal.read token negative = .ok typed →
    R.Keeps w (StoreM.newCell (.leaf typed.type) typed.value) CellOk fun _ => True
  native : ∀ w n v, R.Keeps w (StoreM.newNative n v)
    (fun w c => CellOk w c ∧ c.type = .leaf n.typeName) fun _ => True
  build : ∀ w kind entries, kind.fixedPermissions?.isSome → (∀ p ∈ entries, CellOk w p.2) →
    R.Parses w (ValueReader.build scope kind entries) CellOk
  giveUp : ∀ w cells, (∀ c ∈ cells, CellOk w c) → R.Moves w (·.releaseAll cells)
  giveUpNodes : ∀ w nodes, (∀ n ∈ nodes, NodeOk w n) → R.Moves w (·.releaseNodes nodes)
  literal : ∀ w c, CellOk w c → NodeOk w (.literal c)
  variableCell : ∀ w s name c, R.Holds w s → s.variableCell? scope name = some c →
    NodeOk w (.value c (some name))
  bound : ∀ w s draft action owner args, R.Holds w s → draft.Regular →
    (∀ n ∈ draft.children, NodeOk w n) → draft.operandTypes = (owner, args) →
    Choice.mostSpecific (s.candidates scope draft owner args) = .one action →
    NodeOk w (draft.bound action owner args)
  compared : ∀ v w s draft owner args compare ordering relation returns zero, R.Holds w s →
    draft.Regular → draft.op.isRelational → (∀ n ∈ draft.children, NodeOk w n) →
    draft.operandTypes = (owner, args) →
    s.comparison? scope draft owner args = some (compare, ordering, relation, returns) →
    R.Later w v → CellOk v zero → zero.type = .leaf "int" →
    NodeOk v (.apply { op := draft.op, name := draft.name, action := relation, type := returns }
      [.apply { op := .cmp, name := Operator.cmp.actionName, action := compare, type := ordering }
        draft.children, .literal zero])

namespace Regime.Parses

variable {R : Regime Store} {α β : Type} {w : R.World} {Q : R.World → α → Prop}

/-! ## Tokens and failures -/

/-- A parser that cannot fail and leaves the store alone. -/
theorem idle {m : ParseM α} (h : ∀ s, ∃ a s', m s = .ok a s' ∧ s'.store = s.store) :
    R.Parses w m fun _ _ => True := by
  refine Regime.Keeps.idle fun v _ s hs => ?_
  obtain ⟨a, s', hrun, hstore⟩ := h s
  refine ⟨a, s', hrun, ?_, trivial⟩
  change R.Holds v s'.store
  rw [hstore]
  exact hs

/-- Looking at the token in front keeps what holds. -/
theorem current : R.Parses w ParseM.current fun _ _ => True := idle fun _ => ⟨_, _, rfl, rfl⟩

/-- So does looking further ahead. -/
theorem peek (offset : Nat) : R.Parses w (ParseM.peek offset) fun _ _ => True :=
  idle fun _ => ⟨_, _, rfl, rfl⟩

/-- So does moving the cursor on. -/
theorem advance (n : Nat) : R.Parses w (ParseM.advance n) fun _ _ => True :=
  idle fun _ => ⟨_, _, rfl, rfl⟩

/-- So does moving the cursor to a position. -/
theorem seek (position : Nat) : R.Parses w (ParseM.seek position) fun _ _ => True :=
  idle fun _ => ⟨_, _, rfl, rfl⟩

/-- So does asking for the position. -/
theorem position : R.Parses w ParseM.position fun _ _ => True := idle fun _ => ⟨_, _, rfl, rfl⟩

/-- So does asking how many rounds are left. -/
theorem rounds : R.Parses w ParseM.rounds fun _ _ => True := idle fun _ => ⟨_, _, rfl, rfl⟩

/-- Complaints are no change of the store. -/
theorem complain (message : String) (span : Span) :
    R.Parses w (ParseM.complain message span : ParseM α) Q := .throw trivial

/-- So for the token in front. -/
theorem complainHere (message : String) :
    R.Parses w (ParseM.complainHere message : ParseM α) Q :=
  .andThen current fun _ _ _ => complain _ _

/-- So for a level that is refused. -/
theorem tooDeep (what : String) : R.Parses w (ParseM.tooDeep what : ParseM α) Q :=
  .andThen (idle fun _ => ⟨_, _, rfl, rfl⟩) fun _ _ _ => complainHere _

/-- Clean up after the failure of a parser. -/
theorem onFailure {m : ParseM α} {f : ParseState → ParseState} (hm : R.Parses w m Q)
    (hf : (R.comap ParseState.store).Moves w f) : R.Parses w (ParseM.onFailure f m) Q := by
  intro v hv s hs
  have hrun := hm v hv s hs
  unfold Regime.Leads ParseM.onFailure at *
  cases hres : m s with
  | ok a s' =>
    simp only [hres] at hrun
    exact hrun
  | error e s' =>
    simp only [hres] at hrun
    obtain ⟨-, v', hlater, hholds⟩ := hrun
    obtain ⟨v'', hlater', hholds'⟩ := hf v' (R.trans hv hlater) s' hholds
    exact ⟨trivial, v'', R.trans hlater hlater', hholds'⟩

/-- Moving the cursor after a failure keeps what holds. -/
theorem onFailure_cursor {m : ParseM α} (f : Cursor → Cursor) (hm : R.Parses w m Q) :
    R.Parses w (ParseM.onFailure (fun s => { s with cursor := f s.cursor }) m) Q :=
  onFailure hm fun v _ _ hs => ⟨v, R.refl v, hs⟩

/-! ## Reading types and names -/

/-- Reading a name of a type keeps what holds. -/
theorem typeName : R.Parses w TypeReader.name fun _ _ => True := by
  refine .andThen current fun token _ _ => .andThen (peek 1) fun next _ _ =>
    .ite (fun _ => ?_) fun _ => ?_
  · exact .andThen (advance 2) fun _ _ _ => .pure fun _ _ => trivial
  · exact .pure fun _ _ => trivial

/-- Reading an element of a type keeps what holds if what is nested does. -/
theorem typeElement {nested : ParseM TypeDesc} (hnested : ∀ w, R.Parses w nested fun _ _ => True) :
    R.Parses w (TypeReader.element nested) fun _ _ => True := by
  refine .andThen current fun token _ _ => ?_
  split
  · exact .andThen (advance 1) fun _ v _ => hnested v
  · exact .andThen (advance 1) fun _ v _ => hnested v
  · exact .andThen (advance 1) fun _ _ _ => .pure fun _ _ => trivial
  · exact .andThen (advance 1) fun _ _ _ => .pure fun _ _ => trivial
  · exact complain _ _

/-- Reading the elements of a type keeps what holds if what is nested does. -/
theorem typeElements {nested : ParseM TypeDesc} (hnested : ∀ w, R.Parses w nested fun _ _ => True)
    (rounds : Nat) (fields : List TypeDesc.Field) (comma : Bool) (w : R.World) :
    R.Parses w (TypeReader.elements nested rounds fields comma) fun _ _ => True := by
  induction rounds generalizing fields comma w with
  | zero => exact .throw trivial
  | succ rounds ih =>
    unfold TypeReader.elements
    refine .andThen current fun token _ _ => .ite (fun _ => ?_) fun _ => ?_
    · exact .andThen (advance 1) fun _ _ _ => .pure fun _ _ => trivial
    · refine .andThen typeName fun name _ _ => .andThen (typeElement hnested) fun type _ _ => ?_
      refine .andThen current fun token _ _ => ?_
      split
      · exact .andThen (advance 1) fun _ v _ => ih _ _ v
      · exact .andThen (advance 1) fun _ _ _ => .pure fun _ _ => trivial
      · exact complainHere _

/-- Reading a type keeps what holds. -/
theorem typeBody (levels : Nat) (w : R.World) :
    R.Parses w (TypeReader.body levels) fun _ _ => True := by
  induction levels generalizing w with
  | zero => exact tooDeep _
  | succ levels ih => exact .andThen rounds fun rounds v _ => typeElements ih rounds [] false v

/-- Reading the name of an element keeps what holds. -/
theorem valueName : R.Parses w ValueReader.name fun _ _ => True := by
  refine .andThen current fun token _ _ => .andThen (peek 1) fun next _ _ =>
    .ite (fun _ => ?_) fun _ => ?_
  · exact .andThen (advance 2) fun _ _ _ => .pure fun _ _ => trivial
  · exact .pure fun _ _ => trivial

end Regime.Parses

namespace Parsing

open Regime.Parses

variable {R : Regime Store} {scope : TupleId} (P : Parsing R scope) {α : Type} {w : R.World}
  {Q : R.World → α → Prop}

include P

/-- Holding cells keeps what holds: they may be released. -/
theorem holdingCells {m : ParseM α} {cells : List Cell} (hm : R.Parses w m Q)
    (hcells : ∀ c ∈ cells, P.CellOk w c) : R.Parses w (ParseM.holdingCells cells m) Q :=
  onFailure hm fun v hv s hs => P.giveUp w cells hcells v hv s.store hs

/-- Holding nodes keeps what holds: they may be released. -/
theorem holding {m : ParseM α} {nodes : List Node} (hm : R.Parses w m Q)
    (hnodes : ∀ n ∈ nodes, P.NodeOk w n) : R.Parses w (ParseM.holding nodes m) Q :=
  onFailure hm fun v hv s hs => P.giveUpNodes w nodes hnodes v hv s.store hs

/-! ## Reading values -/

/-- A cell for a native value. -/
theorem newNative (n : Native) (v : n.Carrier) :
    R.Parses w (onStore (StoreM.newNative n v)) P.CellOk :=
  (P.native w n v).parser.weaken fun _ _ _ h => h.1

/-- Reading a scalar keeps what holds, and gives a good cell. -/
theorem readScalar (token : Token) (negative : Bool) :
    R.Parses w (ValueReader.scalar token negative) P.CellOk := by
  unfold ValueReader.scalar
  split
  · rename_i typed hread
    exact (P.scalar w token negative typed hread).parser
  · exact complain _ _

/-- Reading a value gives a good cell if reading tuples does. -/
theorem readValue {levels : Nat} {tuple : TupleKind → ParseM Cell}
    (htuple : ∀ kind : TupleKind, kind.fixedPermissions?.isSome → ∀ w,
      R.Parses w (tuple kind) P.CellOk) (w : R.World) :
    R.Parses w (ValueReader.value levels tuple) P.CellOk := by
  refine .andThen current fun token _ _ => ?_
  split
  · exact .andThen (advance 1) fun _ v _ => htuple _ rfl v
  · exact .andThen (advance 1) fun _ v _ => htuple _ rfl v
  · exact .andThen (advance 1) fun _ v _ => htuple _ rfl v
  · exact .andThen (advance 1) fun _ v _ => .andThen (typeBody levels v) fun _ _ _ =>
      P.newNative _ _
  · exact .andThen (advance 1) fun _ _ _ => P.newNative _ _
  · refine .ite (fun _ => ?_) fun _ => .ite (fun _ => ?_) fun _ => ?_
    · refine .andThen (peek 1) fun number _ _ => .ite (fun _ => ?_) fun _ => ?_
      · exact .andThen (advance 2) fun _ _ _ => P.readScalar _ _
      · exact complain _ _
    · exact .andThen (advance 1) fun _ _ _ => P.readScalar _ _
    · exact complain _ _

/-- Reading an element of a tuple gives a good cell. -/
theorem readElement {value nested : ParseM Cell} (hvalue : ∀ w, R.Parses w value P.CellOk)
    (hnested : ∀ w, R.Parses w nested P.CellOk) :
    R.Parses w (ValueReader.element value nested) P.CellOk := by
  refine .andThen current fun token v _ => .ite (fun _ => ?_) fun _ => hvalue v
  exact .andThen (advance 1) fun _ v _ => hnested v

/-- Reading the elements of a tuple gives a good cell for the tuple. -/
theorem readElements {kind : TupleKind} (hkind : kind.fixedPermissions?.isSome)
    {value nested : ParseM Cell} (hvalue : ∀ w, R.Parses w value P.CellOk)
    (hnested : ∀ w, R.Parses w nested P.CellOk)
    (rounds : Nat) (entries : List (Option String × Cell)) (w : R.World)
    (hentries : ∀ p ∈ entries, P.CellOk w p.2) :
    R.Parses w (ValueReader.elements scope kind value nested rounds entries) P.CellOk := by
  have hcells : ∀ {v : R.World} {entries : List (Option String × Cell)},
      (∀ p ∈ entries, P.CellOk v p.2) → ∀ c ∈ entries.map (·.2), P.CellOk v c := by
    intro v entries h c hc
    obtain ⟨p, hp, rfl⟩ := List.mem_map.mp hc
    exact h p hp
  induction rounds generalizing entries w with
  | zero => exact P.holdingCells (.throw trivial) (hcells hentries)
  | succ rounds ih =>
    unfold ValueReader.elements
    have hlater : ∀ {v}, R.Later w v → ∀ p ∈ entries, P.CellOk v p.2 :=
      fun hv p hp => P.cell_lasts hv (hentries p hp)
    refine .andThen current fun token v hv => .ite (fun _ => ?_) fun _ => ?_
    · exact .andThen (advance 1) fun _ v' hv' =>
        P.build v' kind entries hkind (hlater (R.trans hv hv'))
    · refine .andThen valueName fun name v' hv' => ?_
      have hv' := R.trans hv hv'
      refine .bind (P.holdingCells (P.readElement hvalue hnested) (hcells (hlater hv')))
        fun cell u hu hcell => ?_
      have hu := R.trans hv' hu
      have hmore : ∀ {u'}, R.Later u u' → ∀ p ∈ entries ++ [(name, cell)], P.CellOk u' p.2 := by
        intro u' hu' p hp
        rcases List.mem_append.mp hp with hp | hp
        · exact hlater (R.trans hu hu') p hp
        · rw [List.mem_singleton.mp hp]
          exact P.cell_lasts hu' hcell
      refine .andThen current fun token u' hu' => ?_
      split
      · exact .andThen (advance 1) fun _ u'' hu'' => ih _ u'' (hmore (R.trans hu' hu''))
      · exact .andThen (advance 1) fun _ u'' hu'' =>
          P.build u'' kind _ hkind (hmore (R.trans hu' hu''))
      · exact P.holdingCells (complainHere _) (hcells (hmore hu'))

/-- Reading a tuple gives a good cell. -/
theorem readTuple (levels : Nat) (kind : TupleKind) (hkind : kind.fixedPermissions?.isSome)
    (w : R.World) : R.Parses w (ValueReader.tuple scope levels kind) P.CellOk := by
  induction levels generalizing kind w with
  | zero => exact tooDeep _
  | succ levels ih =>
    refine .andThen rounds fun rounds v _ => ?_
    exact P.readElements hkind (P.readValue ih) (ih kind hkind) rounds [] v (by simp)

/-! ## Binding -/

/-- A type test may get a new literal for its last operand. -/
theorem coerceTypeOperand {draft : Draft} (hregular : draft.Regular)
    (hchildren : ∀ n ∈ draft.children, P.NodeOk w n) :
    R.Parses w (draft.coerceTypeOperand scope)
      fun v d => d.Regular ∧ d.op = draft.op ∧ ∀ n ∈ d.children, P.NodeOk v n := by
  have hsame : ∀ {v}, R.Later w v → ∀ n ∈ draft.children, P.NodeOk v n :=
    fun hv n hn => P.node_lasts hv (hchildren n hn)
  unfold Draft.coerceTypeOperand
  refine .ite (fun hop => ?_) fun _ => .pure fun v hv => ⟨hregular, rfl, hsame hv⟩
  refine .get_bind fun v hv s _ => ?_
  split
  · refine .bind (P.newNative _ _) fun cell u hu hcell => .pure fun u' hu' => ⟨?_, rfl, ?_⟩
    · have hnot : draft.op ≠ .call := by rcases hop with hop | hop <;> simp [hop]
      rw [Draft.Regular, if_neg hnot] at hregular ⊢
      exact ⟨hregular.1, hregular.2.1, by simp⟩
    · intro n hn
      rcases List.mem_append.mp hn with hn | hn
      · exact hsame (R.trans hv (R.trans hu hu')) n (List.dropLast_subset _ hn)
      · rw [List.mem_singleton.mp hn]
        exact P.node_lasts hu' (P.literal u cell hcell)
  · exact .pure fun u hu => ⟨hregular, rfl, hsame (R.trans hv hu)⟩

/-- Binding a draft of good nodes gives a good node. -/
theorem bind {draft : Draft} (hregular : draft.Regular)
    (hchildren : ∀ n ∈ draft.children, P.NodeOk w n) (span : Span) :
    R.Parses w (draft.bind scope span) P.NodeOk := by
  unfold Draft.bind
  refine .bind (P.coerceTypeOperand hregular hchildren) fun d v hv hd => ?_
  obtain ⟨hregular, hop, hchildren⟩ := hd
  refine .get_bind fun u hu s hs => ?_
  have hchildren : ∀ n ∈ d.children, P.NodeOk u n := fun n hn => P.node_lasts hu (hchildren n hn)
  dsimp only
  split
  · rename_i action hchoice
    exact .pure fun u' hu' => P.node_lasts hu'
      (P.bound u s.store d action _ _ hs hregular hchildren rfl hchoice)
  · exact P.holding (complain _ _) hchildren
  · split
    · rename_i comparison hcomparison
      obtain ⟨compare, ordering, relation, returns⟩ := comparison
      split at hcomparison
      · rename_i hrelational
        refine .bind (P.native u .int 0).parser fun zero u' hu' hzero => .pure fun u'' hu'' => ?_
        exact P.node_lasts hu'' (P.compared u' u s.store d _ _ _ _ _ _ zero hs hregular hrelational
          hchildren rfl hcomparison hu' hzero.1 hzero.2)
      · cases hcomparison
    · exact P.holding (complain _ _) hchildren

/-! ## Frames -/

/-- An operator that waits is no call, and its operands are good. -/
def WaitingOk (w : R.World) (waiting : Waiting) : Prop :=
  waiting.op ≠ .call ∧ ∀ n ∈ waiting.inner, P.NodeOk w n

/-- The nodes of a frame are good. -/
structure FrameOk (w : R.World) (f : Frame) : Prop where
  operands : ∀ n ∈ f.operands, P.NodeOk w n
  waiting : ∀ waiting, .waiting waiting ∈ f.pending → P.WaitingOk w waiting

variable {P} {f : Frame} {v : R.World} {waiting : Waiting}

/-- An operator that waits stays good. -/
theorem WaitingOk.lasts (hv : R.Later w v) (hw : P.WaitingOk w waiting) : P.WaitingOk v waiting :=
  ⟨hw.1, fun n hn => P.node_lasts hv (hw.2 n hn)⟩

/-- A frame stays good. -/
theorem FrameOk.lasts (hv : R.Later w v) (hf : P.FrameOk w f) : P.FrameOk v f :=
  ⟨fun n hn => P.node_lasts hv (hf.operands n hn), fun x hx => (hf.waiting x hx).lasts hv⟩

/-- The nodes that a good frame holds are good. -/
theorem FrameOk.held (hf : P.FrameOk w f) : ∀ n ∈ f.held, P.NodeOk w n := by
  intro n hn
  rcases List.mem_append.mp hn with hn | hn
  · exact hf.operands n (List.mem_reverse.mp hn)
  · obtain ⟨p, hp, hn⟩ := List.mem_flatMap.mp hn
    cases p with
    | opening => simp [Pending.inner] at hn
    | waiting x => exact (hf.waiting x (List.mem_reverse.mp hp)).2 n hn

/-- A good frame may take a good operand. -/
theorem FrameOk.pushOperand {node : Node} (hf : P.FrameOk w f) (hnode : P.NodeOk w node) :
    P.FrameOk w (f.pushOperand node) := by
  refine ⟨fun n hn => ?_, hf.waiting⟩
  rcases List.mem_cons.mp hn with rfl | hn
  · exact hnode
  · exact hf.operands n hn

/-- A good frame may wait for a good operator. -/
theorem FrameOk.await (hf : P.FrameOk w f) (hw : P.WaitingOk w waiting) :
    P.FrameOk w (f.await waiting) := by
  refine ⟨hf.operands, fun x hx => ?_⟩
  rcases List.mem_cons.mp hx with heq | hx
  · cases heq
    exact hw
  · exact hf.waiting x hx

variable (P)

/-- Completing an operator of good nodes. -/
theorem reduce (hf : P.FrameOk w f) (hw : P.WaitingOk w waiting) :
    R.Parses w (Frame.reduce scope f waiting)
      fun v f' => P.FrameOk v f' ∧ f'.pending = f.pending := by
  unfold Frame.reduce
  refine .andThen current fun token v hv => ?_
  replace hf := hf.lasts hv
  replace hw := hw.lasts hv
  have hmissing : ∀ message, R.Parses v (ParseM.holding f.held (ParseM.holding waiting.inner
      (ParseM.complain message token.span)))
      fun v f' => P.FrameOk v f' ∧ f'.pending = f.pending :=
    fun message => P.holding (P.holding (complain _ _) hw.2) hf.held
  -- either way the operator takes its operands from the frame and leaves its node there
  have hbind : ∀ (children operands : List Node), (children = [] → waiting.op.arity = 0) →
      (∀ n ∈ children, P.NodeOk v n) → (∀ n ∈ operands, P.NodeOk v n) → R.Parses v (do
        let node ← ParseM.holding { f with operands }.held
          ((Draft.ofOperator waiting.op children).bind scope token.span)
        return { f with operands := node :: operands })
        fun v f' => P.FrameOk v f' ∧ f'.pending = f.pending := by
    intro children operands hempty hchildren hoperands
    have hrest : P.FrameOk v { f with operands } := ⟨hoperands, hf.waiting⟩
    have hregular : (Draft.ofOperator waiting.op children).Regular := by
      simpa [Draft.Regular, Draft.ofOperator, hw.1] using hempty
    refine .bind (P.holding (P.bind hregular hchildren token.span) hrest.held)
      fun node u hu hnode => ?_
    refine .pure fun u' hu' => ⟨⟨fun n hn => ?_, (hrest.lasts (R.trans hu hu')).waiting⟩, rfl⟩
    rcases List.mem_cons.mp hn with rfl | hn
    · exact P.node_lasts hu' hnode
    · exact P.node_lasts (R.trans hu hu') (hoperands n hn)
  cases waiting with
  | single op =>
    refine .ite (fun _ => hmissing _) fun henough =>
      hbind _ _ (fun hnone => ?_) (fun n hn => ?_) fun n hn => ?_
    · rw [List.reverse_eq_nil_iff, List.take_eq_nil_iff] at hnone
      rcases hnone with hnone | hnone
      · exact hnone
      · rw [hnone] at henough
        exact Nat.eq_zero_of_not_pos henough
    · exact hf.operands n (List.mem_of_mem_take (List.mem_reverse.mp hn))
    · exact hf.operands n (List.mem_of_mem_drop hn)
  | tail op inner =>
    dsimp only
    split
    · exact hmissing _
    · rename_i trailing operands hoperands
      have hall : ∀ n ∈ trailing :: operands, P.NodeOk v n := hoperands ▸ hf.operands
      refine hbind _ _ (by simp) (fun n hn => ?_) fun n hn => hall n (List.mem_cons_of_mem _ hn)
      rcases List.mem_append.mp hn with hn | hn
      · exact hw.2 n hn
      · rw [List.mem_singleton.mp hn]
        exact hall trailing List.mem_cons_self

/-- Reducing operators of a precedence keeps frames good. -/
theorem reduceWhile (precedence : Nat) (pending : List Pending) (f : Frame) (w : R.World)
    (hf : P.FrameOk w { f with pending }) :
    R.Parses w (Frame.reduceWhile scope precedence f pending) P.FrameOk := by
  induction pending generalizing f w with
  | nil => exact .pure fun v hv => hf.lasts hv
  | cons p rest ih =>
    cases p with
    | opening => exact .pure fun v hv => hf.lasts hv
    | waiting x =>
      unfold Frame.reduceWhile
      refine .ite (fun _ => ?_) fun _ => .pure fun v hv => hf.lasts hv
      have hrest : P.FrameOk w { f with pending := rest } :=
        ⟨hf.operands, fun y hy => hf.waiting y (List.mem_cons_of_mem _ hy)⟩
      refine .bind (P.reduce hrest (hf.waiting x List.mem_cons_self)) fun f' v hv hf' => ih f' v ?_
      exact ⟨hf'.1.operands, fun y hy => (hrest.lasts hv).waiting y hy⟩

/-- Closing a group keeps frames good. -/
theorem closeGroup (pending : List Pending) (f : Frame) (w : R.World)
    (hf : P.FrameOk w { f with pending }) :
    R.Parses w (Frame.closeGroup scope f pending) P.FrameOk := by
  induction pending generalizing f w with
  | nil => exact P.holding (complainHere _) hf.held
  | cons p rest ih =>
    have hrest : P.FrameOk w { f with pending := rest } :=
      ⟨hf.operands, fun y hy => hf.waiting y (List.mem_cons_of_mem _ hy)⟩
    cases p with
    | opening => exact .pure fun v hv => hrest.lasts hv
    | waiting x =>
      refine .bind (P.reduce hrest (hf.waiting x List.mem_cons_self)) fun f' v hv hf' => ih f' v ?_
      exact ⟨hf'.1.operands, fun y hy => (hrest.lasts hv).waiting y hy⟩

/-- Closing all groups keeps frames good. -/
theorem closeAll (pending : List Pending) (f : Frame) (w : R.World)
    (hf : P.FrameOk w { f with pending }) :
    R.Parses w (Frame.closeAll scope f pending) P.FrameOk := by
  induction pending generalizing f w with
  | nil => exact .pure fun v hv => hf.lasts hv
  | cons p rest ih =>
    have hrest : P.FrameOk w { f with pending := rest } :=
      ⟨hf.operands, fun y hy => hf.waiting y (List.mem_cons_of_mem _ hy)⟩
    cases p with
    | opening => exact P.holding (complainHere _) hrest.held
    | waiting x =>
      refine .bind (P.reduce hrest (hf.waiting x List.mem_cons_self)) fun f' v hv hf' => ih f' v ?_
      exact ⟨hf'.1.operands, fun y hy => (hrest.lasts hv).waiting y hy⟩

/-- A frame that has come to its end hands on a good node. -/
theorem finish (hf : P.FrameOk w f) : R.Parses w (Frame.finish scope f) P.NodeOk := by
  unfold Frame.finish
  refine .ite (fun _ => P.holding (complainHere _) hf.held) fun _ => ?_
  refine .bind (P.closeAll f.pending f w hf) fun f' v hv hf' => ?_
  split
  · rename_i root rest hoperands
    have hall : ∀ n ∈ root :: rest, P.NodeOk v n := hoperands ▸ hf'.operands
    have hrelease : R.Parses v (ParseM.changeStore (·.releaseNodes rest.reverse)) fun _ _ => True :=
      .modify fun u hu s hs => P.giveUpNodes v rest.reverse
        (fun n hn => hall n (List.mem_cons_of_mem _ (List.mem_reverse.mp hn))) u hu s.store hs
    exact .andThen hrelease fun _ u hu => .pure fun u' hu' =>
      P.node_lasts (R.trans hu hu') (hall root List.mem_cons_self)
  · exact complainHere _

/-! ## Operators of several tokens -/

omit P in

/-- No operator of several tokens is a call. -/
theorem ne_call_of_mem_sequences {op : Operator} {text : String} {leading : Bool}
    (h : op ∈ Operator.sequencesStarting text leading) : op ≠ .call := by
  rintro rfl
  simp [Operator.sequencesStarting, Operator.sequences] at h

/-- The operator of a sequence waits with good operands. -/
theorem chooseSequence {opener : Token} {candidates : List Operator} {operands : List Node}
    (hcandidates : ∀ op ∈ candidates, op ≠ .call) (hoperands : ∀ n ∈ operands, P.NodeOk w n) :
    R.Parses w (Frame.chooseSequence opener candidates operands)
      fun v r => P.WaitingOk v (.tail r.1 r.2) := by
  unfold Frame.chooseSequence
  split
  · rename_i op
    exact .pure fun v hv => ⟨hcandidates op List.mem_cons_self,
      fun n hn => P.node_lasts hv (hoperands n hn)⟩
  · exact P.holding (complain _ _) hoperands

section Inner

variable {inner : List String → ParseM Node}
  (hinner : ∀ terminators w, R.Parses w (inner terminators) P.NodeOk)

include hinner

/-- Reading the parts of a sequence gives good operands. -/
theorem resolveFrom (terminators : List String) (opener : Token) (steps step : Nat)
    (candidates : List Operator) (operands : List Node) (w : R.World)
    (hcandidates : ∀ op ∈ candidates, op ≠ .call) (hoperands : ∀ n ∈ operands, P.NodeOk w n) :
    R.Parses w (Frame.resolveFrom inner terminators opener steps step candidates operands)
      fun v r => P.WaitingOk v (.tail r.1 r.2) := by
  induction steps generalizing step candidates operands w with
  | zero => exact P.holding (.throw trivial) hoperands
  | succ steps ih =>
    unfold Frame.resolveFrom
    -- operators that have ended and those that go on are among the candidates
    have hparts : ∀ op, op ∈ (candidates.partition fun op => op.sequence.length ≤ step).1 ∨
        op ∈ (candidates.partition fun op => op.sequence.length ≤ step).2 → op ≠ .call := by
      intro op hop
      simp only [List.partition_eq_filter_filter] at hop
      rcases hop with hop | hop
      · exact hcandidates op (List.mem_filter.mp hop).1
      · exact hcandidates op (List.mem_filter.mp hop).1
    dsimp only
    refine .ite (fun _ => P.chooseSequence hcandidates hoperands) fun _ =>
      .andThen current fun next v hv => ?_
    have hlater : ∀ {u}, R.Later v u → ∀ n ∈ operands, P.NodeOk u n :=
      fun hu n hn => P.node_lasts (R.trans hv hu) (hoperands n hn)
    split
    · rename_i op hfind
      -- a sub-token decides for one operator
      refine .andThen (advance 1) fun _ u hu => ih _ _ _ u (fun op' hop' => ?_) (hlater hu)
      rw [List.mem_singleton.mp hop']
      exact hparts op (.inr (List.mem_of_find?_eq_some hfind))
    · refine .ite (fun _ => ?_) fun _ => .andThen position fun start u hu => ?_
      · exact P.chooseSequence (fun op hop => hparts op (.inl hop)) (hlater (R.refl v))
      · refine .bind (P.holding (hinner _ u) (hlater hu)) fun operand u' hu' hoperand => ?_
        replace hlater : ∀ {x}, R.Later u' x → ∀ n ∈ operands, P.NodeOk x n :=
          fun hx => hlater (R.trans hu (R.trans hu' hx))
        refine .andThen current fun after u'' hu'' => ?_
        -- the operand that was read joins the others
        have hmore : ∀ {x}, R.Later u'' x → ∀ n ∈ operands ++ [operand], P.NodeOk x n := by
          intro x hx n hn
          rcases List.mem_append.mp hn with hn | hn
          · exact hlater (R.trans hu'' hx) n hn
          · rw [List.mem_singleton.mp hn]
            exact P.node_lasts (R.trans hu'' hx) hoperand
        refine .ite (fun _ => ?_) fun _ => .ite (fun _ => ?_) fun _ => ?_
        · refine .andThen (advance 1) fun _ x hx => ih _ _ _ x (fun op hop => ?_) (hmore hx)
          exact hparts op (.inr (List.mem_filter.mp (List.mem_filter.mp hop).1).1)
        · -- the operand was read in vain and is given up
          have hrelease :
            R.Parses u'' (ParseM.changeStore (·.releaseNode operand)) fun _ _ => True := by
            refine .modify fun x hx s hs => ?_
            obtain ⟨x', hx', hs'⟩ := P.giveUpNodes u'' [operand]
              (fun n hn => hmore (R.refl u'') n (List.mem_append_right _ hn)) x hx s.store hs
            refine ⟨x', hx', ?_⟩
            change R.Holds x' (s.store.releaseNode operand)
            simpa [Store.releaseNodes, Store.releaseNode, Node.cellsOf] using hs'
          refine .andThen hrelease fun _ x hx => .andThen (seek start) fun _ y hy => ?_
          exact P.chooseSequence (fun op hop => hparts op (.inl hop))
            (hlater (R.trans hu'' (R.trans hx hy)))
        · refine P.holding (complain _ _) fun n hn => hmore (R.refl u'') n ?_
          simp only [List.mem_cons, List.mem_append, List.not_mem_nil, or_false] at hn ⊢
          exact hn.symm

omit hinner in

/-- The operand to the left of a sequence is good. -/
theorem leftOperand (hf : P.FrameOk w f) (candidates : List Operator) (token : Token) :
    R.Parses w (Frame.leftOperand scope f candidates token)
      fun v r => P.FrameOk v r.1 ∧ ∀ n ∈ r.2, P.NodeOk v n := by
  unfold Frame.leftOperand
  refine .ite (fun _ => ?_) fun _ => .pure fun v hv => ⟨hf.lasts hv, by simp⟩
  refine .bind (P.reduceWhile _ f.pending f w hf) fun f' v hv hf' => ?_
  split
  · rename_i left operands hoperands
    have hall : ∀ n ∈ left :: operands, P.NodeOk v n := hoperands ▸ hf'.operands
    refine .pure fun u hu => ⟨⟨fun n hn => ?_, (hf'.lasts hu).waiting⟩, fun n hn => ?_⟩
    · exact P.node_lasts hu (hall n (List.mem_cons_of_mem _ hn))
    · rw [List.mem_singleton.mp hn]
      exact P.node_lasts hu (hall left List.mem_cons_self)
  · exact P.holding (complain _ _) hf'.held

/-- Resolving a sequence keeps frames good, whether there was a trial or not. -/
theorem resolveSequence (hf : P.FrameOk w f) {candidates : List Operator}
    (hcandidates : ∀ op ∈ candidates, op ≠ .call) (token : Token) :
    R.Parses w (Frame.resolveSequence scope inner f candidates token) P.FrameOk := by
  unfold Frame.resolveSequence
  refine .bind (P.leftOperand hf candidates token) fun r v hv hr => ?_
  obtain ⟨f', operands⟩ := r
  refine .andThen (advance 1) fun _ u hu => ?_
  have hresolve := P.resolveFrom hinner f'.terminators token 4 1 candidates operands u hcandidates
    fun n hn => P.node_lasts hu (hr.2 n hn)
  refine .bind (P.holding hresolve (hr.1.lasts hu).held) fun r' u' hu' hr' =>
    .pure fun u'' hu'' => ?_
  exact (hr.1.lasts (R.trans hu (R.trans hu' hu''))).await (hr'.lasts hu'')

/-! ## Operators of one token and operands -/

omit P hinner in

/-- No spelling is that of a call. -/
theorem ne_call_of_ofSpelling? {op : Operator} {text : String} {leading : Bool}
    (h : Operator.ofSpelling? text leading = some op) : op ≠ .call := by
  rintro rfl
  unfold Operator.ofSpelling? at h
  split at h
  · split at h <;> cases h
  · split at h <;> cases h

/-- Reading an operator keeps frames good. -/
theorem operator (hf : P.FrameOk w f) (token : Token) :
    R.Parses w (Frame.operator scope inner f token) P.FrameOk := by
  unfold Frame.operator
  dsimp only
  refine .ite (fun _ => ?_) fun _ => ?_
  · exact P.resolveSequence hinner hf (fun op hop => ne_call_of_mem_sequences hop) token
  · split
    · exact P.holding (complain _ _) hf.held
    · rename_i op hspelling
      have hop := ne_call_of_ofSpelling? hspelling
      have hsingle : ∀ v, P.WaitingOk v (.single op) := fun v => ⟨hop, by simp [Waiting.inner]⟩
      refine .andThen (advance 1) fun _ v hv => ?_
      split
      · rename_i hnone
        have hregular : (Draft.ofOperator op []).Regular := by
          simp [Draft.Regular, Draft.ofOperator, hop, hnone]
        refine .bind (P.holding (P.bind hregular (by simp [Draft.ofOperator]) token.span)
          (hf.lasts hv).held) fun node u hu hnode => .pure fun u' hu' => ?_
        exact (hf.lasts (R.trans hv (R.trans hu hu'))).pushOperand (P.node_lasts hu' hnode)
      · exact .pure fun u hu => (hf.lasts (R.trans hv hu)).await (hsingle u)
      · refine .bind (P.reduceWhile _ f.pending f v (hf.lasts hv)) fun f' u _ hf' => ?_
        exact .pure fun u' hu' => (hf'.lasts hu').await (hsingle u')

/-- The arguments of a call are good, and each has a name or none. -/
theorem callArgs (callee : Token) (rounds : Nat) (args : List Node) (names : List (Option String))
    (w : R.World) (hargs : ∀ n ∈ args, P.NodeOk w n) (hlength : names.length = args.length) :
    R.Parses w (Frame.callArgs inner callee rounds args names)
      fun v r => r.2.length = r.1.length ∧ ∀ n ∈ r.1, P.NodeOk v n := by
  induction rounds generalizing args names w with
  | zero => exact P.holding (.throw trivial) hargs
  | succ rounds ih =>
    unfold Frame.callArgs
    refine .andThen typeName fun name v hv => ?_
    replace hargs : ∀ {u}, R.Later v u → ∀ n ∈ args, P.NodeOk u n :=
      fun hu n hn => P.node_lasts (R.trans hv hu) (hargs n hn)
    refine .bind (P.holding (hinner [] v) (hargs (R.refl v))) fun arg u hu harg => ?_
    have hmore : ∀ {x}, R.Later u x → ∀ n ∈ args ++ [arg], P.NodeOk x n := by
      intro x hx n hn
      rcases List.mem_append.mp hn with hn | hn
      · exact hargs (R.trans hu hx) n hn
      · rw [List.mem_singleton.mp hn]
        exact P.node_lasts hx harg
    have hlength' : (names ++ [name]).length = (args ++ [arg]).length := by simp [hlength]
    refine .andThen current fun token u' hu' => ?_
    split
    · exact .andThen (advance 1) fun _ x hx => ih _ _ x (hmore (R.trans hu' hx)) hlength'
    · exact .andThen (advance 1) fun _ x hx => .pure fun y hy =>
        ⟨hlength', hmore (R.trans hu' (R.trans hx hy))⟩
    · exact P.holding (complainHere _) (hmore hu')

/-- A call is good. -/
theorem call (callee : Token) : R.Parses w (Frame.call scope inner callee) P.NodeOk := by
  have hbind : ∀ (args : List Node) (names : List (Option String)) (v : R.World),
      names.length = args.length → (∀ n ∈ args, P.NodeOk v n) →
      R.Parses v ((⟨.call, callee.text, args, names⟩ : Draft).bind scope callee.span) P.NodeOk :=
    fun args names v hlength hargs =>
      P.bind (by simpa [Draft.Regular] using hlength) hargs callee.span
  unfold Frame.call
  refine .andThen (advance 2) fun _ v _ => .andThen current fun token u _ =>
    .ite (fun _ => ?_) fun _ => ?_
  · exact .andThen (advance 1) fun _ x _ => hbind [] [] x rfl (by simp)
  · refine .andThen rounds fun rounds x _ => ?_
    exact .bind (P.callArgs hinner callee rounds [] [] x (by simp) rfl) fun r y _ hr =>
      hbind r.1 r.2 y hr.1 hr.2

omit hinner in

/-- An identifier is a good node. -/
theorem identifier (token : Token) : R.Parses w (Frame.identifier scope token) P.NodeOk := by
  refine .get_bind fun v hv s hs => ?_
  split
  · rename_i cell hcell
    exact .pure fun u hu => P.node_lasts hu (P.variableCell v s.store _ cell hs hcell)
  · exact .bind (P.newNative _ _) fun cell u hu hcell => .pure fun u' hu' =>
      P.node_lasts hu' (P.literal u cell hcell)

omit hinner in

/-- An operand is a good node. -/
theorem operand (levels : Nat) (token : Token) :
    R.Parses w (Frame.operand scope levels token) P.NodeOk := by
  have hliteral : ∀ {v : R.World} {m : ParseM Cell}, R.Parses v m P.CellOk →
      R.Parses v (do return .literal (← m)) P.NodeOk := fun hm =>
    .bind hm fun cell u hu hcell => .pure fun u' hu' => P.node_lasts hu' (P.literal u cell hcell)
  unfold Frame.operand
  split
  · exact complain _ _
  · exact complain _ _
  · exact hliteral (P.readValue (P.readTuple levels) w)
  · exact hliteral (P.readValue (P.readTuple levels) w)
  · refine .ite (fun _ => ?_) fun _ => complain _ _
    exact .andThen (advance 1) fun _ v _ => hliteral (P.readScalar token false)

/-! ## Whole frames -/

/-- Taking in a token keeps a frame good. -/
theorem step (hf : P.FrameOk w f) (levels : Nat) (token : Token) :
    R.Parses w (Frame.step scope levels inner f token) P.FrameOk := by
  have hpush : ∀ {v : R.World} {m : ParseM Node}, R.Later w v → R.Parses v m P.NodeOk →
      R.Parses v (do return f.pushOperand (← m)) P.FrameOk := fun hv hm =>
    .bind hm fun node u hu hnode => .pure fun u' hu' =>
      (hf.lasts (R.trans hv (R.trans hu hu'))).pushOperand (P.node_lasts hu' hnode)
  unfold Frame.step
  split
  · exact P.holding (complain _ _) hf.held
  · refine .ite (fun _ => P.holding (complain _ _) hf.held) fun _ => ?_
    refine .bind (P.closeGroup f.pending f w hf) fun f' v _ hf' => ?_
    exact .andThen (advance 1) fun _ u hu => .pure fun u' hu' =>
      ⟨(hf'.lasts (R.trans hu hu')).operands, (hf'.lasts (R.trans hu hu')).waiting⟩
  · refine .ite (fun _ => P.holding (complain _ _) hf.held) fun _ => ?_
    refine .andThen (advance 1) fun _ v hv => .pure fun u hu => ?_
    have hf := hf.lasts (R.trans hv hu)
    exact ⟨hf.operands, fun x hx => hf.waiting x (by simpa using hx)⟩
  · exact P.operator hinner hf token
  · exact P.operator hinner hf token
  · exact P.holding (complain _ _) hf.held
  · refine .ite (fun _ => P.holding (complain _ _) hf.held) fun _ => .ite (fun _ => ?_) fun _ => ?_
    · refine .andThen (peek 1) fun next v hv => .ite (fun _ => ?_) fun _ => ?_
      · exact hpush hv (P.holding (P.call hinner token) (hf.lasts hv).held)
      · exact .andThen (advance 1) fun _ u hu => hpush (R.trans hv hu) (P.identifier token)
    · exact hpush (R.refl w) (P.holding (P.operand levels token) hf.held)

/-- What the steps of a frame come to is good. -/
theorem run (levels rounds : Nat) (f : Frame) (w : R.World) (hf : P.FrameOk w f) :
    R.Parses w (Frame.run scope levels inner rounds f) P.NodeOk := by
  induction rounds generalizing f w with
  | zero => exact P.holding (.throw trivial) hf.held
  | succ rounds ih =>
    unfold Frame.run
    refine .andThen current fun token v hv => .ite (fun _ => P.finish (hf.lasts hv)) fun _ => ?_
    exact .bind (P.step hinner (hf.lasts hv) levels token) fun f' u _ hf' => ih f' u hf'

end Inner

/-- A frame is a good node. -/
theorem parseFrame (levels : Nat) (terminators : List String) (w : R.World) :
    R.Parses w (TupleLang.parseFrame scope levels terminators) P.NodeOk := by
  induction levels generalizing terminators w with
  | zero => exact onFailure_cursor _ (tooDeep _)
  | succ levels ih =>
    refine onFailure_cursor _ (.andThen rounds fun rounds v _ => ?_)
    exact P.run ih levels rounds { terminators } v ⟨by simp, by simp⟩

/-- A statement is a good node. -/
theorem parseStatement (w : R.World) : R.Parses w (TupleLang.parseStatement scope) P.NodeOk := by
  refine .get_bind fun v _ s _ => .bind (P.parseFrame _ [] v) fun node u hu hnode => ?_
  refine .andThen current fun token u' hu' => .ite (fun _ => ?_) fun _ => ?_
  · exact .pure fun x hx => P.node_lasts (R.trans hu' hx) hnode
  · refine onFailure_cursor _ (P.holding (complain _ _) fun n hn => ?_)
    rw [List.mem_singleton.mp hn]
    exact P.node_lasts hu' hnode

/-- All statements that are parsed are good. -/
theorem parseStatements (rounds : Nat) {s : ParseState} {w : R.World} (hs : R.Holds w s.store) :
    ∃ v, R.Later w v ∧ R.Holds v (TupleLang.parseStatements scope rounds s).store ∧
      ∀ n ∈ (TupleLang.parseStatements scope rounds s).result, P.NodeOk v n := by
  induction rounds generalizing s w with
  | zero => exact ⟨w, R.refl w, hs, by simp [TupleLang.parseStatements]⟩
  | succ rounds ih =>
    unfold TupleLang.parseStatements
    split
    · exact ⟨w, R.refl w, hs, by simp⟩
    · split
      · exact ih hs
      · have hrun := P.parseStatement w w (R.refl w) s hs
        unfold Regime.Leads at hrun
        cases hres : TupleLang.parseStatement scope s with
        | ok node s' =>
          simp only [hres] at hrun
          obtain ⟨v, hv, hs', hnode⟩ := hrun
          obtain ⟨u, hu, hs'', hrest⟩ := ih hs'
          refine ⟨u, R.trans hv hu, hs'', fun n hn => ?_⟩
          rcases List.mem_cons.mp hn with rfl | hn
          · exact P.node_lasts hu hnode
          · exact hrest n hn
        | error e s' =>
          simp only [hres] at hrun
          obtain ⟨-, v, hv, hs'⟩ := hrun
          obtain ⟨u, hu, hs'', hrest⟩ := ih hs'
          exact ⟨u, R.trans hv hu, hs'', hrest⟩

end Parsing

end TupleLang
