import TupleLang.Proofs.FollowingParser
import TupleLang.Proofs.LinearReader

/-!
# Parsing keeps account of its tuples

Every function of the parser is linear: it takes over the nodes that it is given, and either hands
them on in its result or gives them up. A frame holds its operands and the inner operands of the
operators that wait.

So parsing touches no tuple that was there before, and a failed parse or a released expression
leaves none behind (`parse_leaves_no_trace`).
-/

namespace TupleLang

open ParseM

variable {pre : Multiset Cell}

/-! ## Binding -/

/-- Bound positions are distinct, and each is that of a declared argument. -/
theorem Signature.bindArgs_spec {declared actual : List TypeDesc.Field} {i : Nat}
    {taken positions : List Nat} (h : bindArgs declared i taken actual = some positions) :
    positions.length = actual.length ∧ positions.Nodup ∧
      ∀ p ∈ positions, p < declared.length ∧ p ∉ taken := by
  induction actual generalizing i taken positions with
  | nil =>
    cases h
    simp
  | cons arg rest ih =>
    obtain ⟨name, type⟩ := arg
    simp only [bindArgs] at h
    split at h
    · cases h
    · rename_i pos _
      split at h
      · rename_i hfree
        simp only [Bool.and_eq_true, Bool.not_eq_true', List.contains_eq_mem,
          decide_eq_false_iff_not, Option.any_eq_true] at hfree
        obtain ⟨hnot, d, hd, -⟩ := hfree
        obtain ⟨ps, hps, rfl⟩ := Option.map_eq_some_iff.mp h
        obtain ⟨hlen, hnodup, hall⟩ := ih hps
        refine ⟨by simp [hlen], List.nodup_cons.mpr ⟨fun hp => ?_, hnodup⟩, fun p hp => ?_⟩
        · exact (hall pos hp).2 (List.mem_cons_self ..)
        · -- the position bound here was free, and is taken for those behind it
          rcases List.mem_cons.mp hp with rfl | hp
          · exact ⟨(List.getElem?_eq_some_iff.mp hd).1, hnot⟩
          · exact ⟨(hall p hp).1, fun ht => (hall p hp).2 (List.mem_cons_of_mem _ ht)⟩
      · cases h

/-- The declared positions of the arguments are all positions, in some order. -/
theorem Signature.declaredPositions_perm {s : Signature} {args : TypeDesc} {positions : List Nat}
    (h : s.declaredPositions args = some positions) :
    (List.range args.size).Perm positions ∧ positions.length = args.size := by
  unfold declaredPositions at h
  split at h
  · rename_i hsize
    obtain ⟨hlen, hnodup, hall⟩ := bindArgs_spec h
    have hlen : positions.length = args.size := hlen
    -- as many different positions as there are declared ones are all of them
    have hsub : positions ⊆ List.range args.size := by
      intro p hp
      rw [List.mem_range, ← hsize]
      exact (hall p hp).1
    refine ⟨((List.subperm_of_subset hnodup hsub).perm_of_length_le ?_).symm, hlen⟩
    simp [hlen]
  · cases h

/-- Looking up every key of an association list gives its values in order. -/
theorem filterMap_lookup_keys {β : Type} {l : List (Nat × β)} (h : (l.map (·.1)).Nodup) :
    (l.map (·.1)).filterMap (fun p => l.lookup p) = l.map (·.2) := by
  induction l with
  | nil => rfl
  | cons entry l ih =>
    obtain ⟨k, v⟩ := entry
    rw [List.map_cons, List.nodup_cons] at h
    have hrest : (l.map (·.1)).filterMap (fun p => ((k, v) :: l).lookup p) = l.map (·.2) := by
      rw [← ih h.2]
      refine List.filterMap_congr fun p hp => ?_
      have hne : (p == k) = false := beq_false_of_ne fun hpk => h.1 (hpk ▸ hp)
      simp [List.lookup, hne]
    simp [hrest]

namespace Draft

/-- Putting arguments in the order of declaration loses none. -/
theorem declaredOrder_perm {draft : Draft} {positions : List Nat}
    (hperm : (List.range draft.children.length).Perm positions)
    (hnames : draft.argNames.length = draft.children.length) :
    (draft.declaredOrder positions).1.Perm draft.children := by
  have hlen : positions.length = draft.children.length := by simpa using hperm.length_eq.symm
  have hkeys : (positions.zip (draft.children.zip draft.argNames)).map (·.1) = positions :=
    List.map_fst_zip (by simp [hlen, hnames])
  have hvalues : (positions.zip (draft.children.zip draft.argNames)).map (·.2) =
      draft.children.zip draft.argNames :=
    List.map_snd_zip (by simp [hlen, hnames])
  have hnodup : positions.Nodup := hperm.nodup_iff.mp List.nodup_range
  unfold declaredOrder
  dsimp only
  have hrange : (List.range (positions.zip (draft.children.zip draft.argNames)).length).Perm
      positions := by
    simpa [hlen, hnames] using hperm
  -- each position is looked up once, so no operand is lost or doubled
  have hlookup := filterMap_lookup_keys (hkeys.symm ▸ hnodup)
  rw [hkeys, hvalues] at hlookup
  have hordered := (hrange.filterMap
    fun p => (positions.zip (draft.children.zip draft.argNames)).lookup p).map Prod.fst
  rw [hlookup, List.map_fst_zip (by simp [hnames])] at hordered
  exact hordered

/-- A bound node has the operands of its draft. -/
theorem bag_bound {draft : Draft} {action : Action} {owner args : TypeDesc}
    (hargs : draft.operandTypes = (owner, args))
    (hnames : draft.argNames = [] ∨ draft.argNames.length = draft.children.length) :
    Node.bag [draft.bound action owner args] = Node.bag draft.children := by
  have hsame : ∀ binding, Node.bag [.apply binding draft.children] = Node.bag draft.children := by
    simp
  unfold bound
  dsimp only
  split
  · rename_i hcall
    obtain ⟨hop, hany⟩ := hcall
    -- the names were read with the arguments, one each
    have hnames : draft.argNames.length = draft.children.length := by
      refine hnames.resolve_left fun hnil => ?_
      simp [hnil] at hany
    split
    · rename_i positions hpos
      have hsize : args.size = draft.children.length := by
        simp only [operandTypes, hop, if_true, Prod.mk.injEq] at hargs
        rw [← hargs.2]
        simp [TypeDesc.size, TypeDesc.fields]
      obtain ⟨hperm, -⟩ := Signature.declaredPositions_perm hpos
      rw [hsize] at hperm
      simpa using Node.bag_perm (declaredOrder_perm hperm hnames)
    · exact hsame _
  · exact hsame _

/-- The operand that a type replaces is no tuple. -/
theorem loose_of_typeOperand? {s : Store} {scope : TupleId} {draft : Draft} {type : TypeDesc}
    (h : draft.typeOperand? s scope = some type) :
    ∃ cell, draft.children = draft.children.dropLast ++ [.literal cell] ∧ cell.Loose s.heap := by
  unfold typeOperand? at h
  split at h
  · rename_i cell hlast
    split at h
    · rename_i name hread
      refine ⟨cell, ?_, ?_⟩
      · exact (List.dropLast_append_getLast? _ hlast).symm
      · exact Cell.loose_of_read hread
    · cases h
  · cases h

/-- Coercing an operand does nothing, or puts a new type in the place of the last operand. -/
theorem coerceTypeOperand_cases (scope : TupleId) (draft : Draft) (s : ParseState) :
    draft.coerceTypeOperand scope s = .ok draft s ∨
      ∃ type, draft.typeOperand? s.store scope = some type ∧
        let made := Cell.ofNative s.store.heap .type type
        draft.coerceTypeOperand scope s =
          .ok { draft with children := draft.children.dropLast ++ [.literal made.1] }
            { s with store := { s.store with heap := made.2 } } := by
  unfold coerceTypeOperand
  split
  · simp only [Bind.bind, EStateM.bind, ParseM.store, get, getThe, MonadStateOf.get, EStateM.get,
      pure, EStateM.pure]
    cases htype : draft.typeOperand? s.store scope with
    | none => exact .inl rfl
    | some type => exact .inr ⟨type, rfl, rfl⟩
  · exact .inl rfl

/-- Coercing the operand of a type test gives up the operand for a type. -/
theorem linear_coerceTypeOperand (scope : TupleId) (draft : Draft) :
    Linear (Node.bag draft.children) (draft.coerceTypeOperand scope)
      fun d => Node.bag d.children := by
  intro s ids hs hheld
  rcases coerceTypeOperand_cases scope draft s with hrun | ⟨type, htype, hrun⟩
  · rw [hrun]
    exact .refl hs hheld
  · rw [hrun]
    obtain ⟨cell, hchildren, hloose⟩ := loose_of_typeOperand? htype
    -- the name that is replaced is a scalar and may be forgotten
    have hdropped : s.store.Holds (Node.bag draft.children.dropLast) ids := by
      rw [hchildren, Node.bag_append, add_comm] at hheld
      exact Store.Holds.drop hheld hloose
    have hbag : ∀ c, Node.bag (draft.children.dropLast ++ [.literal c]) =
        c ::ₘ Node.bag draft.children.dropLast := by
      intro c
      simp [← Multiset.singleton_add, add_comm]
    dsimp only
    rw [hbag]
    exact .newCell hs hdropped (.leaf Native.type.typeName) rfl

/-- Comparing by an ordering passes the operands on. -/
theorem linear_compared (draft : Draft) (comparison : Action × TypeDesc × Action × TypeDesc) :
    Linear (Node.bag draft.children) (draft.compared comparison) fun node => Node.bag [node] := by
  obtain ⟨compare, ordering, relation, returns⟩ := comparison
  refine .bind (.newNative _ _) fun zero => .pure _ ?_
  simp [← Multiset.singleton_add, add_comm]

/-- Binding takes over the operands of a draft. -/
theorem linear_bind (scope : TupleId) (draft : Draft) (span : Span)
    (hnames : draft.argNames = [] ∨ draft.argNames.length = draft.children.length) :
    Linear (Node.bag draft.children) (draft.bind scope span) fun node => Node.bag [node] := by
  unfold Draft.bind
  refine .bind_of (linear_coerceTypeOperand scope draft) fun d s s' hrun => ?_
  -- a type in place of a name leaves the number of operands as it is
  have hnames' : d.argNames = [] ∨ d.argNames.length = d.children.length := by
    rcases coerceTypeOperand_cases scope draft s with h | ⟨type, htype, h⟩
    · rw [h] at hrun
      cases hrun
      exact hnames
    · rw [h] at hrun
      cases hrun
      obtain ⟨cell, hchildren, -⟩ := loose_of_typeOperand? htype
      rw [hchildren] at hnames
      simpa using hnames
  dsimp only
  refine .bind .store fun st => ?_
  split
  · exact .pure _ (bag_bound rfl hnames').symm
  · exact ((Fails.complain _ _).holding _).linear.congr (by simp) fun _ => rfl
  · split
    · exact linear_compared d _
    · exact ((Fails.complain _ _).holding _).linear.congr (by simp) fun _ => rfl

end Draft

/-- A variable in an expression is a handle that owns nothing. -/
theorem Store.owned_variableCell? {s : Store} {scope : TupleId} {name : String} {cell : Cell}
    (h : s.variableCell? scope name = some cell) : cell.owned = false := by
  simp only [variableCell?, bind, Option.bind_eq_some_iff] at h
  obtain ⟨⟨owner, pos⟩, -, t, -, c, -, hcell⟩ := h
  simp only [pure, Option.some.injEq] at hcell
  rw [← hcell]
  split
  · rfl
  · rfl

/-! ## Frames -/

/-- The cells of the operands that open operators already have. -/
def Pending.bag (pending : List Pending) : Multiset Cell := Node.bag (pending.flatMap Pending.inner)

@[simp] theorem Pending.bag_nil : Pending.bag [] = 0 := rfl

@[simp] theorem Pending.bag_cons (p : Pending) (pending : List Pending) :
    Pending.bag (p :: pending) = Node.bag p.inner + Pending.bag pending := by
  simp [bag]

namespace Frame

/-- The cells of a frame. -/
def bag (f : Frame) : Multiset Cell := Node.bag f.operands + Pending.bag f.pending

@[simp] theorem bag_held (f : Frame) : Node.bag f.held = f.bag := by
  have hpending : Node.bag (f.pending.reverse.flatMap Pending.inner) = Pending.bag f.pending :=
    Node.bag_perm (f.pending.reverse_perm.flatMap_right _)
  simp [held, bag, hpending]

@[simp] theorem bag_pushOperand (f : Frame) (node : Node) :
    (f.pushOperand node).bag = f.bag + Node.bag [node] := by
  simp only [bag, pushOperand, Node.bag_cons, Node.bag_nil]
  abel

@[simp] theorem bag_await (f : Frame) (w : Waiting) :
    (f.await w).bag = f.bag + Node.bag w.inner := by
  simp only [bag, await, Pending.bag_cons, Pending.inner]
  abel

variable {scope : TupleId} {f : Frame}

/-- Completing an operator takes its operands for a node. -/
theorem linear_reduce (w : Waiting) :
    Linear (f.bag + Node.bag w.inner) (reduce scope f w)
      fun f' => Node.bag f'.operands + Pending.bag f.pending := by
  unfold reduce
  refine .bind .current fun token => ?_
  have hmissing : ∀ message, Linear (f.bag + Node.bag w.inner)
      (holding f.held (holding w.inner (complain message token.span)) : ParseM Frame)
      fun f' => Node.bag f'.operands + Pending.bag f.pending := by
    intro message
    exact (((Fails.complain _ _).holding _).holding _).linear.congr (by simp) fun _ => rfl
  -- either way the operator's operands leave the frame and its node enters it
  have hbind : ∀ (op : Operator) (children operands : List Node),
      Node.bag f.operands + Node.bag w.inner = Node.bag operands + Node.bag children →
      Linear (f.bag + Node.bag w.inner)
        (do
          let node ← holding { f with operands }.held
            ((Draft.ofOperator op children).bind scope token.span)
          return { f with operands := node :: operands } : ParseM Frame)
        fun f' => Node.bag f'.operands + Pending.bag f.pending := by
    intro op children operands hsplit
    have hnode := (Draft.linear_bind scope (.ofOperator op children) token.span
      (.inl rfl)).holding { f with operands }.held
    refine .bind (hnode.congr ?_ fun _ => rfl) fun node => .pure _ ?_
    · have hf : f.bag + Node.bag w.inner =
          Node.bag f.operands + Node.bag w.inner + Pending.bag f.pending := by
        unfold bag
        abel
      rw [hf, hsplit, bag_held]
      simp only [bag, Draft.ofOperator]
      abel
    · simp only [bag_held, bag, Node.bag_cons, Node.bag_nil]
      abel
  cases w with
  | single op =>
    refine .ite (fun _ => hmissing _) fun hlen => ?_
    refine hbind op _ _ ?_
    have htake := congrArg Node.bag (List.take_append_drop op.arity f.operands)
    rw [Node.bag_append] at htake
    simp only [Waiting.inner, Node.bag_nil, Node.bag_reverse, ← htake]
    abel
  | tail op inner =>
    dsimp only
    split
    · exact hmissing _
    · rename_i trailing operands hoperands
      refine hbind op _ _ ?_
      simp only [hoperands, Waiting.inner, Node.bag_append, Node.bag_cons, Node.bag_nil]
      abel

/-- Reducing operators of a precedence passes everything on. -/
theorem linear_reduceWhile (precedence : Nat) (f : Frame) (pending : List Pending) :
    Linear (Node.bag f.operands + Pending.bag pending) (reduceWhile scope precedence f pending)
      fun f' => f'.bag := by
  induction pending generalizing f with
  | nil => exact .pure _ rfl
  | cons p rest ih =>
    cases p with
    | opening => exact .pure _ rfl
    | waiting w =>
      unfold reduceWhile
      refine .ite (fun _ => ?_) fun _ => .pure _ rfl
      refine .bind ((linear_reduce w).congr ?_ fun _ => rfl) fun f' => ih f'
      simp only [bag, Pending.bag_cons, Pending.inner]
      abel

/-- Closing a group passes everything on. -/
theorem linear_closeGroup (f : Frame) (pending : List Pending) :
    Linear (Node.bag f.operands + Pending.bag pending) (closeGroup scope f pending)
      fun f' => f'.bag := by
  induction pending generalizing f with
  | nil => exact ((Fails.complainHere _).holding _).linear.congr (by simp [bag]) fun _ => rfl
  | cons p rest ih =>
    cases p with
    | opening => exact .pure _ (by simp [bag, Pending.inner])
    | waiting w =>
      unfold closeGroup
      refine .bind ((linear_reduce w).congr ?_ fun _ => rfl) fun f' => ih f'
      simp only [bag, Pending.bag_cons, Pending.inner]
      abel

/-- Closing all groups passes everything on. -/
theorem linear_closeAll (f : Frame) (pending : List Pending) :
    Linear (Node.bag f.operands + Pending.bag pending) (closeAll scope f pending)
      fun f' => Node.bag f'.operands := by
  induction pending generalizing f with
  | nil => exact .pure _ (by simp)
  | cons p rest ih =>
    cases p with
    | opening =>
      refine ((Fails.complainHere _).holding _).linear.congr ?_ fun _ => rfl
      simp [bag, Pending.inner]
    | waiting w =>
      unfold closeAll
      refine .bind ((linear_reduce w).congr ?_ fun _ => rfl) fun f' => ih f'
      simp only [bag, Pending.bag_cons, Pending.inner]
      abel

/-- A frame that has come to its end hands on its expression. -/
theorem linear_finish (f : Frame) : Linear f.bag (finish scope f) fun node => Node.bag [node] := by
  unfold finish
  refine .ite (fun _ => ?_) fun _ => ?_
  · exact ((Fails.complainHere _).holding _).linear.congr (by simp) fun _ => rfl
  · refine .bind (linear_closeAll f f.pending) fun f' => ?_
    split
    · rename_i root rest hoperands
      -- the root stays, and whatever else was read is given up
      have hbag : Node.bag f'.operands = Node.bag rest.reverse + Node.bag [root] := by
        simp [hoperands, add_comm]
      rw [hbag]
      exact .bind (.releaseAll _) fun _ => .pure _ rfl
    · rename_i hoperands
      exact (Fails.complainHere _).linear.congr (by simp [hoperands]) fun _ => rfl

/-! ## Operators of several tokens -/

/-- Choosing the operator of a sequence passes the operands on. -/
theorem linear_chooseSequence (opener : Token) (candidates : List Operator)
    (operands : List Node) :
    Linear (Node.bag operands) (chooseSequence opener candidates operands)
      fun r => Node.bag r.2 := by
  unfold chooseSequence
  split
  · exact .pure _ rfl
  · exact ((Fails.complain _ _).holding _).linear.congr (by simp) fun _ => rfl

section Inner

variable {inner : List String → ParseM Node}
  (hinner : ∀ terminators, Linear 0 (inner terminators) fun node => Node.bag [node])

include hinner

/-- Resolving an operator keeps its operands; one read in vain is given up. -/
theorem linear_resolveFrom (terminators : List String) (opener : Token) (steps step : Nat)
    (candidates : List Operator) (operands : List Node) :
    Linear (Node.bag operands)
      (resolveFrom inner terminators opener steps step candidates operands)
      fun r => Node.bag r.2 := by
  induction steps generalizing step candidates operands with
  | zero => exact ((Fails.throw _).holding _).linear.congr (by simp) fun _ => rfl
  | succ steps ih =>
    unfold resolveFrom
    dsimp only
    refine .ite (fun _ => linear_chooseSequence _ _ _) fun _ => .bind .current fun next => ?_
    split
    · exact .bind (.advance 1) fun _ => ih _ _ _
    · refine .ite (fun _ => linear_chooseSequence _ _ _) fun _ => .bind .position fun start => ?_
      refine .bind (((hinner _).holding operands).congr (by simp) fun _ => rfl) fun operand => ?_
      refine .bind .current fun after => .ite (fun _ => ?_) fun _ => .ite (fun _ => ?_) fun _ => ?_
      · exact .bind (.advance 1) fun _ => (ih _ _ _).congr (by simp) fun _ => rfl
      · rw [add_comm, Node.bag_cons, Node.bag_nil, add_zero]
        refine .bind (.releaseAll _) fun _ => ?_
        exact .bind (.seek start) fun _ => linear_chooseSequence _ _ _
      · refine ((Fails.complain _ _).holding _).linear.congr ?_ fun _ => rfl
        simp [add_comm]

omit hinner in
theorem linear_leftOperand (f : Frame) (candidates : List Operator) (token : Token) :
    Linear f.bag (leftOperand scope f candidates token) fun r => r.1.bag + Node.bag r.2 := by
  unfold leftOperand
  refine .ite (fun _ => ?_) fun _ => .pure _ (by simp)
  refine .bind (linear_reduceWhile _ f f.pending) fun f' => ?_
  split
  · rename_i left operands hoperands
    refine .pure _ ?_
    simp only [bag, hoperands, Node.bag_cons, Node.bag_nil]
    abel
  · exact ((Fails.complain _ _).holding _).linear.congr (by simp) fun _ => rfl

/-- Resolving a sequence passes everything on, and gives up the operand of a trial. -/
theorem linear_resolveSequence (f : Frame) (candidates : List Operator) (token : Token) :
    Linear f.bag (resolveSequence scope inner f candidates token) fun f' => f'.bag := by
  unfold resolveSequence
  refine .bind (linear_leftOperand f candidates token) fun r => ?_
  obtain ⟨f', operands⟩ := r
  refine .bind (.advance 1) fun _ => ?_
  have hresolve := (linear_resolveFrom hinner f'.terminators token 4 1 candidates
    operands).holding f'.held
  refine .bind (hresolve.congr (by simp) fun _ => rfl) fun r => .pure _ ?_
  simp [Waiting.inner]

/-- Taking in an operator keeps the nodes of the frame. -/
theorem linear_operator (f : Frame) (token : Token) :
    Linear f.bag (operator scope inner f token) fun f' => f'.bag := by
  unfold operator
  dsimp only
  refine .ite (fun _ => linear_resolveSequence hinner _ _ _) fun _ => ?_
  split
  · exact ((Fails.complain _ _).holding _).linear.congr (by simp) fun _ => rfl
  · rename_i op _
    refine .bind (.advance 1) fun _ => ?_
    split
    · have hbind := (Draft.linear_bind scope (.ofOperator op []) token.span
        (.inl rfl)).holding f.held
      refine .bind (hbind.congr (by simp [Draft.ofOperator]) fun _ => rfl) fun node => .pure _ ?_
      simp
    · exact .pure _ (by simp [Waiting.inner])
    · refine .bind (linear_reduceWhile _ f f.pending) fun f' => .pure _ ?_
      simp [Waiting.inner]

/-! ## Operands -/

/-- Reading arguments adds to those that were read before. -/
theorem linear_callArgs (callee : Token) (rounds : Nat) (args : List Node)
    (names : List (Option String)) :
    Linear (Node.bag args) (callArgs inner callee rounds args names) fun r => Node.bag r.1 := by
  induction rounds generalizing args names with
  | zero => exact ((Fails.throw _).holding _).linear.congr (by simp) fun _ => rfl
  | succ rounds ih =>
    unfold callArgs
    refine .bind TypeReader.linear_name fun name => ?_
    refine .bind (((hinner []).holding args).congr (by simp) fun _ => rfl) fun arg => ?_
    rw [← Node.bag_append]
    refine .bind .current fun token => ?_
    split
    · exact .bind (.advance 1) fun _ => ih _ _
    · exact .bind (.advance 1) fun _ => .pure _ rfl
    · exact ((Fails.complainHere _).holding _).linear.congr (by simp) fun _ => rfl

omit hinner in

/-- Every argument of a call has its place among the names. -/
theorem ensures_callArgs (callee : Token) (rounds : Nat) {args : List Node}
    {names : List (Option String)} (hlen : names.length = args.length) :
    Ensures (callArgs inner callee rounds args names) fun r => r.2.length = r.1.length := by
  induction rounds generalizing args names with
  | zero => exact .of_fails fun s => ⟨_, _, rfl⟩
  | succ rounds ih =>
    unfold callArgs
    refine .bind fun name => .bind fun arg => .bind fun token => ?_
    split
    · exact .bind fun _ => ih (by simp [hlen])
    · refine .bind fun _ s r s' h => ?_
      cases h
      simp [hlen]
    · exact .of_fails fun s => ⟨_, _, rfl⟩

/-- A call hands on its arguments in its node. -/
theorem linear_call (callee : Token) :
    Linear 0 (call scope inner callee) fun node => Node.bag [node] := by
  have hbind := fun (args : List Node) (names : List (Option String)) =>
    Draft.linear_bind scope ⟨.call, callee.text, args, names⟩ callee.span
  unfold call
  refine .bind (.advance 2) fun _ => .bind .current fun token => .ite (fun _ => ?_) fun _ => ?_
  · refine .bind (.advance 1) fun _ => ?_
    exact hbind [] [] (.inl rfl)
  · refine .bind .rounds fun rounds => ?_
    refine .bind_of (linear_callArgs hinner callee rounds [] []) fun r s s' hrun => ?_
    exact hbind r.1 r.2 (.inr (ensures_callArgs callee rounds rfl s r s' hrun))

end Inner

/-- Reading an identifier adds a node. -/
theorem linear_identifier (scope : TupleId) (token : Token) :
    Linear pre (identifier scope token) fun node => pre + Node.bag [node] := by
  unfold identifier
  refine .bind .store fun st => ?_
  split
  · rename_i cell hcell
    refine .pure_borrowed _ (Store.owned_variableCell? hcell) ?_
    simp [Node.cells, ← Multiset.singleton_add, add_comm]
  · refine .bind (.newNative _ _) fun cell => .pure _ ?_
    simp [← Multiset.singleton_add, add_comm]

/-- Reading an operand brings a node. -/
theorem linear_operand (levels : Nat) (token : Token) :
    Linear 0 (operand scope levels token) fun node => Node.bag [node] := by
  unfold operand
  split
  · exact (Fails.complain _ _).linear
  · exact (Fails.complain _ _).linear
  · exact .bind (ValueReader.linear_read scope levels) fun cell => .pure _ (by simp)
  · exact .bind (ValueReader.linear_read scope levels) fun cell => .pure _ (by simp)
  · refine .ite (fun _ => ?_) fun _ => (Fails.complain _ _).linear
    refine .bind (.advance 1) fun _ => .bind (ValueReader.linear_scalar token false) fun cell => ?_
    exact .pure _ (by simp)

/-! ## Whole frames -/

section Inner

variable {inner : List String → ParseM Node}
  (hinner : ∀ terminators, Linear 0 (inner terminators) fun node => Node.bag [node])

include hinner

/-- Taking in a token keeps the nodes of the frame. -/
theorem linear_step (levels : Nat) (f : Frame) (token : Token) :
    Linear f.bag (step scope levels inner f token) fun f' => f'.bag := by
  -- a complaint gives up what the frame holds
  have hcomplain : ∀ message, Linear f.bag
      (holding f.held (complain message token.span) : ParseM Frame) fun f' => f'.bag := by
    intro message
    exact ((Fails.complain _ _).holding _).linear.congr (by simp) fun _ => rfl
  -- an operand that was read is held with the others
  have hpush : ∀ {m : ParseM Node}, Linear 0 m (fun node => Node.bag [node]) →
      Linear f.bag (do return f.pushOperand (← holding f.held m)) fun f' => f'.bag := by
    intro m hm
    refine .bind ((hm.holding f.held).congr (by simp) fun _ => rfl) fun node => .pure _ ?_
    simp
  unfold step
  split
  · exact hcomplain _
  · refine .ite (fun _ => hcomplain _) fun _ => ?_
    refine .bind (linear_closeGroup f f.pending) fun f' => ?_
    exact .bind (.advance 1) fun _ => .pure _ rfl
  · refine .ite (fun _ => hcomplain _) fun _ => ?_
    exact .bind (.advance 1) fun _ => .pure _ (by simp [bag, Pending.inner])
  · exact linear_operator hinner f token
  · exact linear_operator hinner f token
  · exact hcomplain _
  · refine .ite (fun _ => hcomplain _) fun _ => .ite (fun _ => ?_) fun _ => ?_
    · refine .bind (.peek 1) fun next =>
        .ite (fun _ => hpush (linear_call hinner token)) fun _ => ?_
      refine .bind (.advance 1) fun _ => .bind (linear_identifier scope token) fun node => ?_
      exact .pure _ (by simp)
    · exact hpush (linear_operand levels token)

/-- A frame hands on one expression. -/
theorem linear_run (levels rounds : Nat) (f : Frame) :
    Linear f.bag (run scope levels inner rounds f) fun node => Node.bag [node] := by
  induction rounds generalizing f with
  | zero => exact ((Fails.throw _).holding _).linear.congr (by simp) fun _ => rfl
  | succ rounds ih =>
    unfold run
    refine .bind .current fun token => .ite (fun _ => linear_finish f) fun _ => ?_
    exact .bind (linear_step hinner levels f token) fun f' => ih f'

end Inner

end Frame

/-- Parsing a frame brings a node, or nothing where it fails. -/
theorem linear_parseFrame (scope : TupleId) (levels : Nat) (terminators : List String) :
    Linear 0 (parseFrame scope levels terminators) fun node => Node.bag [node] := by
  induction levels generalizing terminators with
  | zero => exact .onFailure_cursor _ (Fails.tooDeep _).linear
  | succ levels ih =>
    unfold parseFrame
    refine .onFailure_cursor _ (.bind .rounds fun rounds => ?_)
    exact (Frame.linear_run ih levels rounds { terminators }).congr
      (by simp [Frame.bag]) fun _ => rfl

/-- Parsing a statement brings a node, or nothing where it fails. -/
theorem linear_parseStatement (scope : TupleId) :
    Linear 0 (parseStatement scope) fun node => Node.bag [node] := by
  unfold parseStatement
  refine .bind .store fun st => .bind (linear_parseFrame scope _ []) fun node => ?_
  refine .bind .current fun token => .ite (fun _ => .pure _ rfl) fun _ => ?_
  refine .onFailure_cursor _ (((Fails.complain _ _).holding _).linear.congr ?_ fun _ => rfl)
  simp

/-! ## Statements -/

/-- The statements parsed so far are held, and nothing of those that failed. -/
theorem reaches_parseStatements (scope : TupleId) (rounds : Nat) {s : ParseState}
    (hs : s.store.Sound) :
    s.store.Reaches [] (parseStatements scope rounds s).store
      (Node.bag (parseStatements scope rounds s).result) := by
  induction rounds generalizing s with
  | zero => exact .refl hs (.zero _)
  | succ rounds ih =>
    unfold parseStatements
    split
    · exact .refl hs (.zero _)
    · split
      · exact ih hs
      · have hstatement := linear_parseStatement scope s [] hs (.zero _)
        cases hrun : parseStatement scope s with
        | ok node s' =>
          rw [hrun] at hstatement
          refine hstatement.andThen fun ids hs' hheld => ?_
          -- the rest is parsed around what the statement has made
          have hrest := (ih hs').frame hheld (.refl ids) hheld.nodup
          rw [add_comm, ← Node.bag_append] at hrest
          exact hrest
        | error e s' =>
          rw [hrun] at hstatement
          exact hstatement.andThen fun ids hs' hheld => by
            have hrest := (ih hs').frame hheld (.refl ids) hheld.nodup
            rwa [add_zero] at hrest

/-- Cells held where nothing was held before leave no trace once they are given up. -/
theorem Store.Reaches.release_unchanged {s s' : Store} {l : List Cell}
    (h : s.Reaches [] s' (l : Multiset Cell)) :
    s.Extends s' ∧ s.Unchanged (s'.releaseAll l) := by
  obtain ⟨ids, hheld, htrade⟩ := h
  exact ⟨htrade.extends, (htrade.trans (hheld.releaseAll htrade.sound rfl)).unchanged⟩

/-- Parsing touches no tuple that was there before. When it fails there are the same tuples as
before, and so there are once an expression or a value that it has given is given up. -/
theorem parse_leaves_no_trace {s : Store} (hs : s.Sound) (scope : TupleId) (cursor : Cursor) :
    (let parsed := Expression.parse s scope cursor
     match parsed.result with
      | .error _ => s.Unchanged parsed.store
      | .ok e => s.Extends parsed.store ∧ s.Unchanged (e.release parsed.store)) ∧
    (let parsed := parseValue s scope cursor
     match parsed.result with
      | none => s.Unchanged parsed.store
      | some cell => s.Extends parsed.store ∧ s.Unchanged (parsed.store.release cell)) := by
  constructor
  · intro parsed
    have hreach := reaches_parseStatements scope (cursor.remaining + 1) (s := ⟨s, cursor⟩) hs
    simp only [parsed, Expression.parse_eq, Expression.parseDirectly]
    cases s.tuple scope with
    | error e => exact (Store.Trade.refl hs []).unchanged
    | ok t =>
      dsimp only
      by_cases hgood :
          (parseStatements scope (cursor.remaining + 1) ⟨s, cursor⟩).diagnostics.isEmpty = true
      · rw [if_pos hgood]
        exact hreach.release_unchanged
      · rw [if_neg hgood]
        exact hreach.release_unchanged.2
  · intro parsed
    have hread := ValueReader.linear_read scope s.settings.maxDepth ⟨s, cursor⟩ [] hs (.zero _)
    simp only [parsed, parseValue_eq]
    cases hrun : ValueReader.read scope s.settings.maxDepth ⟨s, cursor⟩ with
    | ok cell s' =>
      rw [hrun] at hread
      exact hread.release_unchanged (l := [cell])
    | error e s' =>
      rw [hrun] at hread
      exact hread.release_unchanged (l := []).2

/-- A tuple literal whose last parenthesis is missing: the tuple inside has been built by the time
the end of input is found. -/
theorem parse_leaves_no_trace_unclosed :
    let s := Store.bare {}
    let cursor := Cursor.ofTokens
      [⟨.plainOpen, "P(", {}⟩, ⟨.lparen, "(", {}⟩, ⟨.trueWord, "true", {}⟩, ⟨.rparen, ")", {}⟩]
    s.Sound ∧ (parseValue s s.root cursor).result = none ∧
      s.Unchanged (parseValue s s.root cursor).store := by
  intro s cursor
  exact ⟨Store.sound_bare {}, rfl, (parse_leaves_no_trace (Store.sound_bare {}) s.root cursor).2⟩

end TupleLang
