import TupleLang.Proofs.Balance
import TupleLang.Proofs.ExprMeaning
import TupleLang.Proofs.LinearParser
import TupleLang.Proofs.Onward

/-!
# The parser follows the grammar

What the parser of expressions does with a cursor and a store is what the grammar says about the
lexemes ahead. It fails exactly where the grammar gives nothing. Otherwise it ends in front of the
lexemes that the grammar leaves, and its node stands for the tree (`parses_parseFrame`).

A frame of the parser *shows* a frame of the grammar when its operands and those of its open
operators stand for the trees there. One function after the other keeps this up. The operand that is
read in vain behind `then` leaves nothing in the store, and the cursor is put back.
-/

namespace TupleLang

open ParseM

/-! ## Frames and their trees -/

/-- What is open in a frame stands for what is open in the frame of trees. -/
inductive Pending.Means (s : Store) : Pending → TreePending → Prop
  | opening : Means s .opening .opening
  | single {op : Operator} : Means s (.waiting (.single op)) (.waiting (.single op))
  | tail {op : Operator} {inner : List Node} {trees : List Tree} :
      s.Means inner trees → Means s (.waiting (.tail op inner)) (.waiting (.tail op trees))

/-- The frame, which ends at the words `ts`, stands for the frame of trees. -/
structure Frame.Shows (s : Store) (ts : List String) (f : Frame) (g : TreeFrame) : Prop where
  operands : s.Means f.operands g.operands
  pending : List.Forall₂ (Pending.Means s) f.pending g.pending
  last : f.lastOperand = g.lastOperand
  terminators : f.terminators = ts

namespace Frame

variable {base s s' : Store} {φ : Store.Proviso} {scope : TupleId} {Γ : Env} {ts : List String}
  {f : Frame}
  {g : TreeFrame}

/-- A frame shows the same in a store that has been enlarged. -/
theorem Shows.mono (h : f.Shows s ts g) (hs : s.Enlarges s') : f.Shows s' ts g := by
  refine ⟨h.operands.mono hs, h.pending.imp fun p q hpq => ?_, h.last, h.terminators⟩
  cases hpq with
  | opening => exact .opening
  | single => exact .single
  | tail hinner => exact .tail (hinner.mono hs)

/-- An operand on both sides. -/
theorem Shows.push (h : f.Shows s ts g) {node : Node} {tree : Tree}
    (hnode : s.Means [node] [tree]) :
    (f.pushOperand node).Shows s ts (g.push tree) :=
  ⟨Store.Means.cons_iff.mpr ⟨hnode, h.operands⟩, h.pending, rfl, h.terminators⟩

/-- An operator to wait for on both sides. -/
theorem Shows.await (h : f.Shows s ts g) {w : Waiting} {v : TreeWaiting}
    (hw : Pending.Means s (.waiting w) (.waiting v)) : (f.await w).Shows s ts (g.await v) :=
  ⟨h.operands, .cons hw h.pending, rfl, h.terminators⟩

/-- Groups are open on both sides. -/
theorem Shows.hasOpen_eq (h : f.Shows s ts g) : f.hasOpen = g.hasOpen := by
  have hpending := h.pending
  rw [hasOpen, TreeFrame.hasOpen]
  generalize f.pending = pending at hpending
  generalize g.pending = treePending at hpending
  induction hpending with
  | nil => rfl
  | cons hp _ ih =>
    rw [List.any_cons, List.any_cons, ih]
    cases hp <;> rfl

/-- A frame ends where the frame of trees does. -/
theorem Shows.endsAt_eq (h : f.Shows s ts g) {c : Cursor} (hc : c.Regular) :
    f.endsAt c.current = g.endsAt ts (Grammar.ahead c.lexemes 0) := by
  have hwords : f.isTerminator c.current = ts.any (Grammar.ahead c.lexemes 0).isWord := by
    rw [isTerminator, h.terminators]
    exact congrArg ts.any (funext hc.isWord_current)
  rw [endsAt, TreeFrame.endsAt, h.hasOpen_eq, hwords, hc.kind_current]

/-! ## Completing operators -/

section Completing

variable (hsees : base.Sees φ scope Γ) {s : ParseState} (hs : base.Enlarges s.store)
  (hcursor : s.cursor.Regular)

include hsees hs hcursor

/-- Completing an operator puts the node of its tree in the place of its operands. -/
theorem follows_reduce {w : Waiting} {rest : List Pending} {v : TreeWaiting} {operands : List Tree}
    {treeRest : List TreePending} {last : Bool}
    (h : Shows s.store ts { f with pending := .waiting w :: rest }
      ⟨operands, .waiting v :: treeRest, last⟩) :
    FollowsWhile φ (fun f' operands' t => s.store.Enlarges t ∧
        Shows t ts { f' with pending := rest } ⟨operands', treeRest, last⟩)
      (reduce scope { f with pending := rest } w) s
      ((Γ.reduce operands v).map (·, s.cursor.lexemes)) := by
  obtain ⟨hoperands, hpending, hlast, hterminators⟩ := h
  dsimp only at hoperands hlast hterminators
  obtain ⟨hw, hrest⟩ := List.forall₂_cons.mp hpending
  -- either way the operator is bound, and its node stands in front of the operands that are left
  have hbind : ∀ {op : Operator} {children others : List Node} {trees left : List Tree}
    (span : Span),
      s.store.Means children trees → s.store.Means others left →
      FollowsWhile φ (fun f' operands' t => s.store.Enlarges t ∧
          Shows t ts { f' with pending := rest } ⟨operands', treeRest, last⟩)
        (do
          let node ← holding { f with operands := others, pending := rest }.held
            ((Draft.ofOperator op children).bind scope span)
          return { f with operands := node :: others, pending := rest } : ParseM Frame) s
        (((Γ.bind op op.actionName trees []).map (· :: left)).map (·, s.cursor.lexemes)) := by
    intro op children others trees left span hchildren hothers
    have hbinds : Parses φ ((Draft.ofOperator op children).bind scope span) s
        ((Γ.bind op op.actionName trees []).map (·, s.cursor.lexemes)) :=
      Draft.binds hsees hs hcursor hchildren span fun _ => rfl
    rw [Option.map_map]
    refine (hbinds.holding _).andReturn_still (g := (· :: left))
      fun node tree t ⟨ht, hnode⟩ => ⟨ht, ?_⟩
    have hshows : Shows s.store ts { f with operands := others, pending := rest }
        ⟨left, treeRest, last⟩ := ⟨hothers, hrest, hlast, hterminators⟩
    have hmono := hshows.mono ht
    exact ⟨Store.Means.cons_iff.mpr ⟨hnode, hmono.operands⟩, hmono.pending, hlast, hterminators⟩
  unfold reduce Env.reduce
  refine .current_bind ?_
  cases hw with
  | @single op =>
    dsimp only
    rw [hoperands.length_eq]
    split
    · exact ((FollowsWhile.complain _ _).holding _).holding _
    · exact hbind _ (hoperands.take _).reverse (hoperands.drop _)
  | @tail op inner trees hinner =>
    dsimp only
    generalize f.operands = nodes at hoperands
    cases nodes with
    | nil =>
      cases hoperands
      exact ((FollowsWhile.complain _ _).holding _).holding _
    | cons trailing others =>
      cases operands with
      | nil => cases hoperands
      | cons y left =>
        obtain ⟨hy, hleft⟩ := Store.Means.cons_iff.mp hoperands
        exact hbind _ (hinner.append hy) hleft

end Completing

/-- Whatever is open is a parenthesis on both sides, or an operator on both sides. -/
theorem Shows.pending_cases {p : Pending} {rest : List Pending} {operands : List Tree}
    {treePending : List TreePending} {last : Bool}
    (h : Shows s ts { f with pending := p :: rest } ⟨operands, treePending, last⟩) :
    ∃ treeRest, p = .opening ∧ treePending = .opening :: treeRest ∨
      ∃ w v, p = .waiting w ∧ treePending = .waiting v :: treeRest ∧ w.op = v.op := by
  obtain ⟨-, hpending, -, -⟩ := h
  dsimp only at hpending
  cases hpending with
  | @cons _ q _ treeRest hp hrest =>
    cases hp with
    | opening => exact ⟨treeRest, .inl ⟨rfl, rfl⟩⟩
    | single => exact ⟨treeRest, .inr ⟨_, _, rfl, rfl, rfl⟩⟩
    | tail => exact ⟨treeRest, .inr ⟨_, _, rfl, rfl, rfl⟩⟩

section Completing

variable (hsees : base.Sees φ scope Γ)

include hsees

/-- Reducing operators of a precedence follows the grammar. -/
theorem follows_reduceWhile (precedence : Nat) {f : Frame} {pending : List Pending}
    {operands : List Tree} {treePending : List TreePending} {last : Bool} {s : ParseState}
    (hs : base.Enlarges s.store) (hcursor : s.cursor.Regular)
    (h : Shows s.store ts { f with pending } ⟨operands, treePending, last⟩) :
    FollowsWhile φ (fun f' r t => s.store.Enlarges t ∧ f'.Shows t ts ⟨r.1, r.2, last⟩)
      (reduceWhile scope precedence f pending) s
      ((Γ.reduceWhile precedence operands treePending).map (·, s.cursor.lexemes)) := by
  induction pending generalizing f operands treePending s with
  | nil =>
    obtain rfl : treePending = [] := List.forall₂_nil_left_iff.mp h.pending
    exact .pure hcursor ⟨.refl hs.sound, h⟩
  | cons p rest ih =>
    obtain ⟨treeRest, ⟨rfl, rfl⟩ | ⟨w, v, rfl, rfl, hop⟩⟩ := h.pending_cases
    · exact .pure hcursor ⟨.refl hs.sound, h⟩
    · rw [reduceWhile, Env.reduceWhile, hop]
      split
      · refine (follows_reduce hsees hs hcursor h).bind_still (fun f' => ages_reduceWhile _ _ _)
          fun f' operands' s' hs' ⟨ht, hf'⟩ => ?_
        exact (ih (hs.trans ht) hs' hf').imp fun _ _ t hQ => ⟨ht.trans hQ.1, hQ.2⟩
      · exact .pure hcursor ⟨.refl hs.sound, h⟩

/-- Closing a group follows the grammar. -/
theorem follows_closeGroup {f : Frame} {pending : List Pending}
    {operands : List Tree} {treePending : List TreePending} {last : Bool} {s : ParseState}
    (hs : base.Enlarges s.store) (hcursor : s.cursor.Regular)
    (h : Shows s.store ts { f with pending } ⟨operands, treePending, last⟩) :
    FollowsWhile φ (fun f' r t => s.store.Enlarges t ∧ f'.Shows t ts ⟨r.1, r.2, last⟩)
      (closeGroup scope f pending) s
      ((Γ.closeGroup operands treePending).map (·, s.cursor.lexemes)) := by
  induction pending generalizing f operands treePending s with
  | nil =>
    obtain rfl : treePending = [] := List.forall₂_nil_left_iff.mp h.pending
    exact (FollowsWhile.complainHere _).holding _
  | cons p rest ih =>
    obtain ⟨treeRest, ⟨rfl, rfl⟩ | ⟨w, v, rfl, rfl, hop⟩⟩ := h.pending_cases
    · exact .pure hcursor
        ⟨.refl hs.sound, h.operands, (List.forall₂_cons.mp h.pending).2, h.last, h.terminators⟩
    · rw [closeGroup, Env.closeGroup]
      refine (follows_reduce hsees hs hcursor h).bind_still (fun f' => ages_closeGroup _ _)
        fun f' operands' s' hs' ⟨ht, hf'⟩ => ?_
      exact (ih (hs.trans ht) hs' hf').imp fun _ _ t hQ => ⟨ht.trans hQ.1, hQ.2⟩

/-- Closing all groups follows the grammar. -/
theorem follows_closeAll {f : Frame} {pending : List Pending}
    {operands : List Tree} {treePending : List TreePending} {last : Bool} {s : ParseState}
    (hs : base.Enlarges s.store) (hcursor : s.cursor.Regular)
    (h : Shows s.store ts { f with pending } ⟨operands, treePending, last⟩) :
    FollowsWhile φ (fun f' trees t => s.store.Enlarges t ∧ t.Means f'.operands trees)
      (closeAll scope f pending) s
      ((Γ.closeAll operands treePending).map (·, s.cursor.lexemes)) := by
  induction pending generalizing f operands treePending s with
  | nil =>
    obtain rfl : treePending = [] := List.forall₂_nil_left_iff.mp h.pending
    exact .pure hcursor ⟨.refl hs.sound, h.operands⟩
  | cons p rest ih =>
    obtain ⟨treeRest, ⟨rfl, rfl⟩ | ⟨w, v, rfl, rfl, hop⟩⟩ := h.pending_cases
    · exact (FollowsWhile.complainHere _).holding _
    · rw [closeAll, Env.closeAll]
      refine (follows_reduce hsees hs hcursor h).bind_still (fun f' => ages_closeAll _ _)
        fun f' operands' s' hs' ⟨ht, hf'⟩ => ?_
      exact (ih (hs.trans ht) hs' hf').imp fun _ _ t hQ => ⟨ht.trans hQ.1, hQ.2⟩

/-- A frame that has come to its end gives the node of its tree. -/
theorem parses_finish {s : ParseState} (hs : base.Enlarges s.store) (hcursor : s.cursor.Regular)
    (h : f.Shows s.store ts g) (hbalanced : f.Balanced) :
    Parses φ (finish scope f) s ((Γ.finish g).map (·, s.cursor.lexemes)) := by
  unfold finish Env.finish
  rw [← h.last]
  cases hlast : f.lastOperand with
  | false => exact (FollowsWhile.complainHere _).holding _
  | true =>
    have hclose := follows_closeAll hsees hs hcursor (f := f) h
    refine (hclose.finds (finds_closeAll f f.pending hbalanced hlast)).bind_still
      (fun f' => ages_root f'.operands) ?_
    rintro f' trees s' hs' ⟨⟨ht, hmeans⟩, -, root, hroot⟩
    rw [hroot] at hmeans ⊢
    -- the only operand is the root, so there is nothing to give up
    cases trees with
    | nil => cases hmeans
    | cons tree rest =>
      obtain ⟨hroot, hrest⟩ := Store.Means.cons_iff.mp hmeans
      cases hrest
      exact .pure hs' ⟨ht, hroot⟩

end Completing

end Frame

/-! ## Frames one level deeper -/

/-- The frames with `levels` levels of nesting follow the grammar. -/
def FramesParse (base : Store) (φ : Store.Proviso) (scope : TupleId) (Γ : Env)
    (levels : Nat) : Prop :=
  ∀ ts s, base.Enlarges s.store → s.cursor.Regular →
    Parses φ (parseFrame scope levels ts) s (Grammar.frame Γ levels ts s.cursor.lexemes)

/-- A frame stays in the same tokens, and leaves nothing in the store once its node is given up. -/
theorem parseFrame_returns {scope : TupleId} {levels : Nat} {ts : List String} {s s' : ParseState}
    {node : Node} (hs : s.store.Sound) (hcursor : s.cursor.Regular)
    (hrun : parseFrame scope levels ts s = .ok node s') :
    s'.cursor.tokens = s.cursor.tokens ∧ s.store.Enlarges (s'.store.releaseNode node) := by
  have hproper : s.cursor.Proper := ⟨hcursor.inRange, congrArg Lexeme.kind hcursor.eof⟩
  have hpasses := passes_parseFrame scope levels ts s hproper
  have hreaches := linear_parseFrame scope levels ts s [] hs (.zero _)
  unfold ParseM.Reaches at hpasses
  rw [hrun] at hpasses hreaches
  obtain ⟨ids, -, htrade⟩ := @Store.Reaches.releaseAll _ _ 0 _ node.cells hreaches
  have hages := (ages_parseFrame scope levels ts).after s
  rw [after_of_ok hrun] at hages
  exact ⟨hpasses.tokens, ⟨ids, htrade⟩, hages.trans (.releaseAll _ _)⟩

/-- Going back to an earlier place puts the same lexemes ahead. -/
theorem Cursor.Regular.seek {c c' : Cursor} (hc : c.Regular) (hc' : c'.Regular)
    (htokens : c'.tokens = c.tokens) :
    (c'.seek c.pos).Regular ∧ (c'.seek c.pos).lexemes = c.lexemes := by
  have hpos : min c.pos c'.tokens.size = c.pos := Nat.min_eq_left (htokens ▸ hc.inRange)
  refine ⟨⟨Nat.min_le_right _ _, hc'.eof⟩, ?_⟩
  rw [Cursor.lexemes, Cursor.lexemes, pos_seek, tokens_seek, hpos, htokens]

namespace Frame

variable {base : Store} {φ : Store.Proviso} {scope : TupleId} {Γ : Env}
  {ts : List String} {f : Frame}
  {g : TreeFrame}
  {levels : Nat}

/-! ## Operators of several tokens -/

/-- Where the only candidate has come to its end, it is chosen. -/
theorem resolveFrom_single {inner : List String → ParseM Node} {opener : Token} {steps step : Nat}
    {op : Operator} {operands : List Node} (hended : op.sequence.length ≤ step) :
    resolveFrom inner ts opener (steps + 1) step [op] operands = pure (op, operands) := by
  have hpartition : [op].partition (fun op => op.sequence.length ≤ step) = ([op], []) := by
    simp [List.partition_eq_filter_filter, hended]
  unfold resolveFrom
  rw [hpartition]
  rfl

/-- Where all candidates that are left go on with an operand and the same word, both are read. -/
theorem resolveFrom_operand {inner : List String → ParseM Node} {opener : Token} {steps step : Nat}
    {candidates ended alive : List Operator} {operands : List Node} {w : String}
    (hpartition : candidates.partition (fun op => op.sequence.length ≤ step) = (ended, alive))
    (halive : alive ≠ []) (hword : ∀ op ∈ alive, subToken? step op = some ⟨w, false⟩) :
    ∃ message, resolveFrom inner ts opener (steps + 1) step candidates operands = (do
      let start ← position
      let operand ← holding operands (inner (alive.map (fun _ => w) ++ ts))
      let after ← current
      if after.isWord w then
        advance 1
        resolveFrom inner ts opener steps (step + 1) alive (operands ++ [operand])
      else if !ended.isEmpty then
        changeStore (·.releaseNode operand)
        seek start
        chooseSequence opener ended operands
      else holding (operand :: operands) (complain message after.span)) := by
  have hempty : alive.isEmpty = false := by simpa using halive
  have hexpects : ∀ op ∈ alive, expectsOperand step op = true := by
    intro op hop
    simp [expectsOperand, hword op hop]
  have hfind : ∀ next, alive.find? (fun op => goesOnWith step next op && !expectsOperand step op) =
      none := by
    intro next
    refine List.find?_eq_none.mpr fun op hop => ?_
    simp [hexpects op hop]
  have hfilter : alive.filter (expectsOperand step) = alive := List.filter_eq_self.mpr hexpects
  have hexpected : (alive.filterMap (subToken? step)).map (·.text) = alive.map fun _ => w := by
    rw [List.map_filterMap]
    refine List.filterMap_eq_map_iff_forall_eq_some.mpr fun op hop => ?_
    rw [hword op hop]
    rfl
  have hsurvivors : ∀ after, alive.filter (goesOnWith step after) =
      if after.isWord w then alive else [] := by
    intro after
    have hgoes : ∀ op ∈ alive, goesOnWith step after op = after.isWord w := by
      intro op hop
      simp [goesOnWith, hword op hop]
    split
    · rename_i hafter
      exact List.filter_eq_self.mpr fun op hop => by rw [hgoes op hop, hafter]
    · rename_i hafter
      exact List.filter_eq_nil_iff.mpr fun op hop => by rwa [hgoes op hop]
  apply Exists.intro
  rw [resolveFrom, hpartition]
  dsimp only
  simp only [hempty, hfind, hfilter, hexpected, hsurvivors]
  -- the token ahead decides nothing, since an operand is expected
  have hlook : ∀ m : ParseM (Operator × List Node), (current >>= fun _ => m) = m := fun _ => rfl
  rw [if_neg Bool.false_ne_true, hlook, if_neg Bool.false_ne_true]
  refine bind_congr fun start => bind_congr fun operand => bind_congr fun after => ?_
  cases after.isWord w with
  | true => rw [if_pos rfl, if_pos rfl, hempty]; rfl
  | false => rw [if_neg Bool.false_ne_true, if_neg Bool.false_ne_true]; rfl

section Resolving

variable (hinner : FramesParse base φ scope Γ levels) {s : ParseState} (hs : base.Enlarges s.store)
  (hcursor : s.cursor.Regular) (opener : Token)

include hinner hs hcursor

/-- Reading the parts of a conditional follows the grammar. -/
theorem follows_conditional :
    FollowsWhile φ (fun r q t => s.store.Enlarges t ∧ r.1 = q.1 ∧ t.Means r.2 q.2)
      (resolveFrom (parseFrame scope levels) ts opener 4 1 [.ifThen, .ifThenElse] []) s
      (Grammar.conditional (Grammar.frame Γ levels) ts s.cursor.lexemes) := by
  -- the parser decides on the way whether there is an `else`, the grammar looks for it at the end
  obtain ⟨message, hthen⟩ := @resolveFrom_operand ts (parseFrame scope levels) opener 3 1
    [.ifThen, .ifThenElse] [] [.ifThen, .ifThenElse] [] "then" rfl (by decide) (by decide)
  have helse := fun c => @resolveFrom_operand ts (parseFrame scope levels) opener 2 2
    [.ifThen, .ifThenElse] [.ifThen] [.ifThenElse] [c] "else" rfl (by decide) (by decide)
  rw [hthen]
  unfold Grammar.conditional
  refine .position_bind (.bind ((hinner _ s hs hcursor).holding _) (fun operand => ?_) ?_)
  · exact ages_behindOperand (fun _ => .bind (.advance 1) fun _ =>
      ages_resolveFrom (ages_parseFrame scope levels) _ _ _ _ _ _) _ _ _ _ _ _
  rintro c condition s₁ hs₁ ⟨ht₁, hc⟩
  refine .current_bind ?_
  rw [hs₁.isWord_current]
  dsimp only
  by_cases hword : (Grammar.ahead s₁.cursor.lexemes 0).isWord "then" = true
  · rw [if_pos hword, if_pos hword]
    refine .advance_bind hs₁ 1 (g := fun ls => (Grammar.frame Γ levels ("else" :: ts) ls).bind
      fun branch => if (Grammar.ahead branch.2 0).isWord "else" = true then
          some ((Operator.ifThenElse, [condition, branch.1]), branch.2.drop 1)
        else some ((Operator.ifThen, [condition]), ls)) fun s₂ hstore₂ hs₂ => ?_
    rw [← hstore₂] at ht₁ hc
    obtain ⟨message, helse⟩ := helse c
    rw [List.nil_append, helse]
    refine .position_bind ?_
    refine .bind_run ((hinner _ s₂ (hs.trans ht₁) hs₂).holding _) (fun operand => ?_) ?_
    · exact ages_behindOperand (fun _ => .bind (.advance 1) fun _ =>
        ages_resolveFrom (ages_parseFrame scope levels) _ _ _ _ _ _) _ _ _ _ _ _
    rintro x branch s₃ hrun hs₃ ⟨ht₃, hx⟩
    refine .current_bind ?_
    rw [hs₃.isWord_current]
    dsimp only
    by_cases hword' : (Grammar.ahead s₃.cursor.lexemes 0).isWord "else" = true
    · rw [if_pos hword', if_pos hword']
      refine .advance_bind hs₃ 1 (g := fun ls => some (_, ls)) fun s₄ hstore₄ hs₄ => ?_
      rw [← hstore₄] at ht₃ hx
      rw [resolveFrom_single (by decide)]
      exact .pure hs₄ ⟨ht₁.trans ht₃, rfl, (hc.mono ht₃).append hx⟩
    · -- the operand was read in vain: the store is as before, and the cursor is put back
      rw [if_neg hword', if_neg hword']
      obtain ⟨htokens, henlarges⟩ :=
        parseFrame_returns (hs.trans ht₁).sound hs₂ (holding_eq_ok.mp hrun)
      obtain ⟨hregular, hlexemes⟩ := hs₂.seek hs₃ htokens
      exact .of_follows ⟨hregular, hlexemes, ht₁.trans henlarges, rfl, hc.mono henlarges⟩
  · rw [if_neg hword, if_neg hword]
    exact (FollowsWhile.complain _ _).holding _

/-- Reading the parts of a selection follows the grammar. -/
theorem follows_selection {left : Node} {tree : Tree} (hleft : s.store.Means [left] [tree]) :
    FollowsWhile φ (fun r q t => s.store.Enlarges t ∧ r.1 = q.1 ∧ t.Means r.2 q.2)
      (resolveFrom (parseFrame scope levels) ts opener 4 1 [.select] [left]) s
      (Grammar.selection (Grammar.frame Γ levels) ts tree s.cursor.lexemes) := by
  obtain ⟨message, hcolon⟩ := @resolveFrom_operand ts (parseFrame scope levels) opener 3 1
    [.select] [] [.select] [left] ":" rfl (by decide) (by decide)
  rw [hcolon]
  unfold Grammar.selection
  refine .position_bind (.bind ((hinner _ s hs hcursor).holding _) (fun operand => ?_) ?_)
  · exact ages_behindOperand (fun _ => .bind (.advance 1) fun _ =>
      ages_resolveFrom (ages_parseFrame scope levels) _ _ _ _ _ _) _ _ _ _ _ _
  rintro x branch s₁ hs₁ ⟨ht₁, hx⟩
  refine .current_bind ?_
  rw [hs₁.isWord_current]
  dsimp only
  by_cases hword : (Grammar.ahead s₁.cursor.lexemes 0).isWord ":" = true
  · rw [if_pos hword, if_pos hword]
    refine .advance_bind hs₁ 1 (g := fun ls => some (_, ls)) fun s₂ hstore₂ hs₂ => ?_
    rw [← hstore₂] at ht₁ hx
    rw [resolveFrom_single (by decide)]
    exact .pure hs₂ ⟨ht₁, rfl, (hleft.mono ht₁).append hx⟩
  · rw [if_neg hword, if_neg hword]
    exact (FollowsWhile.complain _ _).holding _

omit hinner in

/-- Reading the parts of a type test follows the grammar. -/
theorem follows_typeTest {inner : List String → ParseM Node} {left : Node} {tree : Tree}
    (hleft : s.store.Means [left] [tree]) :
    FollowsWhile φ (fun r q t => s.store.Enlarges t ∧ r.1 = q.1 ∧ t.Means r.2 q.2)
      (resolveFrom inner ts opener 4 1 [.is, .isNot] [left]) s
      (Grammar.typeTest tree s.cursor.lexemes) := by
  have hpartition : [Operator.is, .isNot].partition (fun op => op.sequence.length ≤ 1) =
      ([.is], [.isNot]) := by decide
  have hfind : ∀ next : Token, [Operator.isNot].find? (fun op => goesOnWith 1 next op &&
      !expectsOperand 1 op) = if next.isWord "not" then some .isNot else none := by
    intro next
    have hgoes : goesOnWith 1 next .isNot = next.isWord "not" := rfl
    have hexpects : expectsOperand 1 .isNot = false := rfl
    rw [List.find?_singleton, hgoes, hexpects, Bool.not_false, Bool.and_true]
  unfold resolveFrom Grammar.typeTest
  rw [hpartition]
  dsimp only
  rw [if_neg (by decide)]
  refine .current_bind ?_
  rw [hfind, hcursor.isWord_current]
  by_cases hword : (Grammar.ahead s.cursor.lexemes 0).isWord "not" = true
  · rw [if_pos hword, if_pos hword]
    refine .advance_bind hcursor 1 (g := fun ls => some (_, ls)) fun s₁ hstore₁ hs₁ => ?_
    rw [← hstore₁] at hs hleft ⊢
    rw [resolveFrom_single (by decide)]
    exact .pure hs₁ ⟨.refl hs.sound, rfl, hleft⟩
  · rw [if_neg hword, if_neg hword]
    exact .pure hcursor ⟨.refl hs.sound, rfl, hleft⟩

end Resolving

/-- The left operand of an operator of several tokens leaves the frame, as its tree does. -/
theorem follows_leftOperand (hsees : base.Sees φ scope Γ) {s : ParseState}
    (hs : base.Enlarges s.store) (hcursor : s.cursor.Regular) (h : f.Shows s.store ts g)
    (hlast : f.lastOperand = true) {candidates : List Operator} {precedence : Nat}
    (hprecedence : (candidates.map Operator.inputPrecedence).foldl max 0 = precedence)
    (token : Token) :
    FollowsWhile φ (fun r q t => s.store.Enlarges t ∧ r.1.Shows t ts q.1 ∧ ∃ left, r.2 = [left] ∧
        t.Means [left] [q.2])
      (leftOperand scope f candidates token) s
      (((Γ.reduceWhile precedence g.operands g.pending).bind fun reduced =>
        match reduced.1 with
        | left :: operands => some (({ operands, pending := reduced.2 } : TreeFrame), left)
        | [] => none).map (·, s.cursor.lexemes)) := by
  unfold leftOperand
  rw [if_pos hlast]
  dsimp only
  rw [hprecedence]
  refine (follows_reduceWhile hsees precedence hs hcursor (f := f) h).bind_still
    (fun f' => ages_left f' token) ?_
  rintro f' ⟨operands, pending⟩ s' hs' ⟨ht, hf'⟩
  obtain ⟨hoperands, hpending, -, hterminators⟩ := hf'
  dsimp only at hoperands hpending ⊢
  generalize f'.operands = nodes at hoperands
  cases nodes with
  | nil =>
    cases hoperands
    exact (FollowsWhile.complain _ _).holding _
  | cons left others =>
    cases operands with
    | nil => cases hoperands
    | cons tree rest =>
      obtain ⟨hleft, hothers⟩ := Store.Means.cons_iff.mp hoperands
      exact .pure hs' ⟨ht, ⟨hothers, hpending, rfl, hterminators⟩, left, rfl, hleft⟩

/-- An operator of several tokens behind its left operand is resolved as in the grammar. -/
theorem follows_resolveSequence (hsees : base.Sees φ scope Γ) {s : ParseState}
    (hs : base.Enlarges s.store) (hcursor : s.cursor.Regular) (h : f.Shows s.store ts g)
    (hlast : f.lastOperand = true) {candidates : List Operator} {precedence : Nat}
    (hprecedence : (candidates.map Operator.inputPrecedence).foldl max 0 = precedence)
    {inner : List String → ParseM Node} {resolve : Tree → Grammar.Scan (Operator × List Tree)}
    (hages : ∀ ts, Ages (inner ts)) (token : Token)
    (hresolve : ∀ {left tree s'}, base.Enlarges s'.store → s'.cursor.Regular →
      s'.store.Means [left] [tree] →
      FollowsWhile φ (fun r q t => s'.store.Enlarges t ∧ r.1 = q.1 ∧ t.Means r.2 q.2)
        (resolveFrom inner ts token 4 1 candidates [left]) s' (resolve tree s'.cursor.lexemes)) :
    FollowsWhile φ (fun f' g' t => s.store.Enlarges t ∧ f'.Shows t ts g')
      (resolveSequence scope inner f candidates token) s
      (Grammar.resolveAfter Γ g precedence resolve s.cursor.lexemes) := by
  have hleft := follows_leftOperand hsees hs hcursor h hlast hprecedence token
  -- completing the operators in front and resolving the operator are two steps of the parser
  have hshape : Grammar.resolveAfter Γ g precedence resolve s.cursor.lexemes =
      (((Γ.reduceWhile precedence g.operands g.pending).bind fun reduced =>
        match reduced.1 with
        | left :: operands => some (({ operands, pending := reduced.2 } : TreeFrame), left)
        | [] => none).map (·, s.cursor.lexemes)).bind fun r => (resolve r.1.2 (r.2.drop 1)).map
          fun q => (r.1.1.await (.tail q.1.1 q.1.2), q.2) := by
    rw [Grammar.resolveAfter]
    cases Γ.reduceWhile precedence g.operands g.pending with
    | none => rfl
    | some reduced =>
      obtain ⟨operands, pending⟩ := reduced
      cases operands <;> rfl
  rw [hshape]
  unfold resolveSequence
  refine hleft.bind (fun r => .bind (.advance 1) fun _ =>
    .bind ((ages_resolveFrom hages _ _ _ _ _ _).holding _) fun q => .pure _) ?_
  rintro ⟨f', operands⟩ ⟨g', tree⟩ s₁ hs₁ ⟨ht₁, hf', left, rfl, hleft⟩
  dsimp only at hf' hleft ⊢
  rw [hf'.terminators]
  refine .advance_bind hs₁ 1 (g := fun ls => (resolve tree ls).map
    fun q => (g'.await (.tail q.1.1 q.1.2), q.2)) fun s₂ hstore₂ hs₂ => ?_
  rw [← hstore₂] at ht₁ hf' hleft
  refine ((hresolve (hs.trans ht₁) hs₂ hleft).holding _).andReturn
    (g := fun q => g'.await (.tail q.1 q.2)) ?_
  rintro ⟨op, nodes⟩ ⟨op', trees⟩ t ⟨ht, rfl, hmeans⟩
  exact ⟨ht₁.trans ht, (hf'.mono ht).await (.tail hmeans)⟩

end Frame

/-- Of the operators of several tokens, only conditionals begin without an operand. -/
theorem Operator.sequencesStarting_leading (text : String) :
    sequencesStarting text true = if text = "if" then [.ifThen, .ifThenElse] else [] := by
  by_cases hif : text = "if"
  · rw [hif]
    decide
  · have hne : ∀ op ∈ sequences, (op.sequence.head? == some ⟨text, true⟩) = false := by
      intro op hop
      simp only [sequences, List.mem_cons, List.not_mem_nil, or_false] at hop
      rcases hop with rfl | rfl | rfl | rfl | rfl <;> simp [sequence, Ne.symm hif]
    rw [if_neg hif, sequencesStarting, List.filter_eq_nil_iff]
    exact fun op hop => by simp [hne op hop]

/-- Behind an operand, selections and type tests begin. -/
theorem Operator.sequencesStarting_behind (text : String) : sequencesStarting text false =
    if text = "?" then [.select] else if text = "is" then [.is, .isNot] else [] := by
  by_cases hselect : text = "?"
  · rw [hselect]
    decide
  · by_cases his : text = "is"
    · rw [his]
      decide
    · have hne : ∀ op ∈ sequences, (op.sequence.head? == some ⟨text, false⟩) = false := by
        intro op hop
        simp only [sequences, List.mem_cons, List.not_mem_nil, or_false] at hop
        rcases hop with rfl | rfl | rfl | rfl | rfl <;>
          simp [sequence, Ne.symm hselect, Ne.symm his]
      rw [if_neg hselect, if_neg his, sequencesStarting, List.filter_eq_nil_iff]
      exact fun op hop => by simp [hne op hop]

namespace Frame

variable {base : Store} {φ : Store.Proviso} {scope : TupleId} {Γ : Env}
  {ts : List String} {f : Frame}
  {g : TreeFrame}
  {levels : Nat}

section Operators

variable (hsees : base.Sees φ scope Γ) (hinner : FramesParse base φ scope Γ levels) {s : ParseState}
  (hs : base.Enlarges s.store) (hcursor : s.cursor.Regular) (h : f.Shows s.store ts g)

include hsees hinner hs hcursor h

/-! ## Operators -/

/-- Reading an infix operator follows the grammar. -/
theorem follows_infixed (hlast : f.lastOperand = true) :
    FollowsWhile φ (fun f' g' t => s.store.Enlarges t ∧ f'.Shows t ts g')
      (operator scope (parseFrame scope levels) f s.cursor.current) s
      (Grammar.infixed Γ (Grammar.frame Γ levels) ts g s.cursor.lexemes) := by
  unfold operator Grammar.infixed
  rw [hlast, Bool.not_true]
  dsimp only
  rw [hcursor.text_current, Operator.sequencesStarting_behind]
  by_cases hselect : (Grammar.ahead s.cursor.lexemes 0).text = "?"
  · rw [if_pos hselect, if_pos hselect]
    exact follows_resolveSequence hsees hs hcursor h hlast rfl (ages_parseFrame scope levels) _
      fun hs' hcursor' hleft => follows_selection hinner hs' hcursor' _ hleft
  · by_cases his : (Grammar.ahead s.cursor.lexemes 0).text = "is"
    · rw [if_neg hselect, if_neg hselect, if_pos his, if_pos his]
      exact follows_resolveSequence hsees hs hcursor h hlast rfl (ages_parseFrame scope levels) _
        fun hs' hcursor' hleft => follows_typeTest hs' hcursor' _ hleft
    · rw [if_neg hselect, if_neg hselect, if_neg his, if_neg his, if_neg (by decide)]
      cases hop : Operator.ofSpelling? (Grammar.ahead s.cursor.lexemes 0).text false with
      | none => exact (FollowsWhile.complain _ _).holding _
      | some op =>
        have harity : op.arity = 2 := Operator.arity_of_ofSpelling? hop
        dsimp only
        rw [harity, Option.bind_some]
        refine .advance_bind hcursor 1 (g := fun ls =>
          (Γ.reduceWhile op.inputPrecedence g.operands g.pending).map fun reduced =>
            (TreeFrame.await ⟨reduced.1, reduced.2, false⟩ (.single op), ls))
          fun s₁ hstore₁ hs₁ => ?_
        rw [← hstore₁] at hs h ⊢
        refine (follows_reduceWhile hsees op.inputPrecedence hs hs₁ (f := f) h).andReturn_still
          (g := fun reduced => TreeFrame.await ⟨reduced.1, reduced.2, false⟩ (.single op)) ?_
        rintro f' ⟨operands, pending⟩ t ⟨ht, hf'⟩
        exact ⟨ht, hf'.operands, .cons .single hf'.pending, rfl, hf'.terminators⟩

/-- Reading a prefix operator follows the grammar. -/
theorem follows_prefixed (hlast : f.lastOperand = false) :
    FollowsWhile φ (fun f' g' t => s.store.Enlarges t ∧ f'.Shows t ts g')
      (operator scope (parseFrame scope levels) f s.cursor.current) s
      (Grammar.prefixed Γ (Grammar.frame Γ levels) ts g s.cursor.lexemes) := by
  unfold operator Grammar.prefixed
  rw [hlast, Bool.not_false]
  dsimp only
  rw [hcursor.text_current, Operator.sequencesStarting_leading]
  -- in front of an operand only `if` begins an operator of several tokens
  by_cases hif : (Grammar.ahead s.cursor.lexemes 0).text = "if"
  · rw [if_pos hif, if_pos hif, if_pos (by decide)]
    unfold resolveSequence leftOperand
    rw [hlast, if_neg Bool.false_ne_true, pure_bind]
    dsimp only
    rw [h.terminators]
    refine .advance_bind hcursor 1 (g := fun ls =>
      (Grammar.conditional (Grammar.frame Γ levels) ts ls).map
        fun r => (g.await (.tail r.1.1 r.1.2), r.2)) fun s₁ hstore₁ hs₁ => ?_
    rw [← hstore₁] at hs h ⊢
    refine ((follows_conditional hinner hs hs₁ _).holding _).andReturn
      (g := fun q => g.await (.tail q.1 q.2)) ?_
    rintro ⟨op, nodes⟩ ⟨op', trees⟩ t ⟨ht, rfl, hmeans⟩
    exact ⟨ht, (h.mono ht).await (.tail hmeans)⟩
  · rw [if_neg hif, if_neg hif, if_neg (by decide)]
    cases hop : Operator.ofSpelling? (Grammar.ahead s.cursor.lexemes 0).text true with
    | none => exact (FollowsWhile.complain _ _).holding _
    | some op =>
      -- a signal has no operand, and any other operator here has one
      have harity : op.arity ≤ 1 := Operator.arity_of_ofSpelling? hop
      dsimp only
      rw [Option.bind_some]
      rcases Nat.le_one_iff_eq_zero_or_eq_one.mp harity with hzero | hone
      · rw [hzero, if_pos rfl]
        refine .advance_bind hcursor 1 (g := fun ls =>
          (Γ.bind op op.actionName [] []).map fun t => (g.push t, ls)) fun s₁ hstore₁ hs₁ => ?_
        rw [← hstore₁] at hs h ⊢
        have hbinds : Parses φ ((Draft.ofOperator op []).bind scope s.cursor.current.span) s₁
            ((Γ.bind op op.actionName [] []).map (·, s₁.cursor.lexemes)) :=
          Draft.binds hsees hs hs₁ .nil _ fun _ => rfl
        exact (hbinds.holding _).andReturn_still (g := g.push)
          fun node tree t ht => ⟨ht.1, (h.mono ht.1).push ht.2⟩
      · rw [hone, if_neg (by decide)]
        refine .advance_bind hcursor 1 (g := fun ls => some (_, ls)) fun s₁ hstore₁ hs₁ => ?_
        rw [← hstore₁] at hs h ⊢
        exact .pure hs₁ ⟨.refl hs.sound, h.await .single⟩

end Operators

/-! ## Operands -/

section Operands

variable (hsees : base.Sees φ scope Γ) {s : ParseState} (hs : base.Enlarges s.store)
  (hcursor : s.cursor.Regular)

include hs hcursor in

/-- Arguments of a call are read one by one, each with its place among the names. -/
theorem follows_callArgs (hinner : FramesParse base φ scope Γ levels) (callee : Token)
    (rounds : Nat)
    {s₀ : Store} (hs₀ : s₀.Enlarges s.store) {args : List Node} {trees : List Tree}
    (names : List (Option String)) (h : s.store.Means args trees) :
    FollowsWhile φ (fun r q t => s₀.Enlarges t ∧ t.Means r.1 q.1 ∧ r.2 = q.2)
      (callArgs (parseFrame scope levels) callee rounds args names) s
      (Grammar.callArgs (Grammar.frame Γ levels) rounds trees names s.cursor.lexemes) := by
  induction rounds generalizing s args trees names with
  | zero => exact .of_follows ((Follows.throw _).holding _)
  | succ rounds ih =>
    unfold callArgs Grammar.callArgs
    have hages : ∀ args names, Ages (callArgs (parseFrame scope levels) callee rounds args names) :=
      ages_callArgs (ages_parseFrame scope levels) callee rounds
    refine (TypeReader.yields_name hcursor).andWhile (fun name => ?_) fun name s₁ hstore₁ hs₁ => ?_
    · exact .bind ((ages_parseFrame _ _ _).holding _) fun _ => ages_behindArgument (hages _ _) _ _ _
    rw [← hstore₁] at hs h hs₀
    refine .bind ((hinner _ s₁ hs hs₁).holding _)
      (fun _ => ages_behindArgument (hages _ _) _ _ _) ?_
    rintro arg tree s₂ hs₂ ⟨ht₂, harg⟩
    have hargs := (h.mono ht₂).append harg
    refine .current_bind ?_
    rw [hs₂.kind_current]
    dsimp only
    cases (Grammar.ahead s₂.cursor.lexemes 0).kind
    case comma =>
      refine .advance_bind hs₂ 1 fun s₃ hstore₃ hs₃ => ?_
      rw [← hstore₃] at ht₂ hargs
      exact ih (hs.trans ht₂) hs₃ (hs₀.trans ht₂) _ hargs
    case rparen =>
      refine .advance_bind hs₂ 1 (g := fun ls => some (_, ls)) fun s₃ hstore₃ hs₃ => ?_
      rw [← hstore₃] at ht₂ hargs
      exact .pure hs₃ ⟨hs₀.trans ht₂, hargs, rfl⟩
    all_goals exact (FollowsWhile.complainHere _).holding _

include hsees hs hcursor

/-- Reading a call follows the grammar. -/
theorem parses_call (hinner : FramesParse base φ scope Γ levels) :
    Parses φ (call scope (parseFrame scope levels) s.cursor.current) s
      (Grammar.call Γ (Grammar.frame Γ levels) s.cursor.lexemes) := by
  unfold call Grammar.call
  dsimp only
  rw [← hcursor.text_current]
  refine .advance_bind hcursor 2 (g := fun rest =>
    (if (Grammar.ahead rest 0).kind = .rparen then some (([], []), rest.drop 1)
      else Grammar.callArgs (Grammar.frame Γ levels) (rest.length + 1) [] [] rest).bind
        fun args => (Γ.bind .call s.cursor.current.text args.1.1 args.1.2).map (·, args.2))
    fun s₁ hstore₁ hs₁ => ?_
  rw [← hstore₁] at hs ⊢
  have hbind : ∀ {s₂ : ParseState} {args : List Node} {trees : List Tree}
      {names : List (Option String)}, s₂.cursor.Regular → s₁.store.Enlarges s₂.store →
      s₂.store.Means args trees →
      FollowsWhile φ (fun node tree t => s₁.store.Enlarges t ∧ t.Means [node] [tree])
        (Draft.bind scope ⟨.call, s.cursor.current.text, args, names⟩ s.cursor.current.span) s₂
        ((Γ.bind .call s.cursor.current.text trees names).map (·, s₂.cursor.lexemes)) := by
    intro s₂ args trees names hs₂ ht hargs
    exact FollowsWhile.imp (Draft.binds hsees (hs.trans ht) hs₂ hargs _ nofun)
      fun node tree t hQ => ⟨ht.trans hQ.1, hQ.2⟩
  refine .current_bind ?_
  rw [hs₁.kind_current]
  by_cases hclose : (Grammar.ahead s₁.cursor.lexemes 0).kind = .rparen
  · rw [if_pos hclose, if_pos (by simpa using hclose)]
    refine .advance_bind hs₁ 1 (g := fun ls => (Γ.bind .call _ [] []).map (·, ls))
      fun s₂ hstore₂ hs₂ => ?_
    rw [← hstore₂] at hs hbind ⊢
    exact hbind hs₂ (.refl hs.sound) .nil
  · rw [if_neg hclose, if_neg (by simpa using hclose)]
    refine .rounds_bind ?_
    have hargs := follows_callArgs hs hs₁ hinner s.cursor.current
      (s₁.cursor.lexemes.length + 1) (.refl hs.sound) [] .nil
    refine hargs.bind (fun r => Draft.ages_bind _ _) ?_
    rintro ⟨args, names⟩ ⟨trees, names'⟩ s₂ hs₂ ⟨ht, hmeans, rfl⟩
    exact hbind hs₂ ht hmeans

/-- Reading an identifier follows the grammar. -/
theorem parses_identifier (token : Token) :
    Parses φ (identifier scope token) s
      (some (Grammar.identifier Γ token.text, s.cursor.lexemes)) := by
  refine .of_start (ages_identifier token) fun hφ => ?_
  have hcell : s.store.variableCell? scope token.text = Γ.cell? token.text := by
    rw [← hsees _ hs hφ]
    rfl
  unfold identifier Grammar.identifier
  refine .store_bind ?_
  rw [hcell]
  cases Γ.cell? token.text with
  | some cell => exact .pure hcursor ⟨.refl hs.sound, .named .nil⟩
  | none =>
    have hv : (Value.name token.text).tupleId? = none := rfl
    exact .of_follows ⟨hcursor, rfl, Store.means_newCell hs.sound "name" hv⟩

omit hsees in

/-- An operand that does not begin with an identifier is a literal. -/
theorem parses_operand {inner : List String → Grammar.Scan Tree}
    (hident : (Grammar.ahead s.cursor.lexemes 0).kind ≠ .ident) :
    Parses φ (operand scope levels s.cursor.current) s
      (Grammar.operand Γ inner levels s.cursor.lexemes) := by
  have hliteral : ∀ {m : ParseM Cell} {s' : ParseState} {o : Option (Datum × List Lexeme)},
      Gives s'.store m s' o → Ages m →
      FollowsWhile φ (fun node tree t => s'.store.Enlarges t ∧ t.Means [node] [tree])
        (do return .literal (← m) : ParseM Node) s' (o.map fun d => (.literal d.1, d.2)) :=
    fun hm hages => .of_follows ((Follows.aged hm hages).andReturn
      fun c d t ⟨hgains, hages⟩ => ⟨hgains.enlarges hages, hgains.means⟩)
  have hread := hliteral (ValueReader.gives_read scope levels hs.sound hcursor)
    (ValueReader.ages_read scope levels)
  have hscalar :
    Parses φ (do advance 1; return .literal (← ValueReader.scalar s.cursor.current false))
      s ((Grammar.scalar (Grammar.ahead s.cursor.lexemes 0) false).map
        fun d => (.literal d, s.cursor.lexemes.drop 1)) := by
    refine .advance_bind hcursor 1 (g := fun ls => (Grammar.scalar _ _).map
      fun d => (Tree.literal d, ls)) fun s₁ hstore₁ hs₁ => ?_
    have hgives := ValueReader.gives_scalar (hstore₁ ▸ hs.sound) hs₁ s.cursor.current false
    have hparses := hliteral hgives (ValueReader.ages_scalar _ _)
    rw [Option.map_map, hstore₁] at hparses
    rw [← hcursor.lexeme_peek]
    exact hparses
  unfold operand Grammar.operand
  rw [hcursor.kind_current]
  dsimp only
  cases hkind : (Grammar.ahead s.cursor.lexemes 0).kind
  case ident => exact (hident hkind).elim
  case plainOpen => exact hread
  case typeOpen => exact hread
  all_goals
    first
      | exact hscalar
      | exact .complain _ _

end Operands

/-! ## Taking in lexemes -/

section Steps

variable (hsees : base.Sees φ scope Γ) (hinner : FramesParse base φ scope Γ levels)

include hsees hinner

/-- Taking in an operand puts its node in front of the frame. -/
theorem follows_operand {s : ParseState} (hs : base.Enlarges s.store)
    (hcursor : s.cursor.Regular) (h : f.Shows s.store ts g) :
    FollowsWhile φ (fun f' g' t => s.store.Enlarges t ∧ f'.Shows t ts g')
      (if s.cursor.current.kind == .ident then do
        if (← peek 1).kind == .lparen then
          return f.pushOperand (← holding f.held (call scope (parseFrame scope levels)
            s.cursor.current))
        else
          advance 1
          return f.pushOperand (← identifier scope s.cursor.current)
      else return f.pushOperand (← holding f.held (operand scope levels s.cursor.current))) s
      ((Grammar.operand Γ (Grammar.frame Γ levels) levels s.cursor.lexemes).map
        fun r => (g.push r.1, r.2)) := by
  have hpush : ∀ node tree t, s.store.Enlarges t ∧ t.Means [node] [tree] →
      s.store.Enlarges t ∧ (f.pushOperand node).Shows t ts (g.push tree) :=
    fun node tree t hQ => ⟨hQ.1, (h.mono hQ.1).push hQ.2⟩
  rw [hcursor.kind_current]
  by_cases hident : (Grammar.ahead s.cursor.lexemes 0).kind = .ident
  · rw [if_pos (by simp [hident]), Grammar.operand]
    rw [hident]
    dsimp only
    refine .peek_bind ?_
    rw [hcursor.kind_peek]
    by_cases hopen : (Grammar.ahead s.cursor.lexemes 1).kind = .lparen
    · rw [if_pos hopen, if_pos (by simp [hopen])]
      exact ((parses_call hsees hs hcursor hinner).holding _).andReturn hpush
    · rw [if_neg hopen, if_neg (by simpa using hopen), ← hcursor.text_current]
      refine .advance_bind hcursor 1
        (g := fun ls => some (g.push (Grammar.identifier Γ s.cursor.current.text), ls))
        fun s₁ hstore₁ hs₁ => ?_
      rw [← hstore₁] at hs hpush ⊢
      exact (parses_identifier hsees hs hs₁ _).andReturn hpush
  · rw [if_neg (by simpa using hident)]
    exact ((parses_operand hs hcursor hident).holding _).andReturn hpush

/-- Taking in one lexeme, with what belongs to it, is a step of the grammar. -/
theorem follows_step {s : ParseState} (hs : base.Enlarges s.store) (hcursor : s.cursor.Regular)
    (h : f.Shows s.store ts g) :
    FollowsWhile φ (fun f' g' t => s.store.Enlarges t ∧ f'.Shows t ts g')
      (step scope levels (parseFrame scope levels) f s.cursor.current) s
      (Grammar.step Γ (Grammar.frame Γ levels) ts g levels s.cursor.lexemes) := by
  -- the grammar tells operands from operators by what stands in front of them
  have hoperand := follows_operand hsees hinner hs hcursor h
  -- commas and unrecognized input are no operands
  have hnone : (Grammar.ahead s.cursor.lexemes 0).kind = .comma ∨
      (Grammar.ahead s.cursor.lexemes 0).kind = .invalid →
      Grammar.operand Γ (Grammar.frame Γ levels) levels s.cursor.lexemes = none := by
    intro hkind
    unfold Grammar.operand
    dsimp only
    rcases hkind with hkind | hkind <;> rw [hkind] <;> rfl
  have hoperator : FollowsWhile φ (fun f' g' t => s.store.Enlarges t ∧ f'.Shows t ts g')
      (operator scope (parseFrame scope levels) f s.cursor.current) s
      (if g.lastOperand then Grammar.infixed Γ (Grammar.frame Γ levels) ts g s.cursor.lexemes
        else Grammar.prefixed Γ (Grammar.frame Γ levels) ts g s.cursor.lexemes) := by
    cases hlast : g.lastOperand with
    | true => exact follows_infixed hsees hinner hs hcursor h (h.last.trans hlast)
    | false => exact follows_prefixed hsees hinner hs hcursor h (h.last.trans hlast)
  unfold step Grammar.step
  cases hkind : (Grammar.ahead s.cursor.lexemes 0).kind
  case symbol =>
    rw [hcursor.kind_current, hkind]
    exact hoperator
  case keyword =>
    rw [hcursor.kind_current, hkind]
    exact hoperator
  case rparen =>
    rw [hcursor.kind_current, hkind]
    dsimp only
    rw [h.last]
    cases hlast : g.lastOperand with
    | false => exact (FollowsWhile.complain _ _).holding _
    | true =>
      -- closing a group and passing the parenthesis are two steps of the parser
      have hshape : ((Γ.closeGroup g.operands g.pending).map
          fun r => ((⟨r.1, r.2, true⟩ : TreeFrame), s.cursor.lexemes.drop 1)) =
          ((Γ.closeGroup g.operands g.pending).map (·, s.cursor.lexemes)).bind
            fun r => some (⟨r.1.1, r.1.2, true⟩, r.2.drop 1) := by
        rw [Option.bind_map, Option.map_eq_bind]
        rfl
      rw [if_pos rfl, hshape]
      refine (follows_closeGroup hsees hs hcursor (f := f) h).bind
        (fun f' => .bind (.advance 1) fun _ => .pure _) ?_
      rintro f' ⟨operands, pending⟩ s₁ hs₁ ⟨ht, hf'⟩
      refine .advance_bind hs₁ 1 (g := fun ls => some (_, ls)) fun s₂ hstore₂ hs₂ => ?_
      rw [← hstore₂] at ht hf'
      exact .pure hs₂ ⟨ht, hf'.operands, hf'.pending, rfl, hf'.terminators⟩
  case lparen =>
    rw [hcursor.kind_current, hkind]
    dsimp only
    rw [h.last]
    cases hlast : g.lastOperand with
    | true => exact (FollowsWhile.complain _ _).holding _
    | false =>
      refine .advance_bind hcursor 1 (g := fun ls => some (_, ls)) fun s₁ hstore₁ hs₁ => ?_
      rw [← hstore₁] at hs h ⊢
      exact .pure hs₁ ⟨.refl hs.sound, h.operands, .cons .opening h.pending, rfl, h.terminators⟩
  case comma =>
    rw [hcursor.kind_current, hkind]
    dsimp only
    rw [hnone (by simp [hkind]), Option.map_none, ite_self]
    exact (FollowsWhile.complain _ _).holding _
  case invalid =>
    rw [hcursor.kind_current, hkind]
    dsimp only
    rw [hnone (by simp [hkind]), Option.map_none, ite_self]
    exact (FollowsWhile.complain _ _).holding _
  all_goals
    rw [hcursor.kind_current, hkind] at hoperand ⊢
    dsimp only
    rw [h.last]
    cases g.lastOperand with
    | true => exact (FollowsWhile.complain _ _).holding _
    | false => exact hoperand

/-- Taking in lexemes to the end of a frame gives the node of its tree. -/
theorem parses_run (rounds : Nat) {f : Frame} {g : TreeFrame} {s₀ : Store} {s : ParseState}
    (hs : base.Enlarges s.store) (hcursor : s.cursor.Regular) (h : f.Shows s.store ts g)
    (hbalanced : f.Balanced) (hs₀ : s₀.Enlarges s.store) :
    FollowsWhile φ (fun node tree t => s₀.Enlarges t ∧ t.Means [node] [tree])
      (run scope levels (parseFrame scope levels) rounds f) s
      (Grammar.run Γ levels (Grammar.frame Γ levels) ts rounds g s.cursor.lexemes) := by
  induction rounds generalizing f g s with
  | zero => exact .of_follows ((Follows.throw _).holding _)
  | succ rounds ih =>
    unfold run Grammar.run
    refine .current_bind ?_
    rw [h.endsAt_eq hcursor]
    cases hends : g.endsAt ts (Grammar.ahead s.cursor.lexemes 0) with
    | true =>
      exact FollowsWhile.imp (parses_finish hsees hs hcursor h hbalanced)
        fun node tree t hQ => ⟨hs₀.trans hQ.1, hQ.2⟩
    | false =>
      have hstep := follows_step hsees hinner hs hcursor h
      refine (hstep.finds (finds_step (sober_parseFrame scope levels) hbalanced
        ((h.endsAt_eq hcursor).trans hends) levels)).bind
        (fun f' => ages_run (ages_parseFrame scope levels) _ _ _) ?_
      rintro f' g' s' hs' ⟨⟨ht, hf'⟩, hbalanced'⟩
      exact ih (hs.trans ht) hs' hf' hbalanced' (hs₀.trans ht)

end Steps

end Frame

/-! ## Statements -/

section Statements

variable {base : Store} {φ : Store.Proviso} {scope : TupleId} {Γ : Env}

/-- At every depth, frames follow the grammar. -/
theorem parses_parseFrame (hsees : base.Sees φ scope Γ) (levels : Nat) :
    FramesParse base φ scope Γ levels := by
  induction levels with
  | zero => exact fun ts s hs hcursor => .of_follows ((Follows.tooDeep _).onFailure _)
  | succ levels ih =>
    intro ts s hs hcursor
    unfold parseFrame Grammar.frame
    refine FollowsWhile.skipping (.rounds_bind ?_)
    have hstart : Frame.Shows s.store ts { terminators := ts } {} := ⟨.nil, .nil, rfl, rfl⟩
    exact Frame.parses_run hsees ih _ hs hcursor hstart (.start ts) (.refl hs.sound)

/-- One statement is a frame with nothing behind it. -/
theorem parses_parseStatement (hsees : base.Sees φ scope Γ) {s : ParseState}
    (hs : base.Enlarges s.store) (hcursor : s.cursor.Regular) :
    Parses φ (parseStatement scope) s
    ((Grammar.frame Γ base.settings.maxDepth [] s.cursor.lexemes).bind
      fun r => if (Grammar.ahead r.2 0).kind.endsStatement then some r else none) := by
  have hsettings : s.store.settings = base.settings := by
    obtain ⟨new, htrade⟩ := hs.trade
    exact htrade.settings
  unfold parseStatement
  refine .store_bind ?_
  rw [hsettings]
  refine (parses_parseFrame hsees _ _ s hs hcursor).bind (fun node => .bind .current fun token =>
    .ite (.pure _) (Ages.skipping ((Ages.complain _ _).holding _))) ?_
  intro node tree s' hs' hQ
  refine .current_bind ?_
  dsimp only
  rw [hs'.kind_current]
  by_cases hend : (Grammar.ahead s'.cursor.lexemes 0).kind.endsStatement = true
  · rw [if_pos hend, if_pos hend]
    exact .pure hs' hQ
  · rw [if_neg hend, if_neg hend]
    exact ((FollowsWhile.complain _ _).holding _).skipping

/-- Reading statements gives the nodes of the trees that the grammar gives; where the grammar gives
nothing, there is a diagnostic. -/
theorem parseStatements_cases (hsees : base.Sees φ scope Γ) (rounds : Nat) {s : ParseState}
    (hs : base.Enlarges s.store) (hcursor : s.cursor.Regular)
    (hφ : φ.Holds (parseStatements scope rounds s).store) :
    let parsed := parseStatements scope rounds s
    match Grammar.statements Γ base.settings.maxDepth rounds s.cursor.lexemes with
    | some trees => parsed.diagnostics = [] ∧ s.store.Enlarges parsed.store ∧
        parsed.store.Means parsed.result trees
    | none => parsed.diagnostics ≠ [] := by
  induction rounds generalizing s with
  | zero => exact List.cons_ne_nil _ _
  | succ rounds ih =>
    unfold parseStatements Cursor.atEnd at hφ ⊢
    unfold Grammar.statements
    rw [hcursor.kind_current] at hφ ⊢
    by_cases heof : (Grammar.ahead s.cursor.lexemes 0).kind = .eof
    · rw [if_pos heof, if_pos (by simp [heof])]
      exact ⟨rfl, .refl hs.sound, .nil⟩
    · rw [if_neg (by simpa using heof)] at hφ
      rw [if_neg heof, if_neg (by simpa using heof)]
      by_cases hsemicolon : (Grammar.ahead s.cursor.lexemes 0).kind = .semicolon
      · rw [if_pos (by simp [hsemicolon])] at hφ
        rw [if_pos hsemicolon, if_pos (by simp [hsemicolon]), ← Cursor.lexemes_advance]
        exact ih (s := { s with cursor := s.cursor.advance 1 }) hs (hcursor.advance 1) hφ
      · rw [if_neg (by simpa using hsemicolon)] at hφ
        rw [if_neg hsemicolon, if_neg (by simpa using hsemicolon)]
        have hstatement := parses_parseStatement hsees hs hcursor
        -- what makes one statement is asked before the statements behind it
        have hshape : ((Grammar.frame Γ base.settings.maxDepth [] s.cursor.lexemes).bind fun r =>
            if (Grammar.ahead r.2 0).kind.endsStatement then
              (Grammar.statements Γ base.settings.maxDepth rounds r.2).map (r.1 :: ·)
            else none) =
            ((Grammar.frame Γ base.settings.maxDepth [] s.cursor.lexemes).bind fun r =>
              if (Grammar.ahead r.2 0).kind.endsStatement then some r else none).bind fun r =>
                (Grammar.statements Γ base.settings.maxDepth rounds r.2).map (r.1 :: ·) := by
          rw [Option.bind_assoc]
          refine Option.bind_congr fun r _ => ?_
          split <;> rfl
        rw [hshape]
        cases hrun : parseStatement scope s with
        | error e s₁ =>
          rw [hrun] at hφ
          have hφ₁ := φ.early (ages_parseStatements scope rounds s₁) hφ
          rw [FollowsWhile.of_error hstatement hrun hφ₁]
          exact List.cons_ne_nil _ _
        | ok node s₁ =>
          rw [hrun] at hφ
          have hφ₁ := φ.early (ages_parseStatements scope rounds s₁) hφ
          obtain ⟨tree, hsome, hs₁, ht, hnode⟩ := FollowsWhile.of_ok hstatement hrun hφ₁
          rw [hsome, Option.bind_some]
          have hrest := ih (hs.trans ht) hs₁ hφ
          dsimp only at hrest ⊢
          cases hstatements :
            Grammar.statements Γ base.settings.maxDepth rounds s₁.cursor.lexemes with
          | none =>
            rw [hstatements] at hrest
            exact hrest
          | some trees =>
            rw [hstatements] at hrest
            obtain ⟨hdiagnostics, ht', hmeans⟩ := hrest
            exact ⟨hdiagnostics, ht.trans ht', Store.Means.cons_iff.mpr ⟨hnode.mono ht', hmeans⟩⟩

end Statements

end TupleLang
