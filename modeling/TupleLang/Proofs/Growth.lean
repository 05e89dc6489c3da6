import TupleLang.Proofs.Construction
import TupleLang.Proofs.Operands

/-!
# Expressions that only add

An expression has no side effects if all that evaluating it does to the store is to add to it
(`Node.AddsOnly`). No expression without assignments and bodies of the host does anything else
(`Node.addsOnly_of_quiet`).
-/

namespace TupleLang

/-! ## Evaluation -/

/-- Evaluating the expression in a store that has come about from `base` by adding to it does no
more than add to it, where it ends normally. -/
def Node.AddsOnly (host : Host) (base : Store) (node : Node) : Prop :=
  ∀ depth s s' c, base.Sprouts s → node.evaluate host depth s = .ok (.normal, c) s' →
    base.Carries s s' [c]

namespace Store

variable {base s s' : Store} {host : Host} {nodes : List Node} {cells : List Cell} {depth : Nat}

/-- Expressions that only add are evaluated from left to right. -/
theorem carries_evaluateAll (hnodes : ∀ n ∈ nodes, n.AddsOnly host base) (hs : base.Sprouts s)
    (hrun : Node.evaluateAll host nodes depth s = .ok (.ready cells) s') :
    base.Carries s s' cells := by
  induction nodes generalizing s cells with
  | nil =>
    rw [Node.evaluateAll_nil] at hrun
    cases hrun
    exact .nil hs
  | cons node rest ih =>
    obtain ⟨c, s₁, cells', hnode, hrest, rfl⟩ := Node.evaluateAll_cons_eq_ready.mp hrun
    obtain ⟨hfirst, hothers⟩ := List.forall_mem_cons.mp hnodes
    have hcarries := hfirst depth s s₁ c hs hnode
    exact hcarries.trans (ih hothers hcarries.sprouts hrest)

end Store

/-! ## Expressions without assignments -/

/-- Nothing has changed but the heap, which has grown. -/
def Store.Widens (s s' : Store) : Prop := ∃ heap, s.heap.Grows heap ∧ s' = { s with heap }

namespace Body

variable {s s' : Store} {c : Cell} {name : String} {cells : List Cell}

/-- A new cell takes a place in the heap, and owns its value. -/
theorem newCell_grows {type : TypeDesc} {v : Value} (hrun : StoreM.newCell type v s = .ok c s') :
    s.Widens s' ∧ c.owned = true := by
  cases hrun
  exact ⟨⟨_, Cell.grows_make s.heap type v, rfl⟩, rfl⟩

theorem raised_ne_normal {condition : String} : raised condition s ≠ .ok (.normal, c) s' := nofun

/-- A computation that ends normally takes a new place. -/
theorem complete_grows {type : String} {n : Native} {result : Except Condition n.Carrier}
    (hrun : complete type n result s = .ok (.normal, c) s') : s.Widens s' ∧ c.owned = true := by
  cases result with
  | error condition => exact absurd hrun raised_ne_normal
  | ok v =>
    simp only [complete, StoreM.bind_eq_ok] at hrun
    obtain ⟨c', s₁, hnew, hrun⟩ := hrun
    cases hrun
    exact newCell_grows hnew

/-- A branch that is picked is there already, and a void cell is new. -/
theorem pick_grows {truth : Bool} (hrun : pick truth cells s = .ok c s') :
    s.Widens s' ∧ (c ∈ cells ∨ c.owned = true) := by
  unfold pick at hrun
  generalize hchosen : (if truth = true then cells[0]? else cells[1]?) = chosen at hrun
  cases chosen with
  | none => exact (newCell_grows hrun).imp_right .inr
  | some cell =>
    cases hrun
    refine ⟨⟨s.heap, .refl _, rfl⟩, .inl ?_⟩
    split at hchosen <;> exact List.mem_of_getElem? hchosen

/-- The other bodies that write to no place that was there before take places in the heap only, and
give one of their operands or a cell of its own. -/
theorem effect_grows {body : Body} (hquiet : body.isQuiet)
    (hconstruct : ∀ names, body ≠ .construct names)
    (hrun : body.effect name cells s = .ok (.normal, c) s') :
    s.Widens s' ∧ (c ∈ cells ∨ c.owned = true) := by
  -- a native value, once the operand has been looked at
  have hnative : ∀ {n : Native} {v : n.Carrier},
      (do return (Signal.normal, ← StoreM.newNative n v) : StoreM (Signal × Cell)) s =
        .ok (.normal, c) s' →
      s.Widens s' ∧ (c ∈ cells ∨ c.owned = true) := by
    intro n v hrun
    obtain ⟨c', s₁, hnew, hrun⟩ := StoreM.bind_eq_ok.mp hrun
    cases hrun
    exact (newCell_grows hnew).imp_right .inr
  cases body with
  | compound | assign | host => cases hquiet
  | construct names => exact absurd rfl (hconstruct names)
  | unary a r type f =>
    cases cells with
    | nil => cases hrun
    | cons x rest =>
      simp only [effect, StoreM.bind_eq_ok, StoreM.read_eq_ok] at hrun
      obtain ⟨v, _, ⟨-, rfl⟩, hrun⟩ := hrun
      exact (complete_grows hrun).imp_right .inr
  | binary a b r type f =>
    rcases cells with _ | ⟨y, _ | ⟨x, rest⟩⟩
    · cases hrun
    · cases hrun
    · simp only [effect, StoreM.bind_eq_ok, StoreM.read_eq_ok] at hrun
      obtain ⟨u, _, ⟨-, rfl⟩, v, _, ⟨-, rfl⟩, hrun⟩ := hrun
      exact (complete_grows hrun).imp_right .inr
  | choose =>
    simp only [effect] at hrun
    generalize hcells : cells.reverse = l at hrun
    cases l with
    | nil => cases hrun
    | cons condition branches =>
      simp only [StoreM.bind_eq_ok] at hrun
      obtain ⟨truth, _, hread, c', s₂, hpick, hrun⟩ := hrun
      obtain ⟨-, rfl⟩ := StoreM.read_eq_ok.mp hread
      cases hrun
      refine (pick_grows hpick).imp_right fun hcell => hcell.imp_left fun hmem => ?_
      rw [← List.mem_reverse, hcells]
      exact List.mem_cons_of_mem _ hmem
  | typeTest expected =>
    rcases cells with _ | ⟨y, _ | ⟨x, rest⟩⟩
    · cases hrun
    · cases hrun
    · simp only [effect] at hrun
      obtain ⟨type, _, hread, hmade⟩ := StoreM.bind_eq_ok.mp hrun
      obtain ⟨-, rfl⟩ := StoreM.read_eq_ok.mp hread
      exact hnative hmade
  | returns => cases cells <;> cases hrun
  | raises =>
    cases cells with
    | nil => cases hrun
    | cons x rest =>
      obtain ⟨v, _, -, hrun⟩ := StoreM.bind_eq_ok.mp hrun
      exact absurd hrun raised_ne_normal
  | signal ending =>
    cases cells with
    | nil =>
      obtain ⟨c', s₁, hnew, hrun⟩ := StoreM.bind_eq_ok.mp hrun
      cases hrun
      exact (newCell_grows hnew).imp_right .inr
    | cons x rest =>
      cases hrun
      exact ⟨⟨s.heap, .refl _, rfl⟩, .inl List.mem_cons_self⟩
  | textOf =>
    cases cells with
    | nil => cases hrun
    | cons x rest =>
      simp only [effect] at hrun
      obtain ⟨_, _, hget, hrun⟩ := StoreM.bind_eq_ok.mp hrun
      cases hget
      obtain ⟨text, _, htext, hmade⟩ := StoreM.bind_eq_ok.mp hrun
      obtain ⟨-, rfl⟩ := StoreM.ofExcept_eq_ok.mp htext
      exact hnative hmade
  | length =>
    cases cells with
    | nil => cases hrun
    | cons x rest =>
      simp only [effect] at hrun
      obtain ⟨_, _, hget, hrun⟩ := StoreM.bind_eq_ok.mp hrun
      cases hget
      obtain ⟨n, _, hlength, hmade⟩ := StoreM.bind_eq_ok.mp hrun
      obtain ⟨-, rfl⟩ := StoreM.ofExcept_eq_ok.mp hlength
      exact hnative hmade
  | typeOf =>
    cases cells with
    | nil => cases hrun
    | cons x rest => exact hnative hrun

end Body

namespace Store

variable {base s s₁ s' : Store} {host : Host} {nodes : List Node} {cells : List Cell} {c : Cell}
  {depth : Nat}

/-- A new void cell is carried. -/
theorem carries_newVoid (hs : base.Sprouts s) (hrun : StoreM.newVoid s = .ok c s') :
    base.Carries s s' [c] := by
  have hbrings := (brings_newVoid hs.sound hrun).1
  cases hrun
  exact ⟨hs.grow (Cell.grows_make s.heap .void .void), ⟨0, by simpa using hbrings⟩, by simp⟩

/-- Branches that are not evaluated are carried as void cells. -/
theorem carries_skipBranches (hs : base.Sprouts s)
    (hrun : Node.skipBranches nodes s = .ok (.ready cells) s') : base.Carries s s' cells := by
  induction nodes generalizing s cells with
  | nil =>
    cases hrun
    exact .nil hs
  | cons node rest ih =>
    rw [Node.skipBranches] at hrun
    obtain ⟨void, s₁, hvoid, hrun⟩ := StoreM.bind_eq_ok.mp hrun
    obtain ⟨cells', hrest, rfl⟩ := Node.cons_eq_ready.mp hrun
    have hcarries := carries_newVoid hs hvoid
    exact hcarries.trans (ih hcarries.sprouts hrest)

/-- The branches behind a condition. -/
theorem carries_evaluateBranches {truth : Bool} (hnodes : ∀ n ∈ nodes, n.AddsOnly host base)
    (hs : base.Sprouts s)
    (hrun : Node.evaluateBranches host truth nodes depth s = .ok (.ready cells) s') :
    base.Carries s s' cells := by
  cases nodes with
  | nil =>
    rw [Node.evaluateBranches] at hrun
    cases hrun
    exact .nil hs
  | cons branch rest =>
    obtain ⟨hbranch, hrest⟩ := List.forall_mem_cons.mp hnodes
    cases truth with
    | true =>
      rw [Node.evaluateBranches_true, Node.operand_eq_ready] at hrun
      obtain ⟨c, s₁, hnode, hrun⟩ := hrun
      obtain ⟨cells', hskipped, rfl⟩ := Node.cons_eq_ready.mp hrun
      have hcarries := hbranch depth s s₁ c hs hnode
      exact hcarries.trans (carries_skipBranches hcarries.sprouts hskipped)
    | false =>
      rw [Node.evaluateBranches] at hrun
      obtain ⟨void, s₁, hvoid, hrun⟩ := StoreM.bind_eq_ok.mp hrun
      obtain ⟨cells', hothers, rfl⟩ := Node.cons_eq_ready.mp hrun
      have hcarries := carries_newVoid hs hvoid
      exact hcarries.trans (carries_evaluateAll hrest hcarries.sprouts hothers)

/-- A condition and the branch that it chooses. -/
theorem carries_evaluateChoice {name : String} (hnodes : ∀ n ∈ nodes, n.AddsOnly host base)
    (hs : base.Sprouts s)
    (hrun : Node.evaluateChoice host name nodes depth s = .ok (.ready cells) s') :
    base.Carries s s' cells := by
  cases nodes with
  | nil =>
    rw [Node.evaluateChoice] at hrun
    cases hrun
  | cons condition branches =>
    obtain ⟨hcondition, hbranches⟩ := List.forall_mem_cons.mp hnodes
    rw [Node.evaluateChoice_cons, Node.operand_eq_ready] at hrun
    obtain ⟨c, s₁, hnode, hrun⟩ := hrun
    obtain ⟨truth, s₂, hread, hbranch⟩ := StoreM.bind_eq_ok.mp hrun
    obtain ⟨-, rfl⟩ := StoreM.read_eq_ok.mp hread
    obtain ⟨cells', hchosen, rfl⟩ := Node.cons_eq_ready.mp hbranch
    have hcarries := hcondition depth s s₂ c hs hnode
    exact hcarries.trans (carries_evaluateBranches hbranches hcarries.sprouts hchosen)

/-- A leaf yields a handle on what was there, or a copy of a scalar of its own. -/
theorem Sprouts.yieldCell (hs : base.Sprouts s) {leaf : Cell} (hleaf : leaf.Settled base)
    (hrun : Node.yieldCell leaf s = .ok c s') :
    base.Sprouts s' ∧ (c.owned = false → c.Settled base) := by
  obtain ⟨_, _, hget, hrun⟩ := StoreM.bind_eq_ok.mp hrun
  cases hget
  split at hrun
  · cases hrun
    exact ⟨hs, fun _ => hleaf⟩
  · unfold StoreM.onHeap StoreM.change Cell.reborrow at hrun
    by_cases howned : leaf.owned = true
    · simp only [howned, if_true] at hrun
      cases hrun
      exact ⟨hs.grow (Cell.grows_make s.heap leaf.type (leaf.value s.heap)), nofun⟩
    · simp only [howned, Bool.false_eq_true, if_false] at hrun
      cases hrun
      exact ⟨hs, fun _ => hleaf⟩

/-- A body that writes to no place that was there before only adds to the store. -/
theorem Carries.effect {r : Store} {body : Body} {name : String} (h : base.Carries r s cells)
    (hbase : base.Rooted) (hr : base.Extends r) (hquiet : body.isQuiet)
    (hrun : body.effect name cells.reverse s = .ok (.normal, c) s') :
    base.Sprouts s' ∧ (c.owned = false → c.Settled base) := by
  by_cases hconstruct : ∃ names, body = .construct names
  · obtain ⟨names, rfl⟩ := hconstruct
    have hlength : names.length ≤ cells.length := by
      by_contra hshort
      rw [Body.effect, if_neg (by simpa using hshort)] at hrun
      cases hrun
    -- a constructor leaves out the operands in front of those that it takes
    rw [← List.take_append_drop (cells.length - names.length) cells] at h hrun
    have hkept : names.length = (cells.drop (cells.length - names.length)).length := by
      rw [List.length_drop]
      omega
    have hbuilt := h.construct hbase hr hkept name
    rw [hrun] at hbuilt
    obtain ⟨-, hsprouts, k, t, hnew⟩ := hbuilt
    exact ⟨hsprouts, by simp [hnew.owned]⟩
  · obtain ⟨⟨heap, hgrows, rfl⟩, hcell⟩ :=
      Body.effect_grows hquiet (fun names hnames => hconstruct ⟨names, hnames⟩) hrun
    refine ⟨h.sprouts.grow hgrows, fun howned => ?_⟩
    rcases hcell with hmem | hown
    · exact h.settled c (List.mem_reverse.mp hmem) howned
    · simp [hown] at howned

/-- An action that writes to no place that was there before, applied to operands that have been
evaluated. -/
theorem sprouts_of_applied {binding : Binding} {operands : Operands} (hbase : base.Rooted)
    (hs : base.Sprouts s) (hquiet : binding.action.body.isQuiet)
    (hrun : (match operands with
      | .interrupted signal cell => return (signal, cell)
      | .ready cells => binding.action.apply host binding.name cells :
        StoreM (Signal × Cell)) s₁ = .ok (.normal, c) s')
    (hinterrupted : ∀ signal cell, operands = .interrupted signal cell → ¬signal.isNormal)
    (hready : ∀ cells, operands = .ready cells → base.Carries s s₁ cells) :
    base.Sprouts s' ∧ (c.owned = false → c.Settled base) := by
  cases operands with
  | interrupted signal cell =>
    cases hrun
    exact absurd rfl (hinterrupted _ _ rfl)
  | ready cells =>
    have hhost : ∀ label, binding.action.body ≠ .host label := by
      intro label hlabel
      rw [hlabel] at hquiet
      cases hquiet
    simp only [Action.apply_eq hhost] at hrun
    exact (hready cells rfl).effect hbase hs.kept hquiet hrun

/-- What such an expression brings is in flight or lost in any case. -/
theorem carries_of_quiet {node : Node} (hquiet : node.Quiet) (hs : base.Sprouts s)
    (hrun : node.evaluate host depth s = .ok (.normal, c) s')
    (h : base.Sprouts s' ∧ (c.owned = false → c.Settled base)) : base.Carries s s' [c] := by
  obtain ⟨lost, hbrings, -⟩ := (evaluates hquiet hs.sound hrun).yields
  exact ⟨h.1, ⟨lost, hbrings⟩, by simpa using h.2⟩

end Store

/-- An expression without assignments and bodies of the host, the leaves of which are there, only
adds. -/
theorem Node.addsOnly_of_quiet {base : Store} {host : Host} (hbase : base.Rooted) {node : Node}
    (h : node.Forms (Cell.Settled base) fun b => b.action.body.isQuiet) :
    node.AddsOnly host base := by
  induction h with
  | value hleaf =>
    intro depth s s' c hs hrun
    refine Store.carries_of_quiet (.value trivial) hs hrun ?_
    simp only [evaluate, StoreM.bind_eq_ok] at hrun
    obtain ⟨_, s₁, hdepth, c', s₂, hyield, hrun⟩ := hrun
    cases hrun
    rw [Store.eq_of_checkDepth hdepth] at hyield
    exact hs.yieldCell hleaf hyield
  | @apply binding children hbody hchildren ih =>
    intro depth s s' c hs hrun
    have hquiet : ∀ n ∈ children, n.Quiet := fun n hn => (hchildren n hn).mono fun _ _ => trivial
    refine Store.carries_of_quiet (.apply hbody hquiet) hs hrun ?_
    simp only [evaluate, StoreM.bind_eq_ok] at hrun
    obtain ⟨_, s₁, hdepth, hrun⟩ := hrun
    rw [Store.eq_of_checkDepth hdepth] at hrun
    have hevaluates : ∀ n ∈ children, ∀ (s s' : Store) signal c, s.Sound →
        n.evaluate host (depth + 1) s = .ok (signal, c) s' → s.Evaluates n s' signal c :=
      fun n hn s s' signal c hs hrun => Store.evaluates (hquiet n hn) hs hrun
    -- operands of a conditional are gathered in their own way, and the action is applied in one
    split at hrun
    · simp only [StoreM.bind_eq_ok] at hrun
      obtain ⟨operands, s₂, hoperands, hrun⟩ := hrun
      refine Store.sprouts_of_applied hbase hs hbody hrun (fun signal cell heq => ?_)
        fun cells heq => ?_
      · rw [heq] at hoperands
        exact (Store.gathers_evaluateChoice hevaluates hs.sound hoperands).1.2.1
      · exact Store.carries_evaluateChoice ih hs (heq ▸ hoperands)
    · simp only [StoreM.bind_eq_ok] at hrun
      obtain ⟨operands, s₂, hoperands, hrun⟩ := hrun
      refine Store.sprouts_of_applied hbase hs hbody hrun (fun signal cell heq => ?_)
        fun cells heq => ?_
      · rw [heq] at hoperands
        exact (Store.gathers_evaluateAll hevaluates hs.sound hoperands).2.1
      · exact Store.carries_evaluateAll ih hs (heq ▸ hoperands)

end TupleLang
