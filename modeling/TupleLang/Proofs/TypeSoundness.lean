import TupleLang.Proofs.QuietBranches
import TupleLang.Proofs.TypedParsing

/-!
# Type soundness

The type of a node foretells the type of its value. This is so for what is parsed in a store without
actions besides the language's own, whose attributes hold what their types say, if every conditional
has two branches of one type, and if no branch changes what its condition reads
(`static_types_predict_values`). Then no operand is missing or misread; only `len` may find that its
operand has no elements.

Attributes hold what their types say throughout in any case, whatever the conditionals do
(`Store.Faithful.lasts`).

A branch that assigns to the condition spoils it: the conditional comes to a void cell, whatever its
type (`type_of_lost_branch_is_wrong`).
-/

namespace TupleLang

open Store (typing)

/-- Every conditional has two branches, and these are of the same type. -/
def Node.Even : Node → Prop :=
  Node.Each fun b children => b.op.isConditional = true →
    b.op ≠ .ifThen ∧ ∃ c t e, children = [c, t, e] ∧ t.type = e.type

/-- The conditionals with two branches. -/
theorem Operator.of_isConditional {op : Operator} (h : op.isConditional = true)
    (hne : op ≠ .ifThen) : op = .ifThenElse ∨ op = .select := by
  cases op <;> first | exact .inl rfl | exact .inr rfl | exact absurd rfl hne | cases h

/-! ## Evaluation keeps types of places -/

namespace Store

/-- Values on their way are in places of their types. -/
def typedEvaluating (host : Host) : Evaluating typing host where
  LeafOk w c := c.Placed w
  ValueOk w c := c.Placed w
  Bound b := ∃ types type, b.action.body.Types types type
  leaf_lasts := placed_lasts
  value_lasts := placed_lasts
  yield hc := (keeps_yieldCell_typing hc).weaken fun _ _ _ h => h.1
  void w := typingActing.void w
  apply := by
    rintro w b cells ⟨types, type, h⟩ hcells
    exact keeps_apply_placed h hcells b.name

/-- A place that is taken for a branch left out holds nothing. -/
theorem Typed.atBranch {w : PlaceTypes} {s : Store} (hs : s.Typed w) (truth : Bool) :
    ∃ v, typing.Later w v ∧ (s.atBranch truth).Typed v := by
  cases truth with
  | true => exact ⟨w, typing.refl w, hs⟩
  | false =>
    obtain ⟨v, hlater, hmade, -⟩ := Typed.make hs Value.suits_void
    exact ⟨v, hlater, hmade⟩

end Store

namespace Node.Typed

variable {w : PlaceTypes} {node : Node} {host : Host} {d : Nat} {s : Store}

/-- Typed nodes have the form that evaluation asks for. -/
theorem forms (h : node.Typed w) : node.Forms (·.Placed w) (Store.typedEvaluating host).Bound := by
  induction h with
  | value hcell => exact .value hcell
  | apply _ hbody _ _ ih => exact .apply ⟨_, _, hbody⟩ ih

/-- Evaluation gives cells in places of their types, whatever becomes of conditionals. -/
theorem keeps (h : node.Typed w) (host : Host) (d : Nat) :
    typing.Keeps w (node.evaluate host d) (fun v r => r.2.Placed v) fun _ => True :=
  (Store.typedEvaluating host).evaluate h.forms d

theorem keeps_all {nodes : List Node} (h : ∀ n ∈ nodes, n.Typed w) (host : Host) (d : Nat) :
    typing.Keeps w (Node.evaluateAll host nodes d) (Store.typedEvaluating host).OperandsOk
      fun _ => True :=
  (Store.typedEvaluating host).evaluateAll (fun n hn d => (h n hn).keeps host d) d

/-- What evaluation leaves behind, if it comes to a cell. -/
theorem of_evaluate (h : node.Typed w) (hs : s.Typed w) {signal : Signal} {c : Cell} {s' : Store}
    (hrun : node.evaluate host d s = .ok (signal, c) s') :
    ∃ v, typing.Later w v ∧ s'.Typed v ∧ c.Placed v := by
  have hleads := h.keeps host d w (typing.refl w) s hs
  simp only [Regime.Leads, hrun] at hleads
  exact hleads

theorem of_evaluateAll {nodes : List Node} (h : ∀ n ∈ nodes, n.Typed w) (hs : s.Typed w)
    {cells : List Cell} {s' : Store}
    (hrun : Node.evaluateAll host nodes d s = .ok (.ready cells) s') :
    ∃ v, typing.Later w v ∧ s'.Typed v ∧ ∀ c ∈ cells, c.Placed v := by
  have hleads := keeps_all h host d w (typing.refl w) s hs
  simp only [Regime.Leads, hrun] at hleads
  exact hleads

end Node.Typed

/-! ## Tasks -/

namespace Task

variable {host : Host} {t u : Task} {w : PlaceTypes}

/-- A typed tree, in a store with typed places. -/
structure Typed (w : PlaceTypes) (t : Task) : Prop where
  node : t.node.Typed w
  store : t.store.Typed w

/-- A task enters typed tasks only. -/
theorem Typed.enters (h : t.Typed w) (henters : Enters host t u) :
    ∃ v, typing.Later w v ∧ u.Typed v := by
  -- the node is an operand, so that only the store is of interest
  suffices hstore : ∃ v, typing.Later w v ∧ u.store.Typed v by
    obtain ⟨v, hlater, hs⟩ := hstore
    obtain ⟨b, children, hnode, hmem⟩ := henters.exists_mem
    have htree := hnode ▸ h.node
    cases htree with | apply _ _ _ hchildren =>
    exact ⟨v, hlater, (hchildren _ hmem).lasts hlater, hs⟩
  obtain ⟨hnode, hstore⟩ := h
  cases henters with
  | operand _ _ hfront =>
    cases hnode with | apply _ _ _ hchildren =>
    obtain ⟨v, hlater, hs, -⟩ := Node.Typed.of_evaluateAll
      (fun n hn => hchildren n (List.mem_append_left _ hn)) hstore hfront
    exact ⟨v, hlater, hs⟩
  | condition => exact ⟨w, typing.refl w, hstore⟩
  | @branch _ _ _ truth htakes =>
    cases htakes with | @intro b c t branch e d s s₁ _ _ _ _ hc _ _ =>
    unfold Node.conditional at hnode
    cases hnode with | apply _ _ _ hchildren =>
    obtain ⟨v, hv, hs, -⟩ := (hchildren c List.mem_cons_self).of_evaluate hstore hc
    obtain ⟨x, hx, hs⟩ := hs.atBranch truth
    exact ⟨x, typing.trans hv hx, hs⟩

/-- What a typed task comes to is typed. -/
theorem Typed.visits (h : t.Typed w) (hvisits : Visits host t u) :
    ∃ v, typing.Later w v ∧ u.Typed v := by
  induction hvisits with
  | refl => exact ⟨w, typing.refl w, h⟩
  | tail _ henters ih =>
    obtain ⟨v, hv, hmid⟩ := ih
    obtain ⟨x, hx, hlast⟩ := hmid.enters henters
    exact ⟨x, typing.trans hv hx, hlast⟩

/-- The task asks for the number of elements of a value that has none, and fails with `e`. -/
def LacksLength (host : Host) (t : Task) (e : Error) : Prop :=
  ∃ b x c s, t.node = .apply b [x] ∧ b.action ∈ Builtin.catalogue ∧ b.action.name = "len" ∧
    x.evaluate host (t.depth + 1) t.store = .ok (.normal, c) s ∧ Body.lengthOf s c = .error e

/-- The task comes to a value of the type of its node if it ends normally. If it fails, that is for
a reason which types say nothing of, or because there is no number of elements. -/
structure Sound (host : Host) (t : Task) : Prop where
  type : ∀ c s, t.run host = .ok (.normal, c) s → c.type = t.node.type
  error : ∀ e s, t.run host = .error e s →
    e.OfEvaluation ∨ ∃ u, Visits host t u ∧ u.LacksLength host e

/-- A task comes to what a task comes to that it enters and that does not end normally. -/
theorem Sound.of_enters (h : u.Sound host) (henters : Enters host t u)
    (hrun : t.run host = u.run host) (hinterrupts : Interrupts (u.run host)) : t.Sound host where
  type c s ht := absurd (hrun ▸ ht) (hinterrupts c s)
  error e s ht := by
    rw [hrun] at ht
    exact (h.error e s ht).imp_right fun ⟨v, hv, hlacks⟩ => ⟨v, .head henters hv, hlacks⟩

/-- Nesting that is too deep is an error that types say nothing of. -/
theorem sound_of_deep (hd : t.store.settings.allows t.depth = false) : t.Sound host := by
  have hcheck : Node.checkDepth t.depth t.store =
      .error (.depthExceeded t.depth t.store.settings.maxDepth) t.store := by
    simp only [Node.checkDepth, bind, EStateM.bind, get, getThe, MonadStateOf.get, EStateM.get, hd]
    rfl
  have hrun : t.run host = .error (.depthExceeded t.depth t.store.settings.maxDepth) t.store := by
    unfold run
    cases t.node <;> rw [Node.evaluate] <;> simp only [bind, EStateM.bind, hcheck]
  refine ⟨fun c s h => ?_, fun e s h => ?_⟩
  · rw [hrun] at h
    cases h
  · rw [hrun] at h
    cases h
    exact .inl trivial

/-- A leaf comes to a value of its type. -/
theorem sound_of_leaf {cell : Cell} {label : Option String} {d : Nat} {s : Store}
    (hcell : cell.Placed w) (hs : s.Typed w) : Sound host ⟨.value cell label, d, s⟩ := by
  have hkeeps : typing.Keeps w ((Node.value cell label).evaluate host d)
      (fun _ r => r.2.type = cell.type) Error.OfEvaluation := by
    rw [Node.evaluate]
    refine .andThen ?_ fun _ v hv =>
      .bind (Store.keeps_yieldCell_typing (Store.placed_lasts hv hcell)) ?_
    · exact .get_bind fun _ _ _ _ => .ite (fun _ => .pure fun _ _ => trivial) fun _ =>
        .throw trivial
    · exact fun _ _ _ hc => .pure fun _ _ => hc.2
  have hleads := hkeeps w (typing.refl w) s hs
  refine ⟨fun c s' hrun => ?_, fun e s' hrun => ?_⟩
  · simp only [run] at hrun
    simp only [Regime.Leads, hrun] at hleads
    obtain ⟨-, -, -, htype⟩ := hleads
    exact htype
  · simp only [run] at hrun
    simp only [Regime.Leads, hrun] at hleads
    exact .inl hleads.1

/-- The only function of the language that asks for a number of elements is `len`. -/
theorem name_of_length {a : Action} (ha : a ∈ Builtin.catalogue) (hbody : a.body = .length) :
    a.name = "len" := by
  have hall : (Builtin.catalogue.all fun a =>
      match a.body with
      | .length => a.name == "len"
      | _ => true) = true := by decide +kernel
  have hname := List.all_eq_true.mp hall a ha
  rw [hbody] at hname
  exact beq_iff_eq.mp hname

variable {b : Binding} {children : List Node} {d : Nat} {s : Store}

/-- An operator that is no conditional is applied to values of the types of its operands. -/
theorem Typed.sound_of_operator (h : Typed w ⟨.apply b children, d, s⟩)
    (hop : b.op.isConditional = false) (hd : s.settings.allows d = true)
    (hparts : ∀ u, Enters host ⟨.apply b children, d, s⟩ u → u.Sound host) :
    Sound host ⟨.apply b children, d, s⟩ := by
  obtain ⟨hnode, hstore⟩ := h
  cases hnode with | apply hown hbody hchoose hchildren =>
  rcases Node.evaluateAll_cases host children (d + 1) s with
    ⟨cells, s₁, hready⟩ | ⟨front, child, rest, cells, s₁, rfl, hfront, hchild⟩
  · have hrun : run host ⟨.apply b children, d, s⟩ = b.action.apply host b.name cells s₁ :=
      Node.evaluate_of_ready hop hd hready
    obtain ⟨v, -, hs₁, hplaced⟩ := Node.Typed.of_evaluateAll hchildren hstore hready
    have htypes : cells.map Cell.type = children.map Node.type := by
      refine Node.types_of_ready hready fun front child rest cells₁ s₂ hsplit hfront => ?_
      subst hsplit
      exact (hparts _ (.operand hop hd hfront)).type
    have hother : b.action.body ≠ .choose := by
      intro hbody
      rw [hbody, hop] at hchoose
      cases hchoose
    have hleads := Store.leads_apply_typing host b.name hbody hother hs₁ hplaced htypes
    refine ⟨fun c s' h => ?_, fun e s' h => ?_⟩
    · rw [hrun] at h
      simp only [Regime.Leads, h] at hleads
      obtain ⟨-, -, -, -, htype⟩ := hleads
      exact htype rfl
    · rw [hrun] at h
      simp only [Regime.Leads, h] at hleads
      rcases hleads.1 with hother | ⟨hlength, c, rfl, herror⟩
      · exact .inl hother
      -- the one operand has come to the value that has no elements
      refine .inr ⟨_, .refl, ?_⟩
      obtain ⟨x, rfl, -⟩ := List.map_eq_singleton_iff.mp htypes.symm
      obtain ⟨c', s', cells', hx, hnil, hcells⟩ := Node.evaluateAll_cons_eq_ready.mp hready
      rw [Node.evaluateAll_nil] at hnil
      cases hnil
      cases hcells
      exact ⟨b, x, c, s₁, rfl, hown, name_of_length hown hlength, hx, herror⟩
  · exact (hparts _ (.operand hop hd hfront)).of_enters (.operand hop hd hfront)
      (Node.evaluate_of_interrupts hop hd front hfront hchild) hchild

/-- A conditional that is decided comes to the value of a branch. -/
theorem Typed.sound_of_conditional {c t e : Node} (hc : c.Typed w) (hs : s.Typed w)
    (hchooses : Node.Chooses b (some e)) (hbool : c.type = .leaf "bool") (ht : t.type = b.type)
    (he : e.type = b.type) (hd : s.settings.allows d = true)
    (hdecided : Decided host ⟨.conditional b c t (some e), d, s⟩)
    (hparts : ∀ u, Enters host ⟨.conditional b c t (some e), d, s⟩ u → u.Sound host) :
    Sound host ⟨.conditional b c t (some e), d, s⟩ := by
  have henters : Enters host ⟨.conditional b c t (some e), d, s⟩ ⟨c, d + 1, s⟩ :=
    .condition hchooses.isConditional hd
  by_cases hrun : Interrupts (c.evaluate host (d + 1) s)
  · exact (hparts _ henters).of_enters henters
      (Node.evaluate_of_condition_interrupts hchooses hd hrun) hrun
  obtain ⟨x, s₁, hrun⟩ : ∃ x s₁, c.evaluate host (d + 1) s = .ok (.normal, x) s₁ := by
    simpa [Interrupts] using hrun
  -- the condition is a truth value, and so it can be read
  obtain ⟨v, -, hs₁, hplaced⟩ := hc.of_evaluate hs hrun
  have hx : x.admits .bool = true := by
    rw [Cell.admits, (hparts _ henters).type x s₁ hrun, hbool]
    rfl
  obtain ⟨truth, hread⟩ := hs₁.exists_read hplaced hx
  obtain ⟨branch, hchosen⟩ : ∃ branch, Node.chosen? t (some e) truth = some branch := by
    cases truth <;> exact ⟨_, rfl⟩
  have hbranch : branch.type = b.type := by
    cases truth <;> cases hchosen
    · exact he
    · exact ht
  have htakes : Takes host ⟨.conditional b c t (some e), d, s⟩ x truth
      ⟨branch, d + 1, s₁.atBranch truth⟩ := .intro hchooses.isConditional hd hrun hread hchosen
  by_cases hend : Interrupts (branch.evaluate host (d + 1) (s₁.atBranch truth))
  · exact (hparts _ (.branch htakes)).of_enters (.branch htakes)
      (Node.evaluate_of_branch_interrupts hchooses hd hrun hread hchosen hend) hend
  obtain ⟨y, s₂, hend⟩ : ∃ y s₂,
      branch.evaluate host (d + 1) (s₁.atBranch truth) = .ok (.normal, y) s₂ := by
    simpa [Interrupts] using hend
  have hagain := hdecided x truth _ htakes y s₂ hend
  have hvalue : run host ⟨.conditional b c t (some e), d, s⟩ =
      .ok (.normal, y) (s₂.pastBranch truth (some e)) := by
    refine (Node.evaluate_of_branch_normal hchooses hd hrun hread hchosen hend).trans ?_
    rw [Action.apply_choose (body_of_if hchooses.action hchooses.name)
      ((Store.read_pastBranch ..).trans hagain)]
    cases truth <;> rfl
  refine ⟨fun c' s' h => ?_, fun e s' h => ?_⟩
  · rw [hvalue] at h
    cases h
    exact ((hparts _ (.branch htakes)).type y s₂ hend).trans hbranch
  · rw [hvalue] at h
    cases h

/-- A task that is decided is sound if all tasks that it enters are. -/
theorem Typed.sound_of_parts (h : t.Typed w) (heven : t.node.Even) (hdecided : t.Decided host)
    (hparts : ∀ u, Enters host t u → u.Sound host) : t.Sound host := by
  obtain ⟨node, d, s⟩ := t
  by_cases hd : s.settings.allows d = true
  swap
  · exact sound_of_deep (by simpa using hd)
  cases node with
  | value cell label =>
    obtain ⟨hnode, hstore⟩ := h
    cases hnode with | value hcell =>
    exact sound_of_leaf hcell hstore
  | apply b children =>
    cases hop : b.op.isConditional with
    | false => exact h.sound_of_operator hop hd hparts
    | true =>
      obtain ⟨hnode, hstore⟩ := h
      cases hnode with | apply hown hbody hchoose hchildren =>
      cases heven with | apply heven _ =>
      obtain ⟨hifThen, c, t, e, rfl, hsame⟩ := heven hop
      have hname : b.action.name = "if" := by
        rw [← beq_iff_eq, ← Builtin.isChoose_of_mem_catalogue hown, hchoose, hop]
      obtain ⟨hbool, htype⟩ : c.type = .leaf "bool" ∧ t.type = b.type := by
        rw [body_of_if hown hname] at hbody
        generalize htypes : [c, t, e].map Node.type = types at hbody
        cases hbody
        obtain ⟨hbool, hrest⟩ := List.cons.inj htypes
        exact ⟨hbool, (List.cons.inj hrest).1⟩
      exact Typed.sound_of_conditional (hchildren c (by simp)) hstore
        ⟨.inr ⟨Operator.of_isConditional hop hifThen, rfl⟩, hown, hname⟩ hbool htype
        (hsame ▸ htype) hd hdecided hparts

/-- A typed task is sound if all conditionals that it comes to are decided. -/
theorem Typed.sound {t : Task} {w : PlaceTypes} (h : t.Typed w) (heven : t.node.Even)
    (hdecided : ∀ u, Visits host t u → u.Decided host) : t.Sound host := by
  refine h.sound_of_parts heven (hdecided t .refl) fun u henters => ?_
  obtain ⟨v, -, hu⟩ := h.enters henters
  exact hu.sound (henters.each heven) fun x hx => hdecided x (.head henters hx)
termination_by sizeOf t.node
decreasing_by exact henters.sizeOf_lt

end Task

/-! ## Expressions -/

/-- Without a number of elements there is a value of another kind, or a tuple that is gone. -/
theorem Body.error_of_lengthOf {s : Store} {c : Cell} {e : Error} (h : lengthOf s c = .error e) :
    e = .wrongType "sized value" c.type ∨ ∃ id, e = .notFound (.tuple id) := by
  unfold lengthOf at h
  split at h
  case h_5 id _ =>
    unfold Store.tuple at h
    split at h
    · cases h
    · cases h
      exact .inr ⟨id, rfl⟩
  case h_6 =>
    cases h
    exact .inl rfl
  all_goals cases h

namespace Store

variable {s : Store} {w : PlaceTypes} {e : Expression} {host : Host} {t : Task}

/-- The tasks that typed statements come to are typed. -/
theorem Typed.of_visits (hs : s.Typed w) (hroots : ∀ n ∈ e.roots, n.Typed w)
    (h : e.Visits host s t) : ∃ v, typing.Later w v ∧ t.Typed v := by
  obtain ⟨front, root, rest, outcomes, s₁, hsplit, hfront, -, hvisits⟩ := h
  have hleads := (typedEvaluating host).evaluateRoots (w := w)
    (fun n (hn : n ∈ front) => (hroots n (by simp [hsplit, hn])).forms) w (typing.refl w) s hs
  simp only [Regime.Leads, hfront] at hleads
  obtain ⟨v, hv, hs₁, -⟩ := hleads
  have hroot : root.Typed v := (hroots root (by simp [hsplit])).lasts hv
  have htask : Task.Typed v ⟨root, 1, s₁⟩ := ⟨hroot, hs₁⟩
  obtain ⟨x, hx, ht⟩ := htask.visits hvisits
  exact ⟨x, typing.trans hv hx, ht⟩

section Parsed

variable (hbasic : s.Basic) (hapart : s.Apart) (hfaithful : s.Faithful) {scope : TupleId}
  {cursor : Cursor} (he : (Expression.parse s scope cursor).result = .ok e) (host : Host)

include hbasic hapart hfaithful he

theorem Faithful.exists_typed_parsed : ∃ w, (Expression.parse s scope cursor).store.Typed w ∧
    ∀ n ∈ e.roots, n.Typed w := by
  obtain ⟨w, hs⟩ := hfaithful.exists_typed hbasic hapart
  obtain ⟨v, -, hparsed, hroots⟩ := hs.typed_of_parse he
  exact ⟨v, hparsed, hroots⟩

/-- Attributes hold what their types say all along, whatever is evaluated. -/
theorem Faithful.lasts :
    (∀ t, e.Visits host (Expression.parse s scope cursor).store t →
      ((t.node.evaluate host t.depth).after t.store).Faithful) ∧
    ((e.evaluate host).after (Expression.parse s scope cursor).store).Faithful := by
  obtain ⟨w, hparsed, hroots⟩ := hfaithful.exists_typed_parsed hbasic hapart he
  refine ⟨fun t ht => ?_, ?_⟩
  · obtain ⟨v, -, hnode, hstore⟩ := hparsed.of_visits hroots ht
    obtain ⟨x, -, hs⟩ := (hnode.keeps host t.depth v (typing.refl v) t.store hstore).after
    exact hs.faithful
  · have hkeeps := (typedEvaluating host).evaluateRoots (w := w)
      fun n (hn : n ∈ e.roots) => (hroots n hn).forms
    obtain ⟨x, -, hs⟩ := (hkeeps w (typing.refl w) _ hparsed).after
    exact hs.faithful

/-- Types foretell values. In a basic store whose attributes hold what their types say, let an
expression be parsed that has conditionals with two branches of one type only, and let no branch
that is evaluated change what its condition reads. Whenever a node ends normally, its value has the
type of the node and the form that this type calls for. Attributes hold what their types say all
along. No operand is missing, no action lacks a body, and of all actions only `len` meets with a
value of the wrong type. -/
theorem static_types_predict_values (heven : ∀ n ∈ e.roots, n.Even)
    (hdecided : ∀ t, e.Visits host (Expression.parse s scope cursor).store t → t.Decided host) :
    (∀ t, e.Visits host (Expression.parse s scope cursor).store t →
      (∀ c s', t.node.evaluate host t.depth t.store = .ok (.normal, c) s' →
        c.type = t.node.type ∧ (c.value s'.heap).Suits c.type) ∧
      ((t.node.evaluate host t.depth).after t.store).Faithful) ∧
    ((e.evaluate host).after (Expression.parse s scope cursor).store).Faithful ∧
    ∀ error s', e.evaluate host (Expression.parse s scope cursor).store = .error error s' →
      (∀ action, error ≠ .stackUnderflow action) ∧ (∀ label, error ≠ .notFound (.body label)) ∧
      ∀ requested actual, error = .wrongType requested actual →
        ∃ t, e.Visits host (Expression.parse s scope cursor).store t ∧
          t.LacksLength host error := by
  obtain ⟨w, hparsed, hroots⟩ := hfaithful.exists_typed_parsed hbasic hapart he
  obtain ⟨hall, hend⟩ := hfaithful.lasts hbasic hapart he host
  -- every task that the expression comes to is typed, and sound
  have hsound : ∀ t, e.Visits host (Expression.parse s scope cursor).store t →
      ∃ v, t.Typed v ∧ t.Sound host := by
    intro t ht
    obtain ⟨v, -, htyped⟩ := hparsed.of_visits hroots ht
    exact ⟨v, htyped, htyped.sound (ht.each heven) fun u hu => hdecided u (ht.trans hu)⟩
  refine ⟨fun t ht => ⟨fun c s' hrun => ?_, hall t ht⟩, hend, fun error s' hrun => ?_⟩
  · obtain ⟨v, htyped, hsound⟩ := hsound t ht
    obtain ⟨x, -, hs', hc⟩ := htyped.node.of_evaluate htyped.store hrun
    exact ⟨hsound.type c s' hrun, hs'.suits hc⟩
  · obtain ⟨front, root, rest, outcomes, s₁, hsplit, hfront, hon, hroot⟩ :=
      Expression.exists_of_error hrun
    have hvisits : e.Visits host (Expression.parse s scope cursor).store ⟨root, 1, s₁⟩ :=
      ⟨front, root, rest, outcomes, s₁, hsplit, hfront, hon, .refl⟩
    obtain ⟨v, -, hsound⟩ := hsound _ hvisits
    rcases hsound.error error s' hroot with hother | ⟨u, hu, hlacks⟩
    · refine ⟨?_, ?_, fun requested actual h => ?_⟩
      · rintro action rfl
        cases hother
      · rintro label rfl
        cases hother
      · subst h
        cases hother
    · have hlength := hlacks
      obtain ⟨-, -, c, s₂, -, -, -, -, hlength⟩ := hlength
      refine ⟨?_, ?_, fun _ _ _ => ⟨u, hvisits.trans hu, hlacks⟩⟩
      all_goals
        rintro _ rfl
        rcases Body.error_of_lengthOf hlength with h | ⟨_, h⟩ <;> cases h

end Parsed

end Store

/-! ## A switch -/

/-- Registering actions of the language leaves a tuple basic. -/
theorem Tuple.Basic.insertActions {actions : List Action} {t t' : Tuple} (h : t.Basic)
    (hactions : ∀ a ∈ actions, a ∈ Builtin.catalogue)
    (hrun : actions.foldlM Tuple.insertAction t = .ok t') : t'.Basic := by
  induction actions generalizing t with
  | nil =>
    cases hrun
    exact h
  | cons a rest ih =>
    obtain ⟨ha, hrest⟩ := List.forall_mem_cons.mp hactions
    rw [List.foldlM_cons] at hrun
    cases hinsert : t.insertAction a with
    | error e =>
      rw [hinsert] at hrun
      cases hrun
    | ok u =>
      rw [hinsert] at hrun
      exact ih (h.insertAction ha hinsert) hrest hrun

namespace Switch

/-- The conditional with two branches. -/
def choice : Action := Builtin.operator "if" "bool" ["any", "any"] "any" .choose

/-- Both of two truth values. -/
def conjunction : Action :=
  Builtin.binary "&&" "bool" "bool" "bool" .bool .bool .bool fun (a b : Bool) => .ok (a && b)

/-- A scope with a truth value called `b`. -/
def scope : Tuple where
  kind := .custom "global"
  permissions := .all
  parent := none
  entries := [⟨some "b", { type := .leaf "bool", loc := 0 }⟩]
  index := [("b", 0)]
  actions := [(Store.assignment.signature.key, Store.assignment), (choice.signature.key, choice),
    (conjunction.signature.key, conjunction)]
  byName := [("=", [Store.assignment.signature.key]), ("if", [choice.signature.key]),
    ("&&", [conjunction.signature.key])]

/-- A store with this scope, in which `b` is true. -/
def store : Store where
  arena := { slots := #[⟨0, some scope⟩] }
  heap := ⟨#[.bool true]⟩
  root := ⟨0, 0⟩

theorem scope_basic : scope.Basic := by
  have hbare : Tuple.Basic { scope with actions := [], byName := [] } :=
    Tuple.ofRegistry_basic.empty rfl rfl rfl
  have hown : ∀ a ∈ [Store.assignment, choice, conjunction], a ∈ Builtin.catalogue := by
    simp [Store.assignment, choice, conjunction, Builtin.catalogue, Builtin.control, Builtin.logic]
  exact Tuple.Basic.insertActions hbare hown rfl

/-- The only tuple of the store. -/
theorem store_unique {x : TupleId} {t : Tuple} (h : store.tuple? x = some t) :
    x = ⟨0, 0⟩ ∧ t = scope := by
  obtain ⟨index, generation⟩ := x
  obtain ⟨n, hslot, hgen⟩ := Arena.get?_eq_some_iff.mp h
  match index with
  | 0 => cases hslot; cases hgen; exact ⟨rfl, rfl⟩
  | index + 1 => simp [store] at hslot

theorem store_basic : store.Basic where
  forms := rfl
  tuples i n t h := by
    match i with
    | 0 => cases h; exact scope_basic
    | i + 1 => simp [store] at h

theorem store_apart : store.Apart := by
  refine ⟨fun x t ht e he => ?_, fun x y t u i j e f ht hi hu hj _ => ?_⟩
  · obtain ⟨-, rfl⟩ := store_unique ht
    rw [List.mem_singleton.mp he]
    exact Nat.one_pos
  · obtain ⟨rfl, rfl⟩ := store_unique ht
    obtain ⟨rfl, rfl⟩ := store_unique hu
    have hi := (List.getElem?_eq_some_iff.mp hi).1
    have hj := (List.getElem?_eq_some_iff.mp hj).1
    simp only [scope, List.length_singleton] at hi hj
    exact ⟨rfl, by omega⟩

theorem store_faithful : store.Faithful := by
  intro x t ht e he
  obtain ⟨-, rfl⟩ := store_unique ht
  rw [List.mem_singleton.mp he]
  exact Value.suits_native .bool true

/-- The tokens of `(if b then … else b)`. -/
def tokens (thenBranch : List Token) : List Token :=
  [⟨.lparen, "(", {}⟩, ⟨.keyword, "if", {}⟩, ⟨.ident, "b", {}⟩, ⟨.keyword, "then", {}⟩] ++
    thenBranch ++ [⟨.keyword, "else", {}⟩, ⟨.ident, "b", {}⟩, ⟨.rparen, ")", {}⟩]

/-- The variable `b`. -/
def flag : Node := .value { type := .leaf "bool", loc := 0, owned := false } (some "b")

/-- The conditional `if b then … else b`. -/
def guarded (thenBranch : Node) : Node :=
  .apply { op := .ifThenElse, name := "if", action := choice, type := .leaf "bool" }
    [flag, thenBranch, flag]

/-- The assignment `b = …`. -/
def assigned (value : Node) : Node :=
  .apply { op := .assign, name := "=", action := Store.assignment, type := .leaf "bool" }
    [flag, value]

/-- Both of two values. -/
def conjoined (left right : Node) : Node :=
  .apply { op := .and, name := "&&", action := conjunction, type := .leaf "bool" } [left, right]

/-- A truth value written in the source. -/
def truth (loc : Nat) : Node := .literal { type := .leaf "bool", loc }

/-- In front of `b = (if b then false else b)`. -/
def flipCursor : Cursor := .ofTokens
  ([⟨.ident, "b", {}⟩, ⟨.symbol, "=", {}⟩] ++ tokens [⟨.falseWord, "false", {}⟩])

/-- Parsing `b = (if b then false else b)`. -/
def flipParse : Parsed (Except Error Expression) := Expression.parse store ⟨0, 0⟩ flipCursor

/-- The same with the direct parser. -/
def flipDirectly : Parsed (Except Error Expression) :=
  Expression.parseDirectly store ⟨0, 0⟩ flipCursor

theorem flipParse_eq : flipParse = flipDirectly := Expression.parse_eq store ⟨0, 0⟩ flipCursor

/-- The expression `b = (if b then false else b)`. -/
def flip : Expression where
  roots := [assigned (guarded (truth 1))]
  scope := ⟨0, 0⟩

theorem flip_parsed : flipParse.result = .ok flip := by
  rw [flipParse_eq]
  rfl

/-- In front of `(if b then (b = false) else b) && true`. -/
def lostCursor : Cursor := .ofTokens
  (tokens [⟨.lparen, "(", {}⟩, ⟨.ident, "b", {}⟩, ⟨.symbol, "=", {}⟩, ⟨.falseWord, "false", {}⟩,
    ⟨.rparen, ")", {}⟩] ++ [⟨.symbol, "&&", {}⟩, ⟨.trueWord, "true", {}⟩])

/-- Parsing `(if b then (b = false) else b) && true`. -/
def lostParse : Parsed (Except Error Expression) := Expression.parse store ⟨0, 0⟩ lostCursor

/-- The same with the direct parser. -/
def lostDirectly : Parsed (Except Error Expression) :=
  Expression.parseDirectly store ⟨0, 0⟩ lostCursor

theorem lostParse_eq : lostParse = lostDirectly := Expression.parse_eq store ⟨0, 0⟩ lostCursor

/-- The expression `(if b then (b = false) else b) && true`. -/
def lost : Expression where
  roots := [conjoined (guarded (assigned (truth 1))) (truth 2)]
  scope := ⟨0, 0⟩

theorem lost_parsed : lostParse.result = .ok lost := by
  rw [lostParse_eq]
  rfl

theorem guarded_even {n : Node} (h : n.Even) (htype : n.type = .leaf "bool") :
    (guarded n).Even := by
  refine .apply (fun _ => ⟨by decide, flag, n, flag, rfl, htype⟩) fun m hm => ?_
  simp only [List.mem_cons, List.not_mem_nil, or_false] at hm
  rcases hm with rfl | rfl | rfl
  · exact .value
  · exact h
  · exact .value

theorem assigned_even {n : Node} (h : n.Even) : (assigned n).Even := by
  refine .apply (fun hop => by cases hop) fun m hm => ?_
  simp only [List.mem_cons, List.not_mem_nil, or_false] at hm
  rcases hm with rfl | rfl
  · exact .value
  · exact h

theorem flip_even : ∀ n ∈ flip.roots, n.Even :=
  List.forall_mem_singleton.mpr (assigned_even (guarded_even .value rfl))

theorem flip_quietBranches : ∀ n ∈ flip.roots, n.QuietBranches := by
  refine List.forall_mem_singleton.mpr (.apply (fun hop => by cases hop) fun n hn => ?_)
  simp only [List.mem_cons, List.not_mem_nil, or_false] at hn
  rcases hn with rfl | rfl
  · exact .value
  · refine .apply (fun _ m hm => ?_) fun m hm => ?_
    · simp only [List.tail_cons, List.mem_cons, List.not_mem_nil, or_false] at hm
      rcases hm with rfl | rfl <;> exact .value trivial
    · simp only [List.mem_cons, List.not_mem_nil, or_false] at hm
      rcases hm with rfl | rfl | rfl <;> exact .value

/-- Assigning the value of a conditional to its condition. -/
theorem static_types_predict_values_flip :
    store.Basic ∧ store.Apart ∧ store.Faithful ∧ flipParse.result = .ok flip ∧
      (∀ n ∈ flip.roots, n.Even) ∧
      (∀ t, flip.Visits .none flipParse.store t → t.Decided .none) ∧
      ∃ c s', (assigned (guarded (truth 1))).evaluate .none 1 flipParse.store =
          .ok (.normal, c) s' ∧
        c.type = .leaf "bool" ∧ (c.value s'.heap).Suits (.leaf "bool") ∧ s'.Faithful := by
  have hdecided : ∀ s t, flip.Visits .none s t → t.Decided .none :=
    fun _ _ ht => ht.decided flip_quietBranches
  have hpredicted := Store.static_types_predict_values store_basic store_apart store_faithful
    flip_parsed .none flip_even (hdecided _)
  have hparsed := flip_parsed
  -- what follows is computed by the direct parser
  rw [← flipParse, flipParse_eq] at hpredicted
  rw [flipParse_eq] at hparsed ⊢
  obtain ⟨htasks, hafter, -⟩ := hpredicted
  have hroot : ∀ s, flip.Visits .none s ⟨assigned (guarded (truth 1)), 1, s⟩ := fun _ =>
    ⟨[], _, [], [], _, rfl, rfl, by simp, .refl⟩
  obtain ⟨hvalue, -⟩ := htasks _ (hroot _)
  obtain ⟨htype, hsuits⟩ := hvalue _ _ rfl
  exact ⟨store_basic, store_apart, store_faithful, hparsed, flip_even,
    hdecided _, _, _, rfl, htype, htype ▸ hsuits, hafter⟩

/-- A branch assigns to the condition of a conditional. The type of the conditional does not
foretell its value, which is void, so that the operator around it finds no truth value. -/
theorem type_of_lost_branch_is_wrong :
    store.Basic ∧ store.Apart ∧ store.Faithful ∧ lostParse.result = .ok lost ∧
      (∀ n ∈ lost.roots, n.Even) ∧
      ∃ t c s₁ s₂, lost.Visits .none lostParse.store t ∧ t.node.type = .leaf "bool" ∧
        t.node.evaluate .none t.depth t.store = .ok (.normal, c) s₁ ∧ c.type = .void ∧
        lost.evaluate .none lostParse.store = .error (.wrongType "bool" .void) s₂ := by
  have heven : ∀ n ∈ lost.roots, n.Even := by
    refine List.forall_mem_singleton.mpr (.apply (fun hop => by cases hop) fun n hn => ?_)
    simp only [List.mem_cons, List.not_mem_nil, or_false] at hn
    rcases hn with rfl | rfl
    · exact guarded_even (assigned_even .value) rfl
    · exact .value
  have hparsed := lost_parsed
  -- what follows is computed by the direct parser
  rw [lostParse_eq] at hparsed ⊢
  -- the conditional is the first operand
  have hoperand : ∀ s, s.settings.allows 1 = true →
      Task.Enters .none ⟨conjoined (guarded (assigned (truth 1))) (truth 2), 1, s⟩
        ⟨guarded (assigned (truth 1)), 2, s⟩ :=
    fun _ hallows => @Task.Enters.operand _ _ [] _ _ _ _ _ _ rfl hallows rfl
  exact ⟨store_basic, store_apart, store_faithful, hparsed, heven, _, _, _, _,
    ⟨[], _, [], [], _, rfl, rfl, by simp, .single (hoperand _ rfl)⟩, rfl, rfl, rfl, rfl⟩

end Switch

end TupleLang
