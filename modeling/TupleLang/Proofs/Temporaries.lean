import TupleLang.Proofs.Flight
import TupleLang.Proofs.Footprint

/-!
# Temporaries

A constructor makes a tuple that is in flight until a tuple, a variable or the caller takes it over.
An operator hands on some of its operands and reads some as scalars; the others are forgotten, and a
tuple in one of them stays behind. So does a tuple in an operand when a later operand does not end
normally. Evaluation without assignments leaves nothing else behind.

A tree is *tidy* when none of this can happen to it (`Node.Tidy`). Once the outcomes and the
expression have been given up there are then the same tuples as before (`evaluate_leaves_no_trace`).
A tree that is not tidy may leave tuples behind (`length_of_temporary_stays_behind`).
-/

namespace TupleLang

/-! ## What bodies do with their operands -/

namespace Body

/-- Whether the body writes to no place that was there before, as far as this is known: the host's
bodies are not. -/
def isQuiet : Body → Bool
  | compound .. | assign | host _ => false
  | _ => true

/-- The operands that are neither handed on nor read as scalars, but for a branch that is not
chosen. -/
def forgotten {α : Type} : Body → List α → List α
  -- operands are taken from the end; those in front of them are never looked at
  | binary .., operands => operands.take (operands.length - 2)
  | unary .., operands | typeTest _, operands | returns, operands | raises, operands
  | signal _, operands => operands.dropLast
  | construct names, operands => operands.take (operands.length - names.length)
  | choose, operands => operands.drop 3
  -- the others look at an operand without keeping it, be it a tuple or not
  | _, operands => operands

/-- Whether the value is a scalar where the body ends normally. -/
def isScalar : Body → Bool
  | unary .. | binary .. | typeTest _ | textOf | length | typeOf | returns | raises => true
  | signal s => !s.isNormal
  | _ => false

/-- The body always ends normally. -/
def Calm : Body → Prop
  | unary _ _ _ f => ∀ x, ∃ y, f x = .ok y
  | binary _ _ _ _ f => ∀ x y, ∃ z, f x y = .ok z
  | typeTest _ | textOf | length | typeOf | construct _ | choose => True
  | _ => False

/-- The operands that are forgotten stand where the trees do that they come from. -/
theorem forall₂_forgotten {α β : Type} {R : α → β → Prop} {l : List α} {l' : List β} (b : Body)
    (h : List.Forall₂ R l l') : List.Forall₂ R (b.forgotten l) (b.forgotten l') := by
  have htake : ∀ n, List.Forall₂ R (l.take (l.length - n)) (l'.take (l'.length - n)) := by
    intro n
    rw [h.length_eq]
    exact List.forall₂_take _ h
  cases b with
  | binary | construct => exact htake _
  | unary | typeTest | returns | raises | signal =>
    simpa only [Body.forgotten, List.dropLast_eq_take] using htake 1
  | choose => exact List.forall₂_drop _ h
  | _ => exact h

end Body

namespace Store

variable {base s s' : Store} {cells : Multiset Cell} {c : Cell} {signal : Signal}

/-- A new cell that holds no tuple. -/
theorem brings_newCell (hs : s.Sound) {type : TypeDesc} {v : Value} (hv : v.tupleId? = none)
    (hrun : StoreM.newCell type v s = .ok c s') : s.Brings s' {c} ∧ c.IsScalar s'.heap := by
  cases hrun
  exact ⟨.newCell hs type hv, v, Cell.stores_make s.heap type v, hv⟩

/-- A new cell for a native value. -/
theorem brings_newNative (hs : s.Sound) {n : Native} {v : n.Carrier}
    (hrun : StoreM.newNative n v s = .ok c s') : s.Brings s' {c} ∧ c.IsScalar s'.heap :=
  brings_newCell hs (Literal.tupleId?_native n v) hrun

/-- A new void cell is a scalar. -/
theorem brings_newVoid (hs : s.Sound) (hrun : StoreM.newVoid s = .ok c s') :
    s.Brings s' {c} ∧ c.IsScalar s'.heap := brings_newCell hs rfl hrun

/-- A condition is raised with a new scalar cell. -/
theorem brings_raised (hs : s.Sound) {condition : String}
    (hrun : Body.raised condition s = .ok (signal, c) s') :
    s.Brings s' {c} ∧ c.IsScalar s'.heap ∧ signal = .raises := by
  simp only [Body.raised, StoreM.bind_eq_ok] at hrun
  obtain ⟨c', s₁, hnew, hrun⟩ := hrun
  cases hrun
  exact ⟨(brings_newNative hs hnew).1, (brings_newNative hs hnew).2, rfl⟩

theorem brings_complete (hs : s.Sound) {type : String} {n : Native}
    {result : Except Condition n.Carrier}
    (hrun : Body.complete type n result s = .ok (signal, c) s') :
    s.Brings s' {c} ∧ c.IsScalar s'.heap ∧ ((∃ v, result = .ok v) → signal.isNormal) := by
  cases result with
  | error condition =>
    obtain ⟨hbrings, hloose, -⟩ := brings_raised hs hrun
    refine ⟨hbrings, hloose, ?_⟩
    rintro ⟨v, hv⟩
    cases hv
  | ok v =>
    simp only [Body.complete, StoreM.bind_eq_ok] at hrun
    obtain ⟨c', s₁, hnew, hrun⟩ := hrun
    cases hrun
    have hnew := brings_newCell hs (Literal.tupleId?_native n v) hnew
    exact ⟨hnew.1, hnew.2, fun _ => rfl⟩

/-- Operands for a new tuple: what belongs to something else is copied. -/
theorem Brings.ownOperands {entries entries' : List (Option String × Cell)}
    (h : base.Brings s ((entries.map (·.2) : List Cell) + cells))
    (hrun : Body.ownOperands entries s = .ok entries' s') :
    base.Brings s' ((entries'.map (·.2) : List Cell) + cells) ∧ s.heap.Grows s'.heap := by
  induction entries generalizing s entries' cells with
  | nil =>
    cases hrun
    exact ⟨h, .refl _⟩
  | cons entry rest ih =>
    obtain ⟨name, c⟩ := entry
    rw [List.map_cons, ← Multiset.cons_coe, Multiset.cons_add] at h
    -- a cell that owns its value goes on with the others
    have hrest : ∀ {c' : Cell} {s₁ : Store},
        base.Brings s₁ (c' ::ₘ ((rest.map (·.2) : List Cell) + cells)) → s.heap.Grows s₁.heap →
        (do return (name, c') :: (← Body.ownOperands rest) :
          StoreM (List (Option String × Cell))) s₁ = .ok entries' s' →
        base.Brings s' ((entries'.map (·.2) : List Cell) + cells) ∧ s.heap.Grows s'.heap := by
      intro c' s₁ h hgrows hrun
      simp only [StoreM.bind_eq_ok] at hrun
      obtain ⟨l, s₂, hl, hrun⟩ := hrun
      cases hrun
      rw [← Multiset.add_cons] at h
      rw [List.map_cons, ← Multiset.cons_coe, Multiset.cons_add, ← Multiset.add_cons]
      exact (ih h hl).imp_right hgrows.trans
    simp only [Body.ownOperands] at hrun
    split at hrun
    · simp only [pure_bind] at hrun
      exact hrest h (.refl _) hrun
    · rename_i hborrowed
      obtain ⟨c', s₁, hcopy, hrun⟩ := StoreM.bind_eq_ok.mp hrun
      have hdropped := h.drop (.inl (by simpa using hborrowed))
      have hcopied := brings_duplicate hdropped.sound hcopy
      refine hrest ?_ hcopied.grows hrun
      rw [← Multiset.singleton_add]
      exact hdropped.trans hcopied

/-- A cell that can be read as a native value may be forgotten. -/
theorem Brings.read (h : base.Brings s (c ::ₘ cells)) {n : Native} {v : n.Carrier}
    (hread : c.read s.heap n = .ok v) : base.Brings s cells := h.drop (Cell.loose_of_read hread)

/-- A tuple is made from cells in flight without writing to places that were there before. -/
theorem Brings.grows_createFrom {entries : List (Option String × Cell)} {kind : TupleKind}
    {parent : Option TupleId} {id : TupleId}
    (h : base.Brings s ((entries.map (·.2) : List Cell) + cells))
    (hrun : StoreM.createFrom kind parent entries s = .ok id s') : s.heap.Grows s'.heap := by
  obtain ⟨ids, hheld, hmakes⟩ := h
  obtain ⟨i, j, -, hi, -⟩ := hheld.split
  have hcreate := tuple?_createFrom hmakes.trade.sound kind parent entries hi
  rw [hrun] at hcreate
  obtain ⟨t, -, -, -, -, -, htrade, -⟩ := hcreate
  exact htrade.heap

/-- A constructor puts its operands into the tuple that it makes. -/
theorem Brings.construct {names : List (Option String)} {name : String} {operands : List Cell}
    (h : base.Brings s (operands + cells))
    (hrun : (Body.construct names).effect name operands.reverse s = .ok (signal, c) s') :
    signal = .normal ∧ s.heap.Grows s'.heap ∧
      base.Brings s' (c ::ₘ ((Body.construct names).forgotten operands + cells)) := by
  simp only [Body.effect] at hrun
  split at hrun
  · rename_i hlength
    simp only [StoreM.bind_eq_ok, StoreM.ofExcept_eq_ok] at hrun
    obtain ⟨entries, s₁, hown, _, _, hget, id, s₂, hcreate, _, _, hget', type, _, ⟨-, rfl⟩, c', s₃,
      hnew, hrun⟩ := hrun
    cases hget
    cases hget'
    cases hnew
    cases hrun
    rw [List.take_reverse, List.reverse_reverse] at hown
    set kept := operands.drop (operands.length - names.length) with hkept
    have hzip : (names.zip kept).map (·.2) = kept := by
      refine List.map_snd_zip ?_
      rw [hkept, List.length_drop]
      omega
    -- those that are kept come first, for they are what the tuple is made from
    rw [← List.take_append_drop (operands.length - names.length) operands, ← hkept,
      ← Multiset.coe_add, add_comm (Multiset.ofList _) (Multiset.ofList kept), add_assoc,
      ← hzip] at h
    obtain ⟨hbrings, hgrows⟩ := h.ownOperands hown
    refine ⟨rfl, ?_, (hbrings.createFrom hcreate).newCell type⟩
    exact hgrows.trans ((hbrings.grows_createFrom hcreate).trans (Cell.grows_make _ type _))
  · cases hrun

/-- The condition picks one of the branches, and the others are forgotten. -/
theorem Brings.choose {name : String} {condition : Cell} {branches : List Cell}
    (h : base.Brings s ((condition :: branches : List Cell) + cells))
    (hrun : Body.choose.effect name (condition :: branches).reverse s = .ok (signal, c) s') :
    signal = .normal ∧ s.heap.Grows s'.heap ∧ (c ∈ branches ∨ c.IsScalar s'.heap) ∧
      ∃ truth left, condition.read s.heap .bool = .ok truth ∧
        base.Brings s' (c ::ₘ ((left : List Cell) + cells)) ∧
        ∀ x ∈ left, x ∈ if truth then branches.drop 1 else branches.take 1 ++ branches.drop 2 := by
  simp only [Body.effect, List.reverse_reverse, StoreM.bind_eq_ok] at hrun
  obtain ⟨truth, s₁, hread, c', s₂, hpick, hrun⟩ := hrun
  obtain ⟨hread, rfl⟩ := StoreM.read_eq_ok.mp hread
  cases hrun
  rw [← Multiset.cons_coe, Multiset.cons_add] at h
  replace h := h.read hread
  -- where there is no such branch, a void cell stands for it
  have hvoid : StoreM.newVoid s₁ = .ok c s' → s₁.heap.Grows s'.heap ∧ c.IsScalar s'.heap ∧
      base.Brings s' (c ::ₘ ((branches : List Cell) + cells)) := by
    intro hnew
    obtain ⟨hnew, hloose⟩ := brings_newVoid h.sound hnew
    exact ⟨hnew.grows, hloose, h.trans hnew⟩
  refine ⟨rfl, ?_⟩
  cases truth with
  | true =>
    rcases branches with _ | ⟨x, rest⟩
    · obtain ⟨hgrows, hloose, hbrings⟩ := hvoid hpick
      exact ⟨hgrows, .inr hloose, true, [], hread, hbrings, by simp⟩
    · cases hpick
      rw [← Multiset.cons_coe, Multiset.cons_add] at h
      exact ⟨.refl _, .inl (by simp), true, rest, hread, h, by simp⟩
  | false =>
    rcases branches with _ | ⟨x, _ | ⟨y, rest⟩⟩
    · obtain ⟨hgrows, hloose, hbrings⟩ := hvoid hpick
      exact ⟨hgrows, .inr hloose, false, [], hread, hbrings, by simp⟩
    · obtain ⟨hgrows, hloose, hbrings⟩ := hvoid hpick
      exact ⟨hgrows, .inr hloose, false, [x], hread, hbrings, by simp⟩
    · cases hpick
      refine ⟨.refl _, .inl (by simp), false, x :: rest, hread, ?_, by simp⟩
      rw [← Multiset.cons_add, Multiset.cons_coe, Multiset.coe_eq_coe.mpr (.swap x c rest)]
      exact h

/-- The operand on top of the stack is the last one. -/
theorem Brings.top {x : Cell} {rest : List Cell}
    (h : base.Brings s (((x :: rest).reverse : List Cell) + cells)) :
    base.Brings s (x ::ₘ ((rest.reverse : List Cell) + cells)) := by
  rwa [List.reverse_cons, ← Multiset.coe_add, add_assoc, Multiset.coe_singleton,
    Multiset.singleton_add, Multiset.add_cons] at h

/-- A body that forgets all its operands makes a scalar, which is in flight with them. -/
theorem Brings.newNative (body : Body) {operands : List Cell} {n : Native} {v : n.Carrier}
    (h : base.Brings s (operands + cells)) (hforgotten : body.forgotten operands = operands)
    (hnew : StoreM.newNative n v s = .ok c s') :
    s.heap.Grows s'.heap ∧ base.Brings s' (c ::ₘ (body.forgotten operands + cells)) ∧
      c.IsScalar s'.heap := by
  obtain ⟨hnew, hloose⟩ := brings_newNative h.sound hnew
  rw [hforgotten]
  exact ⟨hnew.grows, h.trans hnew, hloose⟩

/-- The value that a body ends with is in flight with the operands that it forgets. -/
theorem Brings.effect {body : Body} {name : String} {operands : List Cell}
    (h : base.Brings s (operands + cells)) (hquiet : body.isQuiet) (hchoose : body ≠ .choose)
    (hrun : body.effect name operands.reverse s = .ok (signal, c) s') :
    s.heap.Grows s'.heap ∧ base.Brings s' (c ::ₘ (body.forgotten operands + cells)) ∧
      (body.isScalar → signal.isNormal → c.IsScalar s'.heap) ∧ (body.Calm → signal.isNormal) := by
  -- the body sees the operands as a stack, with the last one on top
  obtain ⟨stack, rfl⟩ : ∃ stack : List Cell, operands = stack.reverse :=
    ⟨operands.reverse, operands.reverse_reverse.symm⟩
  cases body with
  | construct names =>
    obtain ⟨rfl, hgrows, hbrings⟩ := h.construct hrun
    exact ⟨hgrows, hbrings, fun hscalar => absurd hscalar (by simp [Body.isScalar]), fun _ => rfl⟩
  | compound | assign | host => cases hquiet
  | choose => exact absurd rfl hchoose
  | unary a r type f =>
    rw [List.reverse_reverse] at hrun
    cases stack with
    | nil => cases hrun
    | cons x rest =>
      simp only [Body.effect, StoreM.bind_eq_ok, StoreM.read_eq_ok] at hrun
      obtain ⟨v, _, ⟨hread, rfl⟩, hrun⟩ := hrun
      obtain ⟨hnew, hloose, hcalm⟩ := brings_complete h.sound hrun
      refine ⟨hnew.grows, ?_, fun _ _ => hloose, fun hf => hcalm (hf v)⟩
      simpa [Body.forgotten] using (h.top.read hread).trans hnew
  | binary a b r type f =>
    rw [List.reverse_reverse] at hrun
    rcases stack with _ | ⟨y, _ | ⟨x, rest⟩⟩
    · cases hrun
    · cases hrun
    · simp only [Body.effect, StoreM.bind_eq_ok, StoreM.read_eq_ok] at hrun
      obtain ⟨u, _, ⟨hx, rfl⟩, v, _, ⟨hy, rfl⟩, hrun⟩ := hrun
      obtain ⟨hnew, hloose, hcalm⟩ := brings_complete h.sound hrun
      refine ⟨hnew.grows, ?_, fun _ _ => hloose, fun hf => hcalm (hf u v)⟩
      simpa [Body.forgotten] using ((h.top.read hy).top.read hx).trans hnew
  | typeTest expected =>
    rw [List.reverse_reverse] at hrun
    rcases stack with _ | ⟨y, _ | ⟨x, rest⟩⟩
    · cases hrun
    · cases hrun
    · simp only [Body.effect, StoreM.bind_eq_ok] at hrun
      obtain ⟨type, _, hread, c', s₁, hnew, hrun⟩ := hrun
      obtain ⟨hy, rfl⟩ := StoreM.read_eq_ok.mp hread
      cases hrun
      obtain ⟨hnew, hloose⟩ := brings_newNative h.sound hnew
      refine ⟨hnew.grows, ?_, fun _ _ => hloose, fun _ => rfl⟩
      simpa [Body.forgotten] using (h.top.read hy).trans hnew
  | returns =>
    rw [List.reverse_reverse] at hrun
    cases stack with
    | nil => cases hrun
    | cons x rest =>
      cases hrun
      refine ⟨.refl _, by simpa [Body.forgotten] using h.top, fun _ hnormal => ?_, fun h => h.elim⟩
      simp [Signal.isNormal] at hnormal
  | raises =>
    rw [List.reverse_reverse] at hrun
    cases stack with
    | nil => cases hrun
    | cons x rest =>
      simp only [Body.effect, StoreM.bind_eq_ok] at hrun
      obtain ⟨v, _, hread, hrun⟩ := hrun
      obtain ⟨hx, rfl⟩ := StoreM.read_eq_ok.mp hread
      obtain ⟨hnew, hloose, -⟩ := brings_raised h.sound hrun
      refine ⟨hnew.grows, ?_, fun _ _ => hloose, fun h => h.elim⟩
      simpa [Body.forgotten] using (h.top.read hx).trans hnew
  | signal ending =>
    rw [List.reverse_reverse] at hrun
    cases stack with
    | nil =>
      simp only [Body.effect, StoreM.bind_eq_ok] at hrun
      obtain ⟨c', s₁, hnew, hrun⟩ := hrun
      cases hrun
      obtain ⟨hnew, hloose⟩ := brings_newVoid h.sound hnew
      refine ⟨hnew.grows, ?_, fun _ _ => hloose, fun h => h.elim⟩
      simpa [Body.forgotten] using h.trans hnew
    | cons x rest =>
      cases hrun
      refine ⟨.refl _, by simpa [Body.forgotten] using h.top, ?_, fun h => h.elim⟩
      intro hscalar hnormal
      simp [Body.isScalar, hnormal] at hscalar
  | textOf =>
    rw [List.reverse_reverse] at hrun
    cases stack with
    | nil => cases hrun
    | cons x rest =>
      simp only [Body.effect, StoreM.bind_eq_ok, StoreM.ofExcept_eq_ok] at hrun
      obtain ⟨_, _, hget, text, _, ⟨-, rfl⟩, c', s₁, hnew, hrun⟩ := hrun
      cases hget
      cases hrun
      obtain ⟨hgrows, hbrings, hscalar⟩ := h.newNative .textOf rfl hnew
      exact ⟨hgrows, hbrings, fun _ _ => hscalar, fun _ => rfl⟩
  | length =>
    rw [List.reverse_reverse] at hrun
    cases stack with
    | nil => cases hrun
    | cons x rest =>
      simp only [Body.effect, StoreM.bind_eq_ok, StoreM.ofExcept_eq_ok] at hrun
      obtain ⟨_, _, hget, n, _, ⟨-, rfl⟩, c', s₁, hnew, hrun⟩ := hrun
      cases hget
      cases hrun
      obtain ⟨hgrows, hbrings, hscalar⟩ := h.newNative .length rfl hnew
      exact ⟨hgrows, hbrings, fun _ _ => hscalar, fun _ => rfl⟩
  | typeOf =>
    rw [List.reverse_reverse] at hrun
    cases stack with
    | nil => cases hrun
    | cons x rest =>
      simp only [Body.effect, StoreM.bind_eq_ok] at hrun
      obtain ⟨c', s₁, hnew, hrun⟩ := hrun
      cases hrun
      obtain ⟨hgrows, hbrings, hscalar⟩ := h.newNative .typeOf rfl hnew
      exact ⟨hgrows, hbrings, fun _ _ => hscalar, fun _ => rfl⟩

end Store

/-! ## Trees that lose nothing -/

namespace Node

/-- The value of the tree does not carry a tuple of its own where it ends normally. -/
inductive Light : Node → Prop
  | value {cell : Cell} {label : Option String} : Light (.value cell label)
  | scalar {binding : Binding} {children : List Node} : binding.action.body.isScalar →
      Light (.apply binding children)
  | choice {binding : Binding} {children : List Node} : binding.action.body = .choose →
      (∀ n ∈ children.tail, Light n) → Light (.apply binding children)

/-- The tree always ends normally. -/
def Calm (node : Node) : Prop := node.Forms (fun _ => True) fun b => b.action.body.Calm

/-- No operator of the tree writes to places that were there before. -/
def Quiet (node : Node) : Prop := node.Forms (fun _ => True) fun b => b.action.body.isQuiet

/-- Whatever is in hand when an operand does not end normally is light. -/
def Steady (nodes : List Node) : Prop := nodes.Pairwise fun m n => m.Light ∨ n.Calm

/-- No tuple that evaluating the tree makes can get lost: operands that are forgotten are light, and
so are those that come before one that may not end normally. A conditional evaluates one branch or
all behind it. -/
inductive Tidy : Node → Prop
  | value {cell : Cell} {label : Option String} : Tidy (.value cell label)
  | apply {binding : Binding} {children : List Node} :
      (binding.action.body = .choose → binding.op.isConditional) → (∀ n ∈ children, Tidy n) →
      Steady (if binding.op.isConditional then children.drop 2 else children) →
      (∀ n ∈ binding.action.body.forgotten children, n.Light) → Tidy (.apply binding children)

end Node

namespace Store

variable {base s s' s₁ : Store} {cells extra : Multiset Cell} {c : Cell} {P Q : Prop}

/-- The store has come about from `base` with these cells in flight, and with others that nobody has
in hand any more; if `tidy` then there is nothing in them. -/
def Yields (base s : Store) (cells : Multiset Cell) (tidy : Prop) : Prop :=
  ∃ lost, base.Brings s (cells + lost) ∧ (tidy → ∀ x ∈ lost, x.Loose s.heap)

namespace Yields

/-- Cells that were brought are yielded. -/
theorem of_brings (h : base.Brings s cells) : base.Yields s cells P :=
  ⟨0, by simpa using h, fun _ x hx => by simp at hx⟩

/-- What yields cells is sound. -/
theorem sound (h : base.Yields s cells P) : s.Sound := h.choose_spec.1.sound

/-- It keeps all values that were there. -/
theorem grows (h : base.Yields s cells P) : base.heap.Grows s.heap := h.choose_spec.1.grows

/-- A weaker proviso does. -/
theorem mono (h : base.Yields s cells P) (himp : Q → P) : base.Yields s cells Q := by
  obtain ⟨lost, hbrings, hloose⟩ := h
  exact ⟨lost, hbrings, fun hq => hloose (himp hq)⟩

/-- Cells that go out of hand join those that did before. -/
theorem lose (h : base.Yields s (cells + extra) P) (hextra : P → ∀ x ∈ extra, x.Loose s.heap) :
    base.Yields s cells P := by
  obtain ⟨lost, hbrings, hloose⟩ := h
  refine ⟨extra + lost, by rwa [← add_assoc], fun hp x hx => ?_⟩
  exact (Multiset.mem_add.mp hx).elim (hextra hp x) (hloose hp x)

/-- Cells that were yielded before are kept. -/
protected theorem trans (h : base.Yields s cells P) (hnext : s.Yields s' extra P) :
    base.Yields s' (extra + cells) P := by
  obtain ⟨lost, hbrings, hloose⟩ := h
  obtain ⟨lost', hbrings', hloose'⟩ := hnext
  refine ⟨lost' + lost, ?_, fun hp x hx => ?_⟩
  · rw [add_add_add_comm]
    exact hbrings.trans hbrings'
  · rcases Multiset.mem_add.mp hx with hx | hx
    · exact hloose' hp x hx
    · exact (hloose hp x hx).grows hbrings'.grows

/-- If nothing got lost then only the cells in hand are in flight. -/
theorem brings (h : base.Yields s cells P) (hp : P) : base.Brings s cells := by
  obtain ⟨lost, hbrings, hloose⟩ := h
  induction lost using Multiset.induction generalizing cells with
  | empty => simpa using hbrings
  | cons x lost ih =>
    rw [Multiset.add_cons] at hbrings
    refine ih (hbrings.drop (hloose hp x (by simp))) fun hp y hy => hloose hp y ?_
    exact Multiset.mem_cons_of_mem hy

end Yields

/-! ## Evaluation -/

/-- What evaluating a tree comes to. -/
structure Evaluates (s : Store) (node : Node) (s' : Store) (signal : Signal) (c : Cell) : Prop where
  yields : s.Yields s' {c} node.Tidy
  light : node.Light → signal.isNormal → c.Loose s'.heap
  calm : node.Calm → signal.isNormal

/-- What evaluating operands comes to: nothing gets lost if `tidy`, and only an operand that is not
calm puts an end to it. -/
def Gathers (s : Store) (nodes : List Node) (tidy : Prop) (s' : Store) : Operands → Prop
  | .interrupted signal c => s.Yields s' {c} tidy ∧ ¬signal.isNormal ∧ ∃ n ∈ nodes, ¬n.Calm
  | .ready cells => s.Yields s' (cells : Multiset Cell) tidy ∧
      List.Forall₂ (fun n c => n.Light → c.Loose s'.heap) nodes cells

/-- Of the branches behind a condition, those that it does not choose are loose; the second one is
chosen along with all behind it. -/
def Decides (s : Store) : List Cell → Prop
  | [] => False
  | condition :: branches => ∃ truth, condition.read s.heap .bool = .ok truth ∧
      ∀ x ∈ if truth then branches.drop 1 else branches.take 1, x.Loose s.heap

section Operands

variable {node : Node} {nodes : List Node} {operands : Operands}

/-- The cell in hand comes in front of the next ones. -/
theorem Yields.front {l : List Cell} (h : s.Yields s₁ {c} P) (hnext : s₁.Yields s' l P) :
    s.Yields s' ((c :: l : List Cell) : Multiset Cell) P := by
  have hboth := h.trans hnext
  rwa [Multiset.add_comm, Multiset.singleton_add] at hboth

/-- A weaker proviso does for operands. -/
theorem Gathers.mono (h : s.Gathers nodes P s' operands) (himp : Q → P) :
    s.Gathers nodes Q s' operands := by
  cases operands with
  | interrupted signal cell => exact ⟨h.1.mono himp, h.2⟩
  | ready cells => exact ⟨h.1.mono himp, h.2⟩

/-- An operand in front of others. It may get lost with an operand that is not calm. -/
theorem Gathers.cons (hfirst : s.Yields s₁ {c} P) (hlight : node.Light → c.Loose s₁.heap)
    (hlost : P → (∃ n ∈ nodes, ¬n.Calm) → c.Loose s₁.heap) (h : s₁.Gathers nodes P s' operands) :
    s.Gathers (node :: nodes) P s' (operands.cons c) := by
  cases operands with
  | interrupted signal cell =>
    obtain ⟨hyields, hsignal, n, hn, hcalm⟩ := h
    refine ⟨(hfirst.trans hyields).lose fun hp x hx => ?_, hsignal, n, ?_, hcalm⟩
    · rw [Multiset.mem_singleton.mp hx]
      exact (hlost hp ⟨n, hn, hcalm⟩).grows hyields.grows
    · exact List.mem_cons_of_mem _ hn
  | ready cells =>
    obtain ⟨hyields, hall⟩ := h
    refine ⟨?_, .cons (fun hl => (hlight hl).grows hyields.grows) hall⟩
    exact hfirst.front hyields

/-- An operand that does not end normally puts an end to the evaluation. -/
theorem Evaluates.interrupts {signal : Signal} (h : s.Evaluates node s' signal c)
    (hsignal : ¬signal.isNormal) (hp : P → node.Tidy) :
    s.Gathers (node :: nodes) P s' (.interrupted signal c) :=
  ⟨h.yields.mono hp, hsignal, node, List.mem_cons_self, fun hcalm => hsignal (h.calm hcalm)⟩

theorem gathers_skipBranches (hs : s.Sound) (hrun : Node.skipBranches nodes s = .ok operands s') :
    ∃ cells, operands = .ready cells ∧ s.Gathers nodes P s' (.ready cells) ∧
      ∀ x ∈ cells, x.Loose s'.heap := by
  induction nodes generalizing s operands with
  | nil =>
    cases hrun
    exact ⟨[], rfl, ⟨.of_brings (.refl hs), .nil⟩, by simp⟩
  | cons node rest ih =>
    simp only [Node.skipBranches, StoreM.bind_eq_ok] at hrun
    obtain ⟨void, s₁, hvoid, operands', s₂, hrest, hrun⟩ := hrun
    cases hrun
    obtain ⟨hbrings, hscalar⟩ := brings_newVoid hs hvoid
    have hloose := hscalar.loose
    obtain ⟨cells, rfl, hgathers, hcells⟩ := ih hbrings.sound hrest
    refine ⟨void :: cells, rfl, ?_, ?_⟩
    · exact .cons (.of_brings hbrings) (fun _ => hloose) (fun _ _ => hloose) hgathers
    · exact List.forall_mem_cons.mpr ⟨hloose.grows hgathers.1.grows, hcells⟩

end Operands

section Trees

variable {host : Host} {nodes : List Node} {operands : Operands} {depth : Nat}

/-- Evaluating trees from left to right. -/
theorem gathers_evaluateAll
    (ih : ∀ n ∈ nodes, ∀ (s s' : Store) signal c, s.Sound →
      n.evaluate host depth s = .ok (signal, c) s' → s.Evaluates n s' signal c)
    (hs : s.Sound) (hrun : Node.evaluateAll host nodes depth s = .ok operands s') :
    s.Gathers nodes ((∀ n ∈ nodes, n.Tidy) ∧ Node.Steady nodes) s' operands := by
  induction nodes generalizing s operands with
  | nil =>
    cases hrun
    exact ⟨.of_brings (.refl hs), .nil⟩
  | cons node rest ihrest =>
    simp only [Node.evaluateAll, StoreM.bind_eq_ok] at hrun
    obtain ⟨⟨signal, cell⟩, s₁, hnode, hrun⟩ := hrun
    have hnode := ih node List.mem_cons_self s s₁ signal cell hs hnode
    split at hrun
    · rename_i hnormal
      simp only [StoreM.bind_eq_ok] at hrun
      obtain ⟨operands', s₂, hrest, hrun⟩ := hrun
      cases hrun
      have hrest := ihrest (fun n hn => ih n (List.mem_cons_of_mem _ hn)) hnode.yields.sound hrest
      refine .cons (hnode.yields.mono fun hp => hp.1 _ List.mem_cons_self)
        (fun hlight => hnode.light hlight hnormal) ?_
        (hrest.mono fun hp => ⟨fun n hn => hp.1 n (List.mem_cons_of_mem _ hn), hp.2.of_cons⟩)
      -- it is lost only together with a later operand that is not calm, and then it is light
      rintro hp ⟨n, hn, hcalm⟩
      have hlight := (List.rel_of_pairwise_cons hp.2 hn).resolve_right hcalm
      exact hnode.light hlight hnormal
    · rename_i hnormal
      cases hrun
      exact hnode.interrupts hnormal fun hp => hp.1 _ List.mem_cons_self

/-- Evaluating the branches behind a condition. -/
theorem gathers_evaluateBranches {truth : Bool}
    (ih : ∀ n ∈ nodes, ∀ (s s' : Store) signal c, s.Sound →
      n.evaluate host depth s = .ok (signal, c) s' → s.Evaluates n s' signal c)
    (hs : s.Sound) (hrun : Node.evaluateBranches host truth nodes depth s = .ok operands s') :
    s.Gathers nodes ((∀ n ∈ nodes, n.Tidy) ∧ Node.Steady (nodes.drop 1)) s' operands ∧
      ∀ cells, operands = .ready cells →
        ∀ x ∈ if truth then cells.drop 1 else cells.take 1, x.Loose s'.heap := by
  cases nodes with
  | nil =>
    cases hrun
    refine ⟨⟨.of_brings (.refl hs), .nil⟩, fun cells hcells => ?_⟩
    cases hcells
    simp
  | cons branch rest =>
    rw [Node.evaluateBranches] at hrun
    -- where the condition holds, the first branch is evaluated and the others are skipped
    cases truth with
    | true =>
      simp only [if_true, StoreM.bind_eq_ok] at hrun
      obtain ⟨⟨signal, cell⟩, s₁, hbranch, hrun⟩ := hrun
      have hbranch := ih branch List.mem_cons_self s s₁ signal cell hs hbranch
      split at hrun
      · rename_i hnormal
        simp only [StoreM.bind_eq_ok] at hrun
        obtain ⟨operands', s₂, hrest, hrun⟩ := hrun
        cases hrun
        obtain ⟨cells, rfl, ⟨hyields, hall⟩, hcells⟩ :=
          gathers_skipBranches hbranch.yields.sound hrest
        refine ⟨⟨(hbranch.yields.mono fun hp => hp.1 _ List.mem_cons_self).front hyields, ?_⟩, ?_⟩
        · exact .cons (fun hlight => (hbranch.light hlight hnormal).grows hyields.grows) hall
        · intro cells' hcells'
          cases hcells'
          exact hcells
      · rename_i hnormal
        cases hrun
        refine ⟨hbranch.interrupts hnormal fun hp => hp.1 _ List.mem_cons_self, ?_⟩
        intro cells hcells
        cases hcells
    | false =>
      -- otherwise a void stands in for the first branch
      simp only [Bool.false_eq_true, if_false, StoreM.bind_eq_ok] at hrun
      obtain ⟨void, s₁, hvoid, operands', s₂, hrest, hrun⟩ := hrun
      cases hrun
      obtain ⟨hbrings, hscalar⟩ := brings_newVoid hs hvoid
      have hloose := hscalar.loose
      have hrest := gathers_evaluateAll (fun n hn => ih n (List.mem_cons_of_mem _ hn))
        hbrings.sound hrest
      have hall : s.Gathers (branch :: rest) _ s' (operands'.cons void) :=
        .cons (.of_brings hbrings) (fun _ => hloose) (fun _ _ => hloose) hrest
      refine ⟨hall.mono fun hp => ⟨fun n hn => hp.1 n (List.mem_cons_of_mem _ hn), hp.2⟩, ?_⟩
      intro cells hcells x hx
      cases operands' with
      | interrupted signal cell => cases hcells
      | ready cells' =>
        cases hcells
        rw [List.mem_singleton.mp hx]
        exact hloose.grows hrest.1.grows

/-- Evaluating a condition and the branch that it chooses. -/
theorem gathers_evaluateChoice {name : String}
    (ih : ∀ n ∈ nodes, ∀ (s s' : Store) signal c, s.Sound →
      n.evaluate host depth s = .ok (signal, c) s' → s.Evaluates n s' signal c)
    (hs : s.Sound) (hrun : Node.evaluateChoice host name nodes depth s = .ok operands s') :
    s.Gathers nodes ((∀ n ∈ nodes, n.Tidy) ∧ Node.Steady (nodes.drop 2)) s' operands ∧
      ∀ cells, operands = .ready cells → s'.Decides cells := by
  cases nodes with
  | nil => cases hrun
  | cons condition branches =>
    simp only [Node.evaluateChoice, StoreM.bind_eq_ok] at hrun
    obtain ⟨⟨signal, cell⟩, s₁, hcondition, hrun⟩ := hrun
    have hcondition := ih condition List.mem_cons_self s s₁ signal cell hs hcondition
    split at hrun
    · rename_i hnormal
      simp only [StoreM.bind_eq_ok] at hrun
      obtain ⟨truth, s₂, hread, operands', s₃, hbranches, hrun⟩ := hrun
      obtain ⟨hread, rfl⟩ := StoreM.read_eq_ok.mp hread
      cases hrun
      -- a truth value carries no tuple
      have hloose := Cell.loose_of_read hread
      obtain ⟨hbranches, hchosen⟩ := gathers_evaluateBranches
        (fun n hn => ih n (List.mem_cons_of_mem _ hn)) hcondition.yields.sound hbranches
      refine ⟨.cons (hcondition.yields.mono fun hp => hp.1 _ List.mem_cons_self) (fun _ => hloose)
        (fun _ _ => hloose) (hbranches.mono fun hp => ?_), fun cells hcells => ?_⟩
      · exact ⟨fun n hn => hp.1 n (List.mem_cons_of_mem _ hn), hp.2⟩
      · cases operands' with
        | interrupted signal cell => cases hcells
        | ready cells' =>
          cases hcells
          -- the condition can still be read behind the branches, as the values of quiet trees stay
          exact ⟨truth, Cell.read_grows hread hbranches.1.grows, hchosen cells' rfl⟩
    · rename_i hnormal
      cases hrun
      refine ⟨hcondition.interrupts hnormal fun hp => hp.1 _ List.mem_cons_self, ?_⟩
      intro cells hcells
      cases hcells

end Trees

section Apply

variable {binding : Binding} {children : List Node} {operands : List Cell} {signal : Signal}

/-- What the members of one list bring about is so for those that stand in their places. -/
theorem forall_of_forall₂ {α β : Type} {P : α → Prop} {Q : β → Prop} {l : List α} {l' : List β}
    (h : List.Forall₂ (fun a b => P a → Q b) l l') (hl : ∀ a ∈ l, P a) : ∀ b ∈ l', Q b := by
  induction h with
  | nil => simp
  | cons hx _ ih =>
    rw [List.forall_mem_cons] at hl ⊢
    exact ⟨hx hl.1, ih hl.2⟩

/-- Running the body of an operator on its operands. -/
theorem Gathers.effect
    (h : s.Gathers children (Node.apply binding children).Tidy s₁ (.ready operands))
    (hquiet : binding.action.body.isQuiet) (hchoose : binding.action.body ≠ .choose)
    (hrun : binding.action.body.effect binding.name operands.reverse s₁ = .ok (signal, c) s') :
    s.Evaluates (.apply binding children) s' signal c := by
  obtain ⟨⟨lost, hbrings, hlost⟩, hall⟩ := h
  obtain ⟨hgrows, hbrings, hscalar, hcalm⟩ := hbrings.effect hquiet hchoose hrun
  rw [← Multiset.cons_add, ← Multiset.singleton_add] at hbrings
  have hyields : s.Yields s' ({c} + (binding.action.body.forgotten operands : Multiset Cell))
      (Node.apply binding children).Tidy :=
    ⟨lost, hbrings, fun htidy x hx => (hlost htidy x hx).grows hgrows⟩
  refine ⟨hyields.lose ?_, ?_, ?_⟩
  · intro htidy x hx
    cases htidy with
    | apply _ _ _ hforgotten =>
      have hloose := forall_of_forall₂ (binding.action.body.forall₂_forgotten hall) hforgotten
      exact (hloose x hx).grows hgrows
  · intro hlight hnormal
    cases hlight with
    | scalar hbody => exact (hscalar hbody hnormal).loose
    | choice hbody => exact absurd hbody hchoose
  · intro hall
    cases hall with
    | apply hbody => exact hcalm hbody

/-- Choosing between operands. -/
theorem Gathers.choose
    (h : s.Gathers children (Node.apply binding children).Tidy s₁ (.ready operands))
    (hchoose : binding.action.body = .choose)
    (hdecides : binding.op.isConditional → s₁.Decides operands)
    (hrun : Body.choose.effect binding.name operands.reverse s₁ = .ok (signal, c) s') :
    s.Evaluates (.apply binding children) s' signal c := by
  obtain ⟨⟨lost, hbrings, hlost⟩, hall⟩ := h
  cases operands with
  | nil => cases hrun
  | cons condition branches =>
    obtain ⟨rfl, hgrows, hcell, truth, left, hread, hbrings, hleft⟩ := hbrings.choose hrun
    rw [← Multiset.cons_add, ← Multiset.singleton_add] at hbrings
    have hyields : s.Yields s' ({c} + (left : Multiset Cell)) (Node.apply binding children).Tidy :=
      ⟨lost, hbrings, fun htidy x hx => (hlost htidy x hx).grows hgrows⟩
    refine ⟨hyields.lose ?_, ?_, fun _ => rfl⟩
    · intro htidy x hx
      cases htidy with
      | apply hop _ _ hforgotten =>
        -- the condition is read again after the branches, and still reads the same
        obtain ⟨truth', hread', hchosen⟩ := hdecides (hop hchoose)
        rw [hread] at hread'
        cases hread'
        refine Cell.Loose.grows ?_ hgrows
        have hx := hleft x hx
        cases truth with
        | true => exact hchosen x hx
        | false =>
          refine (List.mem_append.mp hx).elim (hchosen x) fun hx => ?_
          rw [hchoose] at hforgotten
          exact forall_of_forall₂ (Body.choose.forall₂_forgotten hall) hforgotten x hx
    · intro hlight _
      cases hlight with
      | scalar hbody =>
        rw [hchoose] at hbody
        cases hbody
      | choice _ hlight =>
        refine hcell.elim (fun hc => Cell.Loose.grows ?_ hgrows) Cell.IsScalar.loose
        cases hall with
        | cons _ hall => exact forall_of_forall₂ hall hlight c hc

end Apply

/-- A leaf yields a cell without a tuple of its own, and a scalar if it is one. -/
theorem brings_yieldCell (hs : s.Sound) {c' : Cell} (hrun : Node.yieldCell c s = .ok c' s') :
    s.Brings s' {c'} ∧ c'.Loose s'.heap ∧ (c.IsScalar s.heap → c'.IsScalar s'.heap) := by
  simp only [Node.yieldCell, StoreM.bind_eq_ok] at hrun
  obtain ⟨_, _, hget, hrun⟩ := hrun
  cases hget
  have hborrow : s.Brings s {c.borrow} ∧ c.borrow.Loose s.heap ∧
      (c.IsScalar s.heap → c.borrow.IsScalar s.heap) :=
    ⟨(Brings.refl hs).loose (.inl rfl), .inl rfl, id⟩
  split at hrun
  · cases hrun
    exact hborrow
  · rename_i hnone
    have hnone : (c.value s.heap).tupleId? = none := by simpa [Cell.tupleId?] using hnone
    by_cases howned : c.owned = true
    · simp only [Cell.reborrow, howned, if_true] at hrun
      obtain ⟨hbrings, hscalar⟩ := brings_newCell hs hnone hrun
      exact ⟨hbrings, hscalar.loose, fun _ => hscalar⟩
    · simp only [Cell.reborrow, howned] at hrun
      cases hrun
      exact hborrow

/-- Checking the depth changes nothing. -/
theorem eq_of_checkDepth {depth : Nat} {u : Unit} (hrun : Node.checkDepth depth s = .ok u s') :
    s' = s := by
  simp only [Node.checkDepth, StoreM.bind_eq_ok] at hrun
  obtain ⟨_, _, hget, hrun⟩ := hrun
  cases hget
  split at hrun
  · cases hrun
    rfl
  · cases hrun

/-- Evaluating a tree that writes to no place that was there before. -/
theorem evaluates {node : Node} {host : Host} {depth : Nat} {signal : Signal} (hquiet : node.Quiet)
    (hs : s.Sound) (hrun : node.evaluate host depth s = .ok (signal, c) s') :
    s.Evaluates node s' signal c := by
  induction hquiet generalizing s s' signal c depth with
  | value _ =>
    simp only [Node.evaluate, StoreM.bind_eq_ok] at hrun
    obtain ⟨_, s₁, hdepth, c', s₂, hyield, hrun⟩ := hrun
    cases hrun
    rw [eq_of_checkDepth hdepth] at hyield
    obtain ⟨hbrings, hloose, -⟩ := brings_yieldCell hs hyield
    exact ⟨.of_brings hbrings, fun _ _ => hloose, fun _ => rfl⟩
  | @apply binding children hbody _ ih =>
    simp only [Node.evaluate, StoreM.bind_eq_ok] at hrun
    obtain ⟨_, s₁, hdepth, hrun⟩ := hrun
    rw [eq_of_checkDepth hdepth] at hrun
    have ih : ∀ n ∈ children, ∀ (s s' : Store) signal c, s.Sound →
        n.evaluate host (depth + 1) s = .ok (signal, c) s' → s.Evaluates n s' signal c :=
      fun n hn s s' signal c hs hrun => ih n hn hs hrun
    -- however the operands were evaluated, the action is applied to them in the same way
    have happly : ∀ operands s₂, s.Gathers children (Node.apply binding children).Tidy s₂ operands →
        (binding.op.isConditional → ∀ cells, operands = .ready cells → s₂.Decides cells) →
        (match operands with
          | .interrupted signal cell => return (signal, cell)
          | .ready cells => binding.action.apply host binding.name cells :
            StoreM (Signal × Cell)) s₂ = .ok (signal, c) s' →
        s.Evaluates (.apply binding children) s' signal c := by
      intro operands s₂ hgathers hdecides hrun
      cases operands with
      | interrupted signal' cell =>
        cases hrun
        obtain ⟨hyields, hsignal, n, hn, hcalm⟩ := hgathers
        refine ⟨hyields, fun _ hnormal => absurd hnormal hsignal, fun hall => ?_⟩
        cases hall with
        | apply _ hall => exact absurd (hall n hn) hcalm
      | ready cells =>
        have hhost : ∀ label, binding.action.body ≠ .host label := by
          intro label hlabel
          rw [hlabel] at hbody
          cases hbody
        simp only [Action.apply_eq hhost] at hrun
        by_cases hchoose : binding.action.body = .choose
        · rw [hchoose] at hrun
          exact hgathers.choose hchoose (fun hop => hdecides hop cells rfl) hrun
        · exact hgathers.effect hbody hchoose hrun
    split at hrun
    · rename_i hop
      simp only [StoreM.bind_eq_ok] at hrun
      obtain ⟨operands, s₂, hoperands, hrun⟩ := hrun
      obtain ⟨hgathers, hdecides⟩ := gathers_evaluateChoice ih hs hoperands
      refine happly operands s₂ (hgathers.mono fun htidy => ?_) (fun _ => hdecides) hrun
      cases htidy with
      | apply _ hchildren hsteady => exact ⟨hchildren, by rwa [if_pos hop] at hsteady⟩
    · rename_i hop
      simp only [StoreM.bind_eq_ok] at hrun
      obtain ⟨operands, s₂, hoperands, hrun⟩ := hrun
      have hgathers := gathers_evaluateAll ih hs hoperands
      refine happly operands s₂ (hgathers.mono fun htidy => ?_) (fun h => absurd h hop) hrun
      cases htidy with
      | apply _ hchildren hsteady => exact ⟨hchildren, by rwa [if_neg hop] at hsteady⟩

/-- Evaluating statements: the outcomes are in flight. -/
theorem yields_evaluateRoots {host : Host} {roots : List Node} {outcomes : List Outcome}
    (hquiet : ∀ n ∈ roots, n.Quiet) (hs : s.Sound)
    (hrun : Expression.evaluateRoots host roots s = .ok outcomes s') :
    s.Yields s' (outcomes.map (·.cell) : List Cell) (∀ n ∈ roots, n.Tidy) := by
  induction roots generalizing s outcomes with
  | nil =>
    cases hrun
    exact .of_brings (.refl hs)
  | cons root rest ih =>
    simp only [Expression.evaluateRoots, StoreM.bind_eq_ok] at hrun
    obtain ⟨⟨signal, cell⟩, s₁, hroot, hrun⟩ := hrun
    have hroot := (evaluates (hquiet root List.mem_cons_self) hs hroot).yields
    have hfirst := hroot.mono fun (htidy : ∀ n ∈ root :: rest, n.Tidy) => htidy _ List.mem_cons_self
    split at hrun
    · cases hrun
      exact hfirst
    · simp only [StoreM.bind_eq_ok] at hrun
      obtain ⟨outcomes', s₂, hrest, hrun⟩ := hrun
      cases hrun
      have hrest := ih (fun n hn => hquiet n (List.mem_cons_of_mem _ hn)) hroot.sound hrest
      exact hfirst.front (hrest.mono fun htidy n hn => htidy n (List.mem_cons_of_mem _ hn))

/-! ## Whole expressions -/

/-- The tuples of a parsed expression's literals are held. -/
theorem reaches_parse (hs : s.Sound) {scope : TupleId} {cursor : Cursor} {e : Expression}
    (he : (Expression.parse s scope cursor).result = .ok e) :
    s.Reaches [] (Expression.parse s scope cursor).store (Node.bag e.roots) := by
  obtain ⟨-, rfl, hstore⟩ := Expression.of_parse_ok he
  rw [hstore]
  exact reaches_parseStatements scope (cursor.remaining + 1) (s := ⟨s, cursor⟩) hs

/-- An expression that assigns to nothing, and no part of which can lose a tuple, leaves the tuples
that were there before it was parsed, once it and its outcomes have been given up. -/
theorem evaluate_leaves_no_trace (hs : s.Sound) (scope : TupleId) (cursor : Cursor) (host : Host) :
    let parsed := Expression.parse s scope cursor
    ∀ e, parsed.result = .ok e → (∀ n ∈ e.roots, n.Quiet ∧ n.Tidy) →
      ∀ outcomes after, e.evaluate host parsed.store = .ok outcomes after →
        s.Unchanged (e.release (after.releaseAll (outcomes.map (·.cell)))) := by
  intro parsed e he hroots outcomes after hrun
  have hparsed : s.Reaches [] parsed.store (Node.bag e.roots) := reaches_parse hs he
  -- the literals are held all along, and the outcomes beside them
  have hafter : s.Reaches [] after ((outcomes.map (·.cell) : List Cell) + Node.bag e.roots) := by
    refine hparsed.andThen fun ids hsound hheld => ?_
    have hyields := yields_evaluateRoots (fun n hn => (hroots n hn).1) hsound hrun
    obtain ⟨new, hnew, hmakes⟩ := hyields.brings fun n hn => (hroots n hn).2
    exact Reaches.frame ⟨new, hnew, hmakes.trade⟩ hheld (.refl ids) hheld.nodup
  exact hafter.releaseAll.release_unchanged.2

/-- The number of elements, as the language has it. -/
def lengthFunction : Action := Builtin.function "len" ["any"] "index" .length

/-- The type of tuples with one truth value. -/
def boxType : TypeDesc := .tree [(some "x", .leaf "bool")]

/-- The type of tuples with a box and a truth value. -/
def crateType : TypeDesc := .tree [(some "box", boxType), (some "y", .leaf "bool")]

/-- A root scope with the two types, that knows how to count elements. -/
def crateStore : Store :=
  (StoreM.registerType ⟨0, 0⟩ "crate" crateType).after
    ((StoreM.registerType ⟨0, 0⟩ "box" boxType).after ((bare {}).define lengthFunction))

theorem crateStore_sound : crateStore.Sound := ⟨Arena.sound_of_full (by rfl) (by rfl), _, by rfl⟩

/-- The actions of a store are the language's own and constructors if those in its slots are. -/
theorem stocked_of_slots {actions : List (Option (List Action))}
    (hslots : s.arena.slots.toList.map (·.tuple.map (·.actions.map (·.2))) = actions)
    (hactions : ∀ l, some l ∈ actions → ∀ a ∈ l,
      a ∈ Builtin.catalogue ∨ ∃ name type, a = Action.constructorFor name type) : s.Stocked := by
  intro x t ht p hp
  obtain ⟨n, hslot, -⟩ := Arena.get?_eq_some_iff.mp ht
  have hmem := List.mem_map_of_mem (f := fun slot : Slot => slot.tuple.map (·.actions.map (·.2)))
    (Array.mem_toList_iff.mpr (Array.mem_of_getElem? hslot))
  rw [hslots] at hmem
  exact hactions _ hmem p.2 (List.mem_map_of_mem hp)

theorem crateStore_stocked : crateStore.Stocked := by
  have hslots : crateStore.arena.slots.toList.map (·.tuple.map (·.actions.map (·.2))) =
      [some [lengthFunction, .constructorFor "box" boxType,
        .constructorFor "crate" crateType]] := by rfl
  refine stocked_of_slots hslots fun l hl a ha => ?_
  cases List.mem_singleton.mp hl
  simp only [List.mem_cons, List.not_mem_nil, or_false] at ha
  rcases ha with rfl | rfl | rfl
  · refine .inl (List.mem_append_left _ (List.mem_append_right _ ?_))
    exact List.mem_cons_of_mem _ List.mem_cons_self
  · exact .inr ⟨_, _, rfl⟩
  · exact .inr ⟨_, _, rfl⟩

/-- The tokens of `box(true)`. -/
def boxTokens : List Token :=
  [⟨.ident, "box", {}⟩, ⟨.lparen, "(", {}⟩, ⟨.trueWord, "true", {}⟩, ⟨.rparen, ")", {}⟩]

/-- The call `box(true)`. -/
def boxCall : Node :=
  .apply { op := .call, name := "box", action := .constructorFor "box" boxType, type := boxType
           argNames := [none] } [.literal { type := .leaf "bool", loc := 0 }]

theorem boxCall_quiet : boxCall.Quiet := by
  refine .apply rfl fun n hn => ?_
  rw [List.mem_singleton.mp hn]
  exact .value trivial

/-- Parsing `crate(box(true), false)`. -/
def crateParse : Parsed (Except Error Expression) :=
  Expression.parse crateStore ⟨0, 0⟩ (Cursor.ofTokens
    ([⟨.ident, "crate", {}⟩, ⟨.lparen, "(", {}⟩] ++ boxTokens ++
      [⟨.comma, ",", {}⟩, ⟨.falseWord, "false", {}⟩, ⟨.rparen, ")", {}⟩]))

/-- The expression `crate(box(true), false)`. -/
def crateCall : Expression where
  roots := [.apply { op := .call, name := "crate", action := .constructorFor "crate" crateType
                     type := crateType, argNames := [none, none] }
    [boxCall, .literal { type := .leaf "bool", loc := 1 }]]
  scope := ⟨0, 0⟩

theorem crateCall_good : ∀ n ∈ crateCall.roots, n.Quiet ∧ n.Tidy := by
  have hlast : ∀ {P : Node → Prop} {m n : Node}, P m → P n → ∀ x ∈ [m, n], P x := by
    intro P m n hm hn
    simp [hm, hn]
  intro n hn
  rw [List.mem_singleton.mp hn]
  refine ⟨.apply rfl (hlast boxCall_quiet (.value trivial)), ?_⟩
  have hconstruct : ∀ {name : String} {type : TypeDesc},
      (Action.constructorFor name type).body ≠ .choose := by
    intro name type h
    cases h
  refine .apply (fun h => absurd h hconstruct) (hlast ?_ .value) ?_ (List.forall_mem_nil _)
  · refine .apply (fun h => absurd h hconstruct) (fun n hn => ?_) (List.pairwise_singleton _ _)
      (List.forall_mem_nil _)
    rw [List.mem_singleton.mp hn]
    exact .value
  · -- the box is in hand when the truth value is evaluated, which always ends normally
    exact List.pairwise_pair.mpr (.inr (.value trivial))

/-- A crate with a box in it is made and given up. -/
theorem evaluate_leaves_no_trace_crate :
    crateStore.Sound ∧ crateParse.result = .ok crateCall ∧
      (∀ n ∈ crateCall.roots, n.Quiet ∧ n.Tidy) ∧
      ∃ outcomes after, crateCall.evaluate .none crateParse.store = .ok outcomes after ∧
        (after.tuple? ⟨2, 0⟩).isSome ∧
        crateStore.Unchanged (crateCall.release (after.releaseAll (outcomes.map (·.cell)))) := by
  have hparsed : crateParse.result = .ok crateCall := by rfl
  have hmade : passes (crateCall.evaluate .none) crateParse.store
      (fun _ after => (after.tuple? ⟨2, 0⟩).isSome) = true := by decide +kernel
  obtain ⟨outcomes, after, hrun, hcrate⟩ := passes_iff.mp hmade
  exact ⟨crateStore_sound, hparsed, crateCall_good, outcomes, after, hrun, hcrate,
    evaluate_leaves_no_trace crateStore_sound ⟨0, 0⟩ _ .none crateCall hparsed crateCall_good
      outcomes after hrun⟩

/-- Parsing `len(box(true))`. -/
def lengthParse : Parsed (Except Error Expression) :=
  Expression.parse crateStore ⟨0, 0⟩ (Cursor.ofTokens
    ([⟨.ident, "len", {}⟩, ⟨.lparen, "(", {}⟩] ++ boxTokens ++ [⟨.rparen, ")", {}⟩]))

/-- The expression `len(box(true))`. -/
def lengthCall : Expression where
  roots := [.apply { op := .call, name := "len", action := lengthFunction, type := .leaf "index"
                     argNames := [none] } [boxCall]]
  scope := ⟨0, 0⟩

/-- A box whose elements are counted stays behind. -/
theorem length_of_temporary_stays_behind :
    crateStore.Sound ∧ crateStore.Stocked ∧ lengthParse.result = .ok lengthCall ∧
      (∀ n ∈ lengthCall.roots, n.Quiet) ∧
      ∃ outcomes after, lengthCall.evaluate .none lengthParse.store = .ok outcomes after ∧
        ¬crateStore.Unchanged (lengthCall.release (after.releaseAll (outcomes.map (·.cell)))) := by
  have hquiet : ∀ n ∈ lengthCall.roots, n.Quiet := by
    intro n hn
    rw [List.mem_singleton.mp hn]
    refine .apply rfl fun n hn => ?_
    rw [List.mem_singleton.mp hn]
    exact boxCall_quiet
  have hleft : passes (lengthCall.evaluate .none) lengthParse.store (fun outcomes after =>
      ((lengthCall.release (after.releaseAll (outcomes.map (·.cell)))).tuple? ⟨1, 0⟩).isSome) =
        true := by decide +kernel
  have hbefore : (crateStore.tuple? ⟨1, 0⟩).isSome = false := by decide +kernel
  obtain ⟨outcomes, after, hrun, hbox⟩ := passes_iff.mp hleft
  refine ⟨crateStore_sound, crateStore_stocked, by rfl, hquiet, outcomes, after, hrun,
    fun hsame => ?_⟩
  rw [hsame.tuples, hbefore] at hbox
  cases hbox

end Store

end TupleLang
