import TupleLang.Proofs.Acting
import TupleLang.Proofs.Everywhere

/-!
# Places out of reach

A literal that a parser makes up has a place of its own. No attribute of a tuple is in this place,
and no other leaf of the tree is. `Store.Secludes loc v` says so of a store, and that the value in
the place is `v`. Evaluating a tree whose leaves are in other places keeps it (`Secludes.evaluate`):
whatever is written to is in the place of an operand, of an attribute or of a new cell.

Bodies of the host are given a store and operands, and come by other cells only through the tuples
of the store. `Host.Discreet` says this of a host.
-/

namespace TupleLang

namespace Store

/-- The place holds the value, and no attribute is in it. -/
structure Secludes (loc : Nat) (v : Value) (s : Store) : Prop where
  holds : s.heap.values[loc]? = some v
  apart : s.arena.Every fun t => ∀ e ∈ t.entries, e.cell.loc ≠ loc

end Store

/-- Given operands in other places, a body of the host leaves a secluded place as it is, and leaves
no cell on the stack that is in it. -/
def Host.Discreet (host : Host) : Prop :=
  ∀ label a loc v, a.store.Secludes loc v → (∀ c ∈ a.stack.cells, c.loc ≠ loc) →
    match host.run label a with
    | .ok _ a' => a'.store.Secludes loc v ∧ ∀ c ∈ a'.stack.cells, c.loc ≠ loc
    | .error _ a' => a'.store.Secludes loc v

/-- A host without actions is discreet. -/
theorem Host.discreet_none : Host.none.Discreet := fun _ _ _ _ ha _ => ha

namespace Store

variable {loc : Nat} {v : Value} {s : Store} {w : Unit} {c : Cell}

/-- A store with all attributes in places that are there secludes the place that comes next. -/
theorem secludes_make {s : Store}
    (hs : s.arena.Every fun t => ∀ e ∈ t.entries, e.cell.loc < s.heap.values.size)
    (type : TypeDesc) (v : Value) :
    Secludes s.heap.values.size v { s with heap := (Cell.make s.heap type v).2 } where
  holds := Cell.stores_make s.heap type v
  apart := hs.mono fun _ ht e he => (ht e he).ne

namespace Secludes

/-- A secluded place exists. -/
theorem lt (h : s.Secludes loc v) : loc < s.heap.values.size :=
  (Array.getElem?_eq_some_iff.mp h.holds).1

/-- A place stays secluded while no attribute is put into it. -/
theorem of_arena (h : s.Secludes loc v) {a : Arena}
    (ha : a.Every fun t => ∀ e ∈ t.entries, e.cell.loc ≠ loc) :
    Secludes loc v { s with arena := a } :=
  ⟨h.holds, ha⟩

/-- A new place is another one. -/
theorem make (h : s.Secludes loc v) (type : TypeDesc) (u : Value) :
    Secludes loc v { s with heap := (Cell.make s.heap type u).2 } ∧
      (Cell.make s.heap type u).1.loc ≠ loc :=
  ⟨⟨Cell.grows_make s.heap type u loc v h.holds, h.apart⟩, h.lt.ne'⟩

/-- Writing to another place. -/
theorem put (h : s.Secludes loc v) {other : Nat} (hne : other ≠ loc) (u : Value) :
    Secludes loc v { s with heap := s.heap.put other u } where
  holds := by
    simpa [Heap.put, Array.getElem?_setIfInBounds_ne hne] using h.holds
  apart := h.apart

/-- A place stays secluded when a tuple is destroyed. -/
theorem destroy (h : s.Secludes loc v) (id : TupleId) : (s.destroy id).Secludes loc v where
  holds := by
    rw [Store.destroy, (sameButArena_destroyWithin _ s id).heap]
    exact h.holds
  apart := every_destroy (fun _ _ e he => nomatch he) h.apart

/-- A place stays secluded when a tuple is given a parent. -/
theorem adopt (h : s.Secludes loc v) (parent child : TupleId) :
    (s.adopt parent child).Secludes loc v where
  holds := by
    unfold Store.adopt
    split <;> exact h.holds
  apart := every_adopt (fun _ _ ht => ht) h.apart parent child

end Secludes

/-! ## The regime -/

/-- Stores that seclude the place. -/
def secluding (loc : Nat) (v : Value) : Regime Store where
  World := Unit
  Later _ _ := True
  refl _ := trivial
  trans _ _ := trivial
  Holds _ s := s.Secludes loc v

theorem keeps_newCell_secluding (type : TypeDesc) (u : Value) {E : Error → Prop} :
    (secluding loc v).Keeps w (StoreM.newCell type u) (fun _ c => c.loc ≠ loc) E := by
  intro _ _ s hs
  obtain ⟨hmade, hne⟩ := Secludes.make hs type u
  exact .onHeap ⟨(), trivial, hmade, hne⟩

/-- Tuples are built and copied from cells in other places. -/
def secludingCopying (loc : Nat) (v : Value) : TupleLang.Copying (secluding loc v) where
  CellOk _ c := c.loc ≠ loc
  Open _ _ := True
  cell_lasts _ hc := hc
  open_lasts _ _ := trivial
  owned _ _ _ := trivial
  insert := by
    intro _ s id t t' name cell pos hs _ hcell ht hinsert
    refine ⟨(), trivial, hs.of_arena (hs.apart.put ?_)⟩
    rw [Tuple.insertInitial_eq_ok hinsert]
    exact List.forall_mem_append.mpr ⟨hs.apart.of_get? ht, by simpa using hcell⟩
  adopt _ parent child _ _ := fun _ _ _ hs => ⟨(), trivial, Secludes.adopt hs parent child⟩
  destroy _ id _ := fun _ _ _ hs => ⟨(), trivial, Secludes.destroy hs id⟩
  SourceOk _ c := c.loc ≠ loc
  source_lasts _ hc := hc
  entries hs ht e he := hs.apart.of_get? ht e he
  create _ kind permissions parent := fun _ _ _ hs =>
    .change ⟨(), trivial, Secludes.of_arena hs (hs.apart.alloc fun _ he => nomatch he), trivial⟩
  reborrow := by
    intro _ c hc _ _ s hs
    refine .onHeap ?_
    unfold Cell.reborrow
    split
    · obtain ⟨hmade, hne⟩ := Secludes.make hs c.type (c.value s.heap)
      exact ⟨(), trivial, hmade, hne⟩
    · exact ⟨(), trivial, hs, hc⟩
  shared hc _ := hc
  scalar {_ s c} hs _ _ := keeps_newCell_secluding (w := ()) (E := Error.OfBuilding) c.type
    (c.value s.heap) () trivial s hs
  tuple _ _ _ _ _ := keeps_newCell_secluding _ _

/-! ## Bodies -/

theorem keeps_write_secluding (hc : c.loc ≠ loc) (n : Native) (u : n.Carrier) :
    (secluding loc v).Keeps w (StoreM.write c n u) (fun _ _ => True) fun _ => True := by
  intro _ _ s hs
  refine .tryHeap hs (fun _ h hset => ?_) fun _ _ => trivial
  cases hrun : c.set s.heap n u with
  | error e => simp [hrun, bind, Except.bind] at hset
  | ok h' =>
    obtain rfl : h' = h := by simpa [hrun, bind, Except.bind, pure, Except.pure] using hset
    obtain ⟨-, -, rfl⟩ := Cell.set_eq_ok_iff.mp hrun
    exact ⟨(), trivial, Secludes.put hs hc _, trivial⟩

theorem keeps_putInto_secluding {target value : Cell} (htarget : target.loc ≠ loc)
    (previous : Option TupleId) :
    (secluding loc v).Keeps w (Body.putInto target value previous) (fun _ c => c.loc ≠ loc)
      fun _ => True := by
  refine .bind (Q := fun _ c => c.loc ≠ loc) ?_ fun target' _ _ htarget' => ?_
  · intro _ _ s hs
    refine .tryHeap hs (fun target' h hreplace => ?_) fun _ _ => trivial
    obtain ⟨-, rfl, rfl⟩ := Cell.replace_eq_ok_iff.mp hreplace
    exact ⟨(), trivial, Secludes.put hs htarget _, htarget⟩
  · cases previous with
    | none => exact .pure fun _ _ => htarget'
    | some old =>
      refine .get_bind fun _ _ _ _ => .ite (fun _ => ?_) fun _ => .pure fun _ _ => htarget'
      exact .andThen (.modify fun _ _ _ hs => ⟨(), trivial, Secludes.destroy hs old⟩)
        fun _ _ _ => .pure fun _ _ => htarget'

theorem keeps_assignCell_secluding {target value : Cell} (htarget : target.loc ≠ loc)
    (hvalue : value.loc ≠ loc) :
    (secluding loc v).Keeps w (Body.assignCell target value) (fun _ c => c.loc ≠ loc)
      fun _ => True := by
  rw [Body.assignCell_eq]
  refine .andThen (.ofExcept (fun _ _ _ _ => trivial) fun _ _ => trivial) fun _ _ _ => ?_
  refine .ite (fun _ => .throw trivial) fun _ => ?_
  refine .get_bind fun _ _ _ _ => .get_bind fun _ _ _ _ => ?_
  refine .ite (fun _ => .andThen ?_ fun _ _ _ => keeps_putInto_secluding htarget _) fun _ =>
    .andThen (.pure fun _ _ => trivial) fun _ _ _ => keeps_putInto_secluding htarget _
  exact ((secludingCopying loc v).duplicate hvalue).mono (fun _ _ _ _ => trivial) fun _ _ => trivial

/-- A body writes to the places of its operands and of attributes, and to new ones. -/
def secludingActing (loc : Nat) (v : Value) : Acting (secluding loc v) where
  toCopying := secludingCopying loc v
  Apt _ := True
  ValueOk _ c := c.loc ≠ loc
  value_lasts _ hc := hc
  source hc := hc
  own hc _ := hc
  void _ := keeps_newCell_secluding _ _
  native _ _ _ := keeps_newCell_secluding _ _
  unary _ _ := keeps_newCell_secluding _ _
  binary _ _ := keeps_newCell_secluding _ _
  compound _ hc u := keeps_write_secluding hc _ u
  assign _ := keeps_assignCell_secluding
  construct _ _ _ := keeps_newCell_secluding _ _

theorem keeps_apply_secluding {host : Host} (hhost : host.Discreet) (action : Action)
    (name : String) {operands : List Cell} (hcells : ∀ c ∈ operands, c.loc ≠ loc) :
    (secluding loc v).Keeps w (action.apply host name operands) (fun _ r => r.2.loc ≠ loc)
      fun _ => True := by
  by_cases hbody : ∃ label, action.body = .host label
  · obtain ⟨label, hbody⟩ := hbody
    intro _ _ s hs
    have hrun := hhost label ⟨s, name, operands.reverse⟩ loc v hs (by simpa using hcells)
    simp only [Regime.Leads, Action.apply, Action.call, hbody, Body.run, bind, EStateM.bind]
    cases hres : host.run label ⟨s, name, operands.reverse⟩ with
    | error e a =>
      rw [hres] at hrun
      exact ⟨trivial, (), trivial, hrun⟩
    | ok signal a =>
      rw [hres] at hrun
      -- what is left on the stack is the result, or else a new cell is
      obtain ⟨store, stackName, cells⟩ := a
      cases cells with
      | nil =>
        obtain ⟨hmade, hne⟩ := Secludes.make hrun.1 .void .void
        exact ⟨(), trivial, hmade, hne⟩
      | cons cell cells => exact ⟨(), trivial, hrun.1, hrun.2 cell List.mem_cons_self⟩
  · exact (secludingActing loc v).apply trivial (fun label h => hbody ⟨label, h⟩) host name hcells

/-! ## Evaluation -/

/-- Evaluation hands on cells in other places. -/
def secludingEvaluating (loc : Nat) (v : Value) {host : Host} (hhost : host.Discreet) :
    Evaluating (secluding loc v) host where
  LeafOk _ c := c.loc ≠ loc
  ValueOk _ c := c.loc ≠ loc
  Bound _ := True
  leaf_lasts _ hc := hc
  value_lasts _ hc := hc
  yield {_ c} hc := .yieldCell (fun _ _ => hc) fun _ _ _ s hs _ =>
    keeps_newCell_secluding (w := ()) (E := fun _ => True) c.type (c.value s.heap) () trivial s hs
  void _ := keeps_newCell_secluding _ _
  apply _ hcells := keeps_apply_secluding hhost _ _ hcells

/-- A tree is evaluated to a cell in another place if its leaves are in other places. -/
theorem Secludes.evaluate {host : Host} (hhost : host.Discreet) (h : s.Secludes loc v) {node : Node}
    (hnode : node.Forms (fun c => c.loc ≠ loc) fun _ => True) {d : Nat} {signal : Signal}
    {s' : Store} (hrun : node.evaluate host d s = .ok (signal, c) s') :
    s'.Secludes loc v ∧ c.loc ≠ loc := by
  have hleads := (secludingEvaluating loc v hhost).evaluate (w := ()) hnode d () trivial s h
  simp only [Regime.Leads, hrun] at hleads
  obtain ⟨_, -, hs', hc⟩ := hleads
  exact ⟨hs', hc⟩

/-- A place stays secluded when an action is applied to other places. -/
theorem Secludes.apply {host : Host} (hhost : host.Discreet) (h : s.Secludes loc v)
    {action : Action} {name : String} {operands : List Cell} (hcells : ∀ c ∈ operands, c.loc ≠ loc)
    {signal : Signal} {s' : Store}
    (hrun : action.apply host name operands s = .ok (signal, c) s') :
    s'.Secludes loc v ∧ c.loc ≠ loc := by
  have hleads := keeps_apply_secluding (w := ()) (v := v) hhost action name hcells () trivial s h
  simp only [Regime.Leads, hrun] at hleads
  obtain ⟨_, -, hs', hc⟩ := hleads
  exact ⟨hs', hc⟩

end Store

end TupleLang
