import TupleLang.Proofs.Building
import TupleLang.Proofs.ParserRegime
import TupleLang.Proofs.LinearReader
import TupleLang.Proofs.Slots
import TupleLang.Proofs.Trees

/-!
# Parsing works aside

A parser builds its tuples beside those that are there. `Store.Aside base scope s` says of a store
`s` that has come about from `base` in this way: the tuples of `base` are as they were, with all
their values, and every other tuple is a *novelty*, a tuple of the language in the scope, whose
cells are in new places and hold novelties at most.

Nothing is assumed of `base` but that its free list holds no occupied slot.
-/

namespace TupleLang

namespace Store

/-! ## Novelties -/

variable (base : Store) (scope : TupleId)

/-- The cell is in a new place and holds no tuple of the base. -/
def Novel (h : Heap) (c : Cell) : Prop :=
  base.heap.values.size ≤ c.loc ∧
    ∃ v, c.Stores h v ∧ ∀ id, v.tupleId? = some id → ¬base.arena.Occupied id.index

/-- A tuple of the language without local types and actions, in the scope or in another novelty, all
of whose cells are new. -/
structure Novelty (h : Heap) (t : Tuple) : Prop where
  permits : t.permissions.modify = true
  types : t.types = []
  actions : t.actions = []
  byName : t.byName = []
  parent : ∃ p, t.parent = some p ∧ (p = scope ∨ ¬base.arena.Occupied p.index)
  entries : ∀ e ∈ t.entries, base.Novel h e.cell

/-- The store is `base` with novelties beside it. -/
structure Aside (s : Store) : Prop where
  kept : ∀ (i n : Nat) (t : Tuple), base.arena.slots[i]? = some ⟨n, some t⟩ → s.arena.slots[i]? =
    some ⟨n, some t⟩
  free : ∀ i ∈ s.arena.free, ¬base.arena.Occupied i
  novelty : ∀ (i n : Nat) (t : Tuple), s.arena.slots[i]? = some ⟨n, some t⟩ →
    ¬base.arena.Occupied i →
    base.Novelty scope s.heap t
  heap : base.heap.Grows s.heap
  root : s.root = base.root
  forms : s.forms = base.forms
  settings : s.settings = base.settings

variable {base scope} {s : Store} {h h' : Heap} {c : Cell} {t : Tuple} {id : TupleId}

/-- Novel cells stay so while the heap grows. -/
theorem Novel.grows (hc : base.Novel h c) (hgrows : h.Grows h') : base.Novel h' c := by
  obtain ⟨hloc, v, hv, hid⟩ := hc
  exact ⟨hloc, v, hv.grows hgrows, hid⟩

/-- Novel tuples stay so while the heap grows. -/
theorem Novelty.grows (ht : base.Novelty scope h t) (hgrows : h.Grows h') :
    base.Novelty scope h' t :=
  ⟨ht.permits, ht.types, ht.actions, ht.byName, ht.parent,
    fun e he => (ht.entries e he).grows hgrows⟩

/-- A novel cell owns no tuple of the base. -/
theorem Novel.ownedTuple? (hc : base.Novel h c) (hid : c.ownedTuple? h = some id) :
    ¬base.arena.Occupied id.index := by
  obtain ⟨-, v, hv, hnot⟩ := hc
  exact hnot id (hv.tupleId?_eq ▸ Cell.tupleId?_of_ownedTuple? hid)

/-- Adopting changes no value. -/
@[simp] theorem heap_adopt (s : Store) (parent child : TupleId) :
    (s.adopt parent child).heap = s.heap := by
  unfold adopt
  split <;> rfl

/-- The free list of a sound arena holds no occupied slot. -/
theorem Sound.not_occupied (hs : s.Sound) {i : Nat} (hi : i ∈ s.arena.free) :
    ¬s.arena.Occupied i := by
  rintro ⟨n, t, hslot⟩
  obtain ⟨slot, hslot', hvacant⟩ := (hs.arena.mem_free i).mp hi
  rw [hslot] at hslot'
  cases hslot'
  cases hvacant

namespace Aside

/-- Nothing has been done yet. -/
protected theorem refl (hfree : ∀ i ∈ base.arena.free, ¬base.arena.Occupied i) :
    base.Aside scope base where
  kept _ _ _ h := h
  free := hfree
  novelty _ n t h hnot := absurd ⟨n, t, h⟩ hnot
  heap := .refl _
  root := rfl
  forms := rfl
  settings := rfl

/-- Every live tuple is one of the base or a novelty. -/
theorem cases (hs : base.Aside scope s) (ht : s.tuple? id = some t) :
    base.tuple? id = some t ∨ ¬base.arena.Occupied id.index ∧ base.Novelty scope s.heap t := by
  obtain ⟨n, hslot, hgen⟩ := Arena.get?_eq_some_iff.mp ht
  by_cases hocc : base.arena.Occupied id.index
  · obtain ⟨m, u, hbase⟩ := hocc
    have hsame := hs.kept _ m u hbase
    rw [hslot] at hsame
    cases hsame
    exact .inl (Arena.get?_eq_some_iff.mpr ⟨n, hbase, hgen⟩)
  · exact .inr ⟨hocc, hs.novelty _ n t hslot hocc⟩

/-! ## Changes aside -/

/-- A change of one slot that is not of the base. -/
theorem of_touches (hs : base.Aside scope s) {i : Nat} {a : Arena} (htouch : s.arena.Touches i a)
    (hi : ¬base.arena.Occupied i) (hfree : ∀ j ∈ a.free, ¬base.arena.Occupied j)
    (hnovel : ∀ n t, a.slots[i]? = some ⟨n, some t⟩ → base.Novelty scope s.heap t) :
    base.Aside scope { s with arena := a } where
  kept j n t hj := by
    have hne : j ≠ i := by
      rintro rfl
      exact hi ⟨n, t, hj⟩
    exact (htouch.others j hne).trans (hs.kept j n t hj)
  free := hfree
  novelty j n t hj hocc := by
    by_cases hji : j = i
    · subst hji
      exact hnovel n t hj
    · exact hs.novelty j n t (htouch.others j hji ▸ hj) hocc
  heap := hs.heap
  root := hs.root
  forms := hs.forms
  settings := hs.settings

/-- A novel tuple may be changed into another. -/
theorem putTuple (hs : base.Aside scope s) (hid : ¬base.arena.Occupied id.index)
    (ht : base.Novelty scope s.heap t) : base.Aside scope (s.putTuple id t) := by
  refine hs.of_touches (Arena.touches_put s.arena id t) hid ?_ fun n u hu => ?_
  · simpa using hs.free
  · rcases Arena.slots_put hu with ⟨-, rfl⟩ | hu
    · exact ht
    · exact hs.novelty _ n u hu hid

/-- A novel tuple goes into a slot that is not of the base. -/
theorem alloc (hs : base.Aside scope s) (ht : base.Novelty scope s.heap t) :
    base.Aside scope (s.alloc t).2 ∧ ¬base.arena.Occupied (s.alloc t).1.index := by
  have hindex : ¬base.arena.Occupied (s.arena.alloc t).1.index := by
    rcases Arena.index_alloc s.arena t with hmem | hsize
    · exact hs.free _ hmem
    · -- the slots of the base are all there, so that this is none of them
      rintro ⟨n, u, hu⟩
      have hlt := (Array.getElem?_eq_some_iff.mp (hs.kept _ n u hu)).1
      omega
  refine ⟨hs.of_touches (Arena.touches_alloc s.arena t) hindex ?_ fun n u hu => ?_, hindex⟩
  · exact fun j hj => hs.free j (Arena.free_alloc_subset s.arena t hj)
  · rcases Arena.slots_alloc hu with ⟨-, rfl⟩ | hu
    · exact ht
    · exact hs.novelty _ n u hu hindex

/-- A slot that is not of the base may be vacated. -/
theorem vacate (hs : base.Aside scope s) {i : Nat} (hi : ¬base.arena.Occupied i) :
    base.Aside scope { s with arena := s.arena.vacate i } := by
  refine hs.of_touches (Arena.touches_vacate s.arena i) hi (fun j hj => ?_) fun n u hu => ?_
  · rcases List.mem_cons.mp hj with rfl | hj
    · exact hi
    · exact hs.free j hj
  · exact hs.novelty i n u (Arena.slots_vacate hu) hi

/-- The heap may grow. -/
theorem onHeap (hs : base.Aside scope s) (hgrows : s.heap.Grows h) :
    base.Aside scope { s with heap := h } where
  kept := hs.kept
  free := hs.free
  novelty i n t hi hocc := (hs.novelty i n t hi hocc).grows hgrows
  heap := hs.heap.trans hgrows
  root := hs.root
  forms := hs.forms
  settings := hs.settings

/-- A novel tuple may become the scope around another. -/
theorem adopt (hs : base.Aside scope s) {parent child : TupleId}
    (hparent : ¬base.arena.Occupied parent.index) (hchild : ¬base.arena.Occupied child.index) :
    base.Aside scope (s.adopt parent child) := by
  unfold Store.adopt
  split
  · rename_i t ht
    obtain ⟨n, hslot, -⟩ := Arena.get?_eq_some_iff.mp ht
    have hnovel := hs.novelty _ n t hslot hchild
    exact hs.putTuple hchild { hnovel with parent := ⟨parent, rfl, .inr hparent⟩ }
  · exact hs

/-- Destroying a novelty gives up novelties only. -/
theorem destroyWithin (n : Nat) (hs : base.Aside scope s) (hid : ¬base.arena.Occupied id.index) :
    base.Aside scope (Store.destroyWithin n s id) := by
  induction n generalizing s id with
  | zero => exact hs
  | succ n ih =>
    rcases destroyWithin_cases s id with hnot | ⟨hroot, t, ht⟩
    · rw [destroyWithin_of_not _ hnot]
      exact hs
    · rw [destroyWithin_succ n hroot ht]
      obtain ⟨m, hslot, -⟩ := Arena.get?_eq_some_iff.mp ht
      have hnovel := hs.novelty _ m t hslot hid
      -- the cells of the tuple own novelties; releasing them one by one is the induction
      have hcells : ∀ cells : List Cell, (∀ c ∈ cells, base.Novel s.heap c) → ∀ s' : Store,
          base.Aside scope s' → s'.heap = s.heap →
          base.Aside scope (cells.foldl (releaseWithin n) s') := by
        intro cells
        induction cells with
        | nil => exact fun _ s' hs' _ => hs'
        | cons c cells ihcells =>
          intro hc s' hs' hheap
          have hrest : ∀ d ∈ cells, base.Novel s.heap d :=
            fun d hd => hc d (List.mem_cons_of_mem _ hd)
          rw [List.foldl_cons]
          unfold releaseWithin
          split
          · rename_i child hchild
            rw [hheap] at hchild
            refine ihcells hrest _ (ih hs' ((hc c List.mem_cons_self).ownedTuple? hchild)) ?_
            exact (sameButArena_destroyWithin n s' child).heap.trans hheap
          · exact ihcells hrest s' hs' hheap
      have hemptied : base.Aside scope (s.putTuple id t.drain.2) := by
        refine hs.putTuple hid ⟨hnovel.permits, rfl, rfl, rfl, hnovel.parent, ?_⟩
        intro e he
        cases he
      refine (hcells t.drain.1 (fun c hc => ?_) _ hemptied rfl).vacate hid
      obtain ⟨e, he, rfl⟩ := List.mem_map.mp hc
      exact hnovel.entries e he

end Aside

/-! ## Parsing -/

/-- A handle on an attribute of the base, without a lock only if the tuple may be modified. -/
def Handle (base : Store) (c : Cell) : Prop :=
  c.owned = false ∧ ∃ id t, base.tuple? id = some t ∧ ∃ e ∈ t.entries, e.cell.loc = c.loc ∧
    (c.lockedBy = none → t.permissions.modify = true)

/-- A leaf is a new cell or a handle on an attribute of the base. -/
def LeafOf (base : Store) (h : Heap) (c : Cell) : Prop := base.Novel h c ∨ base.Handle c

/-- Stores with novelties beside the base, known by their heaps. -/
def aside (base : Store) (scope : TupleId) : Regime Store where
  World := Heap
  Later := Heap.Grows
  refl := .refl
  trans := .trans
  Holds h s := s.heap = h ∧ base.Aside scope s

/-- Novelties are built from novel cells. -/
def asideBuilding (base : Store) (scope : TupleId) : Building (aside base scope) where
  CellOk := base.Novel
  Open _ id := ¬base.arena.Occupied id.index
  cell_lasts hlater hc := hc.grows hlater
  open_lasts _ h := h
  owned := by
    rintro w s c id ⟨rfl, -⟩ hc hid
    exact hc.ownedTuple? hid
  insert := by
    rintro w s id t t' name cell pos ⟨rfl, hs⟩ hid hcell ht hinsert
    obtain ⟨n, hslot, -⟩ := Arena.get?_eq_some_iff.mp ht
    have hnovel := hs.novelty _ n t hslot hid
    have ht' := Tuple.insertInitial_eq_ok hinsert
    refine ⟨s.heap, .refl _, rfl, hs.putTuple hid ?_⟩
    rw [ht']
    refine { hnovel with entries := fun e he => ?_ }
    rcases List.mem_append.mp he with he | he
    · exact hnovel.entries e he
    · rw [List.mem_singleton.mp he]
      exact hcell
  adopt := by
    rintro w parent child hparent hchild v hv s ⟨rfl, hs⟩
    exact ⟨s.heap, .refl _, heap_adopt s parent child, hs.adopt hparent hchild⟩
  destroy := by
    rintro w id hid v hv s ⟨rfl, hs⟩
    exact ⟨s.heap, .refl _, (sameButArena_destroyWithin _ s id).heap, hs.destroyWithin _ hid⟩

/-- A new cell without a tuple is novel. -/
theorem keeps_newCell_aside (w : Heap) (type : TypeDesc) {v : Value}
    (hv : ∀ id, v.tupleId? = some id → ¬base.arena.Occupied id.index) {E : Error → Prop} :
    (aside base scope).Keeps w (StoreM.newCell type v)
      (fun h c => base.Novel h c ∧ c.type = type) E := by
  rintro u - s ⟨rfl, hs⟩
  have hgrows := Cell.grows_make s.heap type v
  refine .onHeap
    ⟨_, hgrows, ⟨rfl, hs.onHeap hgrows⟩, ⟨?_, v, Cell.stores_make s.heap type v, hv⟩, rfl⟩
  -- the heap of the base is not longer than the one that the new place is at the end of
  change base.heap.values.size ≤ s.heap.values.size
  exact hs.heap.size_le

/-- A variable is a handle on an attribute of the base, or on one of a novelty. -/
theorem Aside.leafOf_variableCell? (hs : base.Aside scope s) {name : String}
    (hc : s.variableCell? scope name = some c) : base.LeafOf s.heap c := by
  simp only [variableCell?, bind, Option.bind_eq_some_iff] at hc
  obtain ⟨⟨owner, pos⟩, -, t, ht, cell, hcell, hc⟩ := hc
  simp only [pure, Option.some.injEq] at hc
  simp only [Tuple.cellAt?, Option.map_eq_some_iff] at hcell
  obtain ⟨e, he, rfl⟩ := hcell
  have hmem : e ∈ t.entries := List.mem_of_getElem? he
  have hloc : c.loc = e.cell.loc := by
    rw [← hc]
    split <;> rfl
  rcases hs.cases ht with hbase | ⟨-, hnovel⟩
  · refine .inr ⟨?_, owner, t, hbase, e, hmem, hloc.symm, fun hlock => ?_⟩
    · rw [← hc]
      split <;> rfl
    · -- without the permission the handle would be locked
      by_contra hdenied
      rw [← hc, if_neg hdenied] at hlock
      cases hlock
  · obtain ⟨hle, v, hv, hid⟩ := hnovel.entries e hmem
    exact .inl ⟨hloc ▸ hle, v, by rw [Cell.Stores, hloc]; exact hv, hid⟩

/-- The parser builds a novelty in its scope. -/
theorem parses_build_aside (w : Heap) {kind : TupleKind} {entries : List (Option String × Cell)}
    (hkind : kind.fixedPermissions?.isSome) (hentries : ∀ p ∈ entries, base.Novel w p.2) :
    (aside base scope).Parses w (ValueReader.build scope kind entries) base.Novel := by
  have hcreate : (aside base scope).Keeps w (StoreM.change (·.create kind (some scope)))
      (asideBuilding base scope).Open Error.OfBuilding := by
    rintro u - s ⟨rfl, hs⟩
    -- a tuple just created holds nothing, and its parent is the scope itself
    have hempty : base.Novelty scope s.heap
        { kind, permissions := kind.fixedPermissions?.getD {}, parent := some scope } := by
      refine ⟨?_, rfl, rfl, rfl, ⟨scope, rfl, .inl rfl⟩, fun e he => by cases he⟩
      cases kind <;> first | rfl | cases hkind
    exact .change ⟨s.heap, .refl _, ⟨rfl, (hs.alloc hempty).1⟩, (hs.alloc hempty).2⟩
  refine Regime.Keeps.parser (E := fun _ => True) ?_
  have hbuilt := (asideBuilding base scope).createFrom hcreate hentries
  refine .bind (hbuilt.mono (fun _ _ _ h => h) fun _ _ => trivial) fun id v _ hid => ?_
  -- the value the literal stands for is a cell of the new tuple
  refine .get_bind fun u _ s _ => .bind (Q := fun _ _ => True)
    (.ofExcept (fun _ _ _ _ => trivial) fun _ _ => trivial) fun type x _ _ => ?_
  refine (keeps_newCell_aside x type fun id' hid' => ?_).weaken fun _ _ _ hc => hc.1
  cases hid'
  exact hid

/-- Giving up the leaves of good trees gives up novelties only. -/
theorem moves_releaseNodes_aside (w : Heap) {Bound : Binding → Prop} {nodes : List Node}
    (hnodes : ∀ n ∈ nodes, n.Forms (base.LeafOf w) Bound) :
    (aside base scope).Moves w (·.releaseNodes nodes) := by
  have hcells : ∀ cells : List Cell, (∀ c ∈ cells, base.LeafOf w c) →
      (aside base scope).Moves w (·.releaseAll cells) := by
    intro cells hcells
    induction cells with
    | nil => exact fun v _ s hs => ⟨v, .refl v, hs⟩
    | cons c cells ih =>
      refine Regime.Moves.comp (f := (·.release c)) ?_
        (ih fun d hd => hcells d (List.mem_cons_of_mem _ hd))
      rcases hcells c List.mem_cons_self with hnovel | ⟨hborrowed, -⟩
      · exact (asideBuilding base scope).release hnovel
      · -- a handle owns nothing
        intro v _ s hs
        refine ⟨v, .refl v, ?_⟩
        change (aside base scope).Holds v (s.release c)
        rwa [Store.release, Cell.ownedTuple?, hborrowed]
  refine hcells (Node.cellsOf nodes) fun c hc => ?_
  obtain ⟨n, hn, hc⟩ := Node.mem_cellsOf hc
  exact (hnodes n hn).cells c hc

/-- Parsing works aside. Its leaves are new cells and handles on attributes of the base; its
bindings have every property that the choice of an action gives them in a store with novelties. -/
def asideParsing (base : Store) (scope : TupleId) (Bound : Binding → Prop)
    (hbound : ∀ s draft action owner args argNames, base.Aside scope s →
      Choice.mostSpecific (s.candidates scope draft owner args) = .one action →
      Bound ⟨draft.op, draft.name, action, action.signature.resolveReturn owner args, argNames⟩)
    (hcompared : ∀ s draft owner args compare ordering relation returns, base.Aside scope s →
      draft.Regular → draft.op.isRelational →
      s.comparison? scope draft owner args = some (compare, ordering, relation, returns) →
      Bound { op := draft.op, name := draft.name, action := relation, type := returns } ∧
      Bound { op := .cmp, name := Operator.cmp.actionName, action := compare, type := ordering }) :
    Parsing (aside base scope) scope where
  CellOk := base.Novel
  NodeOk h n := n.Forms (base.LeafOf h) Bound
  cell_lasts hlater hc := hc.grows hlater
  node_lasts hlater hn := hn.mono fun c hc => hc.imp_left fun h => h.grows hlater
  scalar w token negative typed hread := by
    refine (keeps_newCell_aside w _ fun id hid => ?_).weaken fun _ _ _ hc => hc.1
    rw [Literal.tupleId?_read hread] at hid
    cases hid
  native w n v := by
    refine keeps_newCell_aside w (.leaf n.typeName) fun id hid => ?_
    rw [show (n.wrap v).tupleId? = none from Literal.tupleId?_native n v] at hid
    cases hid
  build w kind entries hkind hentries := parses_build_aside w hkind hentries
  giveUp w cells hcells := (asideBuilding base scope).releaseAll hcells
  giveUpNodes w nodes hnodes := moves_releaseNodes_aside w hnodes
  literal w c hc := .value (.inl hc)
  variableCell := by
    rintro w s name c ⟨rfl, hs⟩ hc
    exact .value (hs.leafOf_variableCell? hc)
  bound := by
    rintro w s draft action owner args ⟨-, hs⟩ - hchildren - hchoice
    exact Draft.forms_bound hchildren fun argNames =>
      hbound s draft action owner args argNames hs hchoice
  compared := by
    rintro v w s draft owner args compare ordering relation returns zero ⟨-, hs⟩ hregular hop
      hchildren - hcomparison hlater hzero -
    obtain ⟨hrelation, hcompare⟩ :=
      hcompared s draft owner args compare ordering relation returns hs hregular hop hcomparison
    refine .apply hrelation fun n hn => ?_
    rcases List.mem_cons.mp hn with rfl | hn
    · exact .apply hcompare fun n hn =>
        (hchildren n hn).mono fun c hc => hc.imp_left fun h => h.grows hlater
    · rw [List.mem_singleton.mp hn]
      exact .value (.inl hzero)

end Store

end TupleLang
