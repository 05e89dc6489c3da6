import TupleLang.Proofs.Building
import TupleLang.Proofs.Culling
import TupleLang.Proofs.LinearReader

/-!
# What persists

The regime `Store.evaluating base` is about stores that have come about from `base` in such a way
that every tuple of the base is as it was or gone for good, and that the attributes of tuples that
may not be modified have their old values.

A slot of the base is *released* once its tuple is gone; only released slots are written to. A place
of the heap is *loose* when the tuple in it, if any, is in a released slot. The cells that own their
values are in such places, so that whatever is moved into a new tuple was made on the way.
-/

namespace TupleLang

namespace Store

/-! ## Places and slots -/

/-- The slot is not one of the base, or the tuple of the base in it is gone. -/
def Released (base : Store) (a : Arena) (i : Nat) : Prop :=
  ∀ (n : Nat) (t : Tuple), base.arena.slots[i]? = some ⟨n, some t⟩ →
    ∃ slot, a.slots[i]? = some slot ∧ n < slot.vacated

/-- The place holds a value, and no tuple of the base that is still there. -/
def LoosePlace (base s : Store) (loc : Nat) : Prop :=
  ∃ v, s.heap.values[loc]? = some v ∧ ∀ id, v.tupleId? = some id → base.Released s.arena id.index

/-- The tuple in a loose place is in a released slot. -/
theorem LoosePlace.released {base s : Store} {c : Cell} {id : TupleId}
    (h : base.LoosePlace s c.loc) (hid : c.tupleId? s.heap = some id) :
    base.Released s.arena id.index := by
  obtain ⟨v, hv, hreleased⟩ := h
  exact hreleased id (Cell.Stores.tupleId?_eq (c := c) hv ▸ hid)

/-- The place is that of an attribute of a tuple that may not be modified. -/
def Guarded (base : Store) (loc : Nat) : Prop :=
  ∃ id t, base.tuple? id = some t ∧ t.permissions.modify = false ∧ ∃ e ∈ t.entries, e.cell.loc = loc

/-- Every tuple of the base is there as it was or gone for good; guarded places are as they were. -/
structure Persists (base s : Store) : Prop where
  kept : ∀ (i n : Nat) (t : Tuple), base.arena.slots[i]? = some ⟨n, some t⟩ →
    s.arena.slots[i]? = some ⟨n, some t⟩ ∨ base.Released s.arena i
  free : ∀ i ∈ s.arena.free, base.Released s.arena i
  guarded : ∀ loc, base.Guarded loc →
    loc < s.heap.values.size ∧ s.heap.values[loc]? = base.heap.values[loc]?

/-- What was released or loose stays so, and places stay in use. -/
structure Follows (base s s' : Store) : Prop where
  released : ∀ i, base.Released s.arena i → base.Released s'.arena i
  loose : ∀ loc, base.LoosePlace s loc → base.LoosePlace s' loc
  size : s.heap.values.size ≤ s'.heap.values.size

variable {base s s' s'' : Store} {id : TupleId} {t : Tuple} {c : Cell} {i loc : Nat}

namespace Follows

/-- A store follows itself. -/
protected theorem refl (base s : Store) : base.Follows s s :=
  ⟨fun _ h => h, fun _ h => h, le_rfl⟩

/-- Following twice is following. -/
protected theorem trans (h : base.Follows s s') (h' : base.Follows s' s'') : base.Follows s s'' :=
  ⟨fun i hi => h'.released i (h.released i hi), fun loc hloc => h'.loose loc (h.loose loc hloc),
    h.size.trans h'.size⟩

/-- A change of the arena in which released slots stay released. -/
theorem of_arena {a : Arena} (hreleased : ∀ i, base.Released s.arena i → base.Released a i) :
    base.Follows s { s with arena := a } where
  released := hreleased
  loose := by
    rintro loc ⟨v, hv, hid⟩
    exact ⟨v, hv, fun id h => hreleased _ (hid id h)⟩
  size := le_rfl

end Follows

/-! ## Changes of one slot -/

/-- A slot stays released when one slot changes. -/
theorem Released.touches {a : Arena} (h : base.Released s.arena i) {j : Nat}
    (htouch : s.arena.Touches j a) : base.Released a i := by
  intro n t hbase
  obtain ⟨slot, hslot, hlt⟩ := h n t hbase
  by_cases hij : i = j
  · subst hij
    obtain ⟨slot', hslot', hle⟩ := htouch.count slot hslot
    exact ⟨slot', hslot', hlt.trans_le hle⟩
  · exact ⟨slot, (htouch.others i hij).trans hslot, hlt⟩

/-- Released slots may be changed. -/
theorem Persists.of_touches (hs : base.Persists s) {a : Arena} (htouch : s.arena.Touches i a)
    (hi : base.Released s.arena i) (hfree : a.free ⊆ s.arena.free) :
    base.Persists { s with arena := a } ∧ base.Follows s { s with arena := a } := by
  have hreleased : ∀ j, base.Released s.arena j → base.Released a j := fun j hj => hj.touches htouch
  refine ⟨⟨fun j n t hj => ?_, fun j hj => hreleased j (hs.free j (hfree hj)), hs.guarded⟩,
    .of_arena hreleased⟩
  by_cases hji : j = i
  · exact .inr (hji ▸ hreleased i hi)
  · rcases hs.kept j n t hj with hsame | hgone
    · exact .inl ((htouch.others j hji).trans hsame)
    · exact .inr (hreleased j hgone)

/-- A tuple in a released slot may be changed. -/
theorem Persists.putTuple (hs : base.Persists s)
    (hid : base.Released s.arena id.index) (t : Tuple) :
    base.Persists (s.putTuple id t) ∧ base.Follows s (s.putTuple id t) :=
  hs.of_touches (Arena.touches_put s.arena id t) hid (by simp)

/-- A tuple is moved into a slot that is not of the base or was released. -/
theorem Persists.alloc (hs : base.Persists s) (t : Tuple) :
    base.Persists (s.alloc t).2 ∧ base.Follows s (s.alloc t).2 ∧
      base.Released (s.alloc t).2.arena (s.alloc t).1.index := by
  have htouch := Arena.touches_alloc s.arena t
  have hindex : base.Released s.arena (s.arena.alloc t).1.index := by
    rcases Arena.index_alloc s.arena t with hmem | hsize
    · exact hs.free _ hmem
    · intro n u hu
      rw [hsize] at hu
      rcases hs.kept _ n u hu with hsame | hgone
      · simp at hsame
      · exact hsize ▸ hgone n u hu
  obtain ⟨hs', hfollows⟩ := hs.of_touches htouch hindex (Arena.free_alloc_subset s.arena t)
  exact ⟨hs', hfollows, hfollows.released _ hindex⟩

/-- Any tuple may be destroyed: its slot is released then. -/
theorem Persists.destroy (hs : base.Persists s) (id : TupleId) :
    base.Persists (s.destroy id) ∧ base.Follows s (s.destroy id) := by
  have hculls := culls_destroyWithin (s.arena.entryCount + 1) s id
  have hbut := sameButArena_destroyWithin (s.arena.entryCount + 1) s id
  have hreleased : ∀ i, base.Released s.arena i → base.Released (s.destroy id).arena i := by
    intro i hi n t hbase
    obtain ⟨slot, hslot, hlt⟩ := hi n t hbase
    rcases hculls.slots i with hsame | ⟨_, slot', hslot', hgrown, hlt'⟩
    · exact ⟨slot, hsame.trans hslot, hlt⟩
    · rw [hslot] at hslot'
      cases hslot'
      exact ⟨slot', hgrown, hlt.trans hlt'⟩
  -- a slot that has been vacated is no longer that of a tuple of the base
  have hgrown : ∀ i, s.arena.Grown (s.destroy id).arena i →
      base.Released (s.destroy id).arena i := by
    rintro i ⟨slot, slot', hslot, hslot', hlt⟩ n t hbase
    rcases hs.kept i n t hbase with hsame | hgone
    · rw [hslot] at hsame
      cases hsame
      exact ⟨slot', hslot', hlt⟩
    · exact hreleased i hgone n t hbase
  refine ⟨⟨fun i n t hi => ?_, fun i hi => ?_, ?_⟩, hreleased, ?_, ?_⟩
  · rcases hs.kept i n t hi with hsame | hgone
    · exact (hculls.slots i).imp (fun h => h.trans hsame) (hgrown i)
    · exact .inr (hreleased i hgone)
  · rcases hculls.free i hi with hi | hi
    · exact hreleased i (hs.free i hi)
    · exact hgrown i hi
  · rw [Store.destroy, hbut.heap]
    exact hs.guarded
  · rintro loc ⟨v, hv, hid⟩
    exact ⟨v, by rwa [Store.destroy, hbut.heap], fun id h => hreleased _ (hid id h)⟩
  · rw [Store.destroy, hbut.heap]

/-! ## Changes of the heap -/

/-- A new place is not guarded, and loose if no tuple of the base is put there. -/
theorem Persists.make (hs : base.Persists s) (type : TypeDesc) {v : Value} :
    let s' : Store := { s with heap := (Cell.make s.heap type v).2 }
    base.Persists s' ∧ base.Follows s s' ∧ ¬base.Guarded (Cell.make s.heap type v).1.loc := by
  have hgrows := Cell.grows_make s.heap type v
  refine ⟨⟨hs.kept, hs.free, fun loc hloc => ?_⟩, ⟨fun _ h => h, ?_, hgrows.size_le⟩,
    fun hloc => ?_⟩
  · obtain ⟨hlt, hsame⟩ := hs.guarded loc hloc
    refine ⟨hlt.trans_le hgrows.size_le, ?_⟩
    rw [← hsame, Array.getElem?_eq_getElem hlt]
    exact hgrows loc _ (Array.getElem?_eq_getElem hlt)
  · rintro loc ⟨v, hv, hid⟩
    exact ⟨v, hgrows loc v hv, hid⟩
  · have hlt := (hs.guarded _ hloc).1
    simp [Cell.make, Heap.alloc] at hlt

/-- A place that is not guarded may be written to, with no tuple of the base. -/
theorem Persists.write (hs : base.Persists s) (hloc : ¬base.Guarded loc) {v : Value}
    (hv : ∀ id, v.tupleId? = some id → base.Released s.arena id.index) :
    base.Persists { s with heap := s.heap.put loc v } ∧
      base.Follows s { s with heap := s.heap.put loc v } := by
  have hsize : (s.heap.put loc v).values.size = s.heap.values.size := by simp [Heap.put]
  refine ⟨⟨hs.kept, hs.free, fun other hother => ?_⟩, fun _ h => h, ?_, hsize.ge⟩
  · -- no guarded place is written to
    have hne : loc ≠ other := by
      rintro rfl
      exact hloc hother
    obtain ⟨hlt, hsame⟩ := hs.guarded other hother
    refine ⟨hsize ▸ hlt, ?_⟩
    simpa [Heap.put, Array.getElem?_setIfInBounds_ne hne] using hsame
  · rintro other ⟨u, hu, hid⟩
    by_cases hother : loc = other
    · subst hother
      have hlt := (Array.getElem?_eq_some_iff.mp hu).1
      exact ⟨v, by simp [Heap.put, hlt], hv⟩
    · exact ⟨u, by simpa [Heap.put, Array.getElem?_setIfInBounds_ne hother] using hu, hid⟩

/-! ## The regime -/

/-- Stores in which the base persists. -/
def evaluating (base : Store) : Regime Store where
  World := Store
  Later := base.Follows
  refl := .refl base
  trans := .trans
  Holds w s := w = s ∧ base.Persists s

/-- A handle that does not write to a guarded place. -/
def Harmless (base s : Store) (c : Cell) : Prop :=
  c.loc < s.heap.values.size ∧ (c.lockedBy = none → ¬base.Guarded c.loc)

/-- A value on the way through an evaluation: a harmless handle, in a loose place if it owns it. -/
def Passing (base s : Store) (c : Cell) : Prop :=
  base.Harmless s c ∧ (c.owned = true → base.LoosePlace s c.loc)

/-- A harmless handle stays so. -/
theorem Harmless.follows (hc : base.Harmless s c) (h : base.Follows s s') : base.Harmless s' c :=
  ⟨hc.1.trans_le h.size, hc.2⟩

/-- What passes on stays so. -/
theorem Passing.follows (hc : base.Passing s c) (h : base.Follows s s') : base.Passing s' c :=
  ⟨hc.1.follows h, fun howned => h.loose _ (hc.2 howned)⟩

/-- A new cell passes if no tuple of the base is in it. -/
theorem leads_make {v : Store} (hs : (evaluating base).Holds v s) (type : TypeDesc) {value : Value}
    (hvalue : ∀ id, value.tupleId? = some id → base.Released s.arena id.index) {E : Error → Prop} :
    (evaluating base).Leads v s (StoreM.newCell type value) base.Passing E := by
  obtain ⟨rfl, hs⟩ := hs
  obtain ⟨hs', hfollows, hloc⟩ := hs.make type (v := value)
  have hstores := Cell.stores_make v.heap type value
  refine .onHeap ⟨_, hfollows, ⟨rfl, hs'⟩, ⟨?_, fun _ => hloc⟩, fun _ => ⟨value, hstores, hvalue⟩⟩
  exact (Array.getElem?_eq_some_iff.mp hstores).1

/-- A new native cell passes. -/
theorem keeps_native (w : Store) (n : Native) (v : n.Carrier) (type : TypeDesc) {E : Error → Prop} :
    (evaluating base).Keeps w (StoreM.newCell type (n.wrap v)) base.Passing E := by
  intro u _ s hs
  refine leads_make hs type fun id hid => ?_
  rw [show (n.wrap v).tupleId? = none from Literal.tupleId?_native n v] at hid
  cases hid

/-- A new void cell passes. -/
theorem keeps_void (w : Store) {E : Error → Prop} :
    (evaluating base).Keeps w StoreM.newVoid base.Passing E :=
  fun _ _ _ hs => leads_make hs .void fun _ hid => by cases hid

/-- Copies are built in released slots from new cells. -/
def evaluatingCopying (base : Store) : Copying (evaluating base) where
  CellOk s c := c.owned = true → base.LoosePlace s c.loc
  Open s id := base.Released s.arena id.index
  cell_lasts hlater hc howned := hlater.loose _ (hc howned)
  open_lasts hlater h := hlater.released _ h
  owned := by
    rintro w s c id ⟨rfl, -⟩ hc hid
    have howned : c.owned = true := by
      by_contra hborrowed
      simp [Cell.ownedTuple?, hborrowed] at hid
    exact (hc howned).released (Cell.tupleId?_of_ownedTuple? hid)
  insert := by
    rintro w s id t t' name cell pos ⟨rfl, hs⟩ hid - - -
    obtain ⟨hs', hfollows⟩ := hs.putTuple hid t'
    exact ⟨_, hfollows, rfl, hs'⟩
  adopt := by
    rintro w parent child - hchild v hv s ⟨rfl, hs⟩
    change ∃ v', base.Follows v v' ∧ (evaluating base).Holds v' (v.adopt parent child)
    unfold Store.adopt
    split
    · obtain ⟨hs', hfollows⟩ := hs.putTuple (hv.released _ hchild) _
      exact ⟨_, hfollows, rfl, hs'⟩
    · exact ⟨v, .refl base v, rfl, hs⟩
  destroy := by
    rintro w id - v - s ⟨rfl, hs⟩
    exact ⟨_, (hs.destroy id).2, rfl, (hs.destroy id).1⟩
  SourceOk _ _ := True
  source_lasts _ _ := trivial
  entries _ _ _ _ := trivial
  create := by
    rintro w kind permissions parent v - s ⟨rfl, hs⟩
    obtain ⟨hs', hfollows, hreleased⟩ :=
      hs.alloc { kind, permissions := kind.fixedPermissions?.getD permissions, parent }
    exact .change ⟨_, hfollows, ⟨rfl, hs'⟩, hreleased⟩
  reborrow := by
    rintro w c - v - s ⟨rfl, hs⟩
    refine .onHeap ?_
    unfold Cell.reborrow
    split
    · obtain ⟨hs', hfollows, -⟩ := hs.make c.type (v := c.value v.heap)
      exact ⟨_, hfollows, ⟨rfl, hs'⟩, trivial⟩
    · exact ⟨v, .refl base v, ⟨rfl, hs⟩, trivial⟩
  shared _ hborrowed howned := by simp [hborrowed] at howned
  scalar := by
    rintro w s c hs - hnone
    have hmade : (evaluating base).Leads w s (StoreM.newCell c.type (c.value s.heap)) base.Passing
        Error.OfBuilding := by
      refine leads_make hs c.type fun id hid => ?_
      rw [← Cell.tupleId?, hnone] at hid
      cases hid
    exact hmade.mono (fun _ _ _ hc => hc.2) fun _ he => he
  tuple := by
    rintro v w s c id k - - - - hk u hu s' hs'
    refine (leads_make hs' c.type fun id hid => ?_).mono (fun _ _ _ hc => hc.2) fun _ he => he
    cases hid
    obtain ⟨rfl, -⟩ := hs'
    exact hu.released _ hk

end Store

end TupleLang
