import TupleLang.Proofs.Refusal

/-!
# Deep copies

A copy of a tuple has the same kind, permissions and attributes. `Store.Mirrors` says this of the
attributes and of all tuples that they own: a value that an attribute owns is in a new place, and an
owned tuple is a new tuple, which is made in the same way; an attribute that only refers to a value
is the same attribute.

A tuple is copied in the store that it is in, and each tuple of the copy changes the arena before
the next one is made. Still, the copy is one of the tuple as it was at first. The ids that tuples
get from now on, as long as no slot is vacated, are *ahead* (`Arena.Ahead`). None of them is in the
attributes of a live tuple, so that what an attribute leads to was there at first and has not
changed since (`Store.Sprouts`).

Where an attribute leads to a tuple that is gone, or where a tuple refuses an attribute that the one
it is copied from has, all of the copy that there is by then is given up.
-/

namespace TupleLang

namespace Arena

/-- The id is one of those given out from now on, as long as no slot is vacated: its slot is vacant
and has come to its generation, or there is no such slot yet. -/
def Ahead (a : Arena) (id : TupleId) : Prop :=
  match a.slots[id.index]? with
  | some slot => slot.tuple = none ∧ slot.generation = id.generation
  | none => id.generation = 0

variable {a : Arena} {id : TupleId} {t : Tuple}

/-- The next id is ahead. -/
theorem ahead_alloc (hs : a.Sound) (t : Tuple) : a.Ahead (a.alloc t).1 := by
  unfold alloc
  cases hfree : a.free with
  | nil => simp [Ahead]
  | cons i free =>
    obtain ⟨slot, hslot, hvacant⟩ := (hs.mem_free i).mp (by simp [hfree])
    simp [Ahead, hslot, hvacant]

/-- Moving a tuple in puts no further id ahead. -/
theorem ahead_of_alloc (h : (a.alloc t).2.Ahead id) : a.Ahead id := by
  unfold alloc at h
  cases hfree : a.free with
  | nil =>
    simp only [hfree, Ahead, Array.getElem?_push] at h ⊢
    by_cases hindex : id.index = a.slots.size
    · simp [hindex] at h
    · simpa [hindex] using h
  | cons i free =>
    simp only [hfree, Ahead, Array.getElem?_modify] at h ⊢
    by_cases hindex : i = id.index
    · cases hslot : a.slots[id.index]? with
      | none => simpa [hindex, hslot] using h
      | some slot => simp [hindex, hslot] at h
    · simpa [hindex] using h

/-- Replacing a tuple puts no further id ahead. -/
theorem ahead_of_put {x : TupleId} (h : (a.put x t).Ahead id) : a.Ahead id := by
  unfold put at h
  split at h
  · simp only [Ahead, Array.getElem?_modify] at h ⊢
    by_cases hindex : x.index = id.index
    · cases hslot : a.slots[id.index]? with
      | none => simpa [hindex, hslot] using h
      | some slot => simp [hindex, hslot] at h
    · simpa [hindex] using h
  · exact h

/-- A live tuple is not ahead. -/
theorem not_ahead_of_live (h : a.get? id = some t) : ¬a.Ahead id := by
  obtain ⟨n, hslot, -⟩ := get?_eq_some_iff.mp h
  simp [Ahead, hslot]

/-! ### Counting -/

/-- The ids of the live tuples. -/
def ids (a : Arena) : List TupleId :=
  a.slots.toList.zipIdx.filterMap fun (slot, i) => slot.tuple.map fun _ => ⟨i, slot.generation⟩

/-- The ids of an arena are those of its live tuples. -/
theorem mem_ids : id ∈ a.ids ↔ ∃ t, a.get? id = some t := by
  simp only [ids, List.mem_filterMap, Prod.exists, List.mk_mem_zipIdx_iff_getElem?,
    Option.map_eq_some_iff, Array.getElem?_toList]
  constructor
  · rintro ⟨slot, i, hslot, t, ht, rfl⟩
    exact ⟨t, by simp [get?, hslot, ht]⟩
  · rintro ⟨t, ht⟩
    obtain ⟨n, hslot, hgen⟩ := get?_eq_some_iff.mp ht
    exact ⟨_, id.index, hslot, t, rfl, by simp only [Slot.generation, hgen]⟩

/-- Different slots give different ids. -/
theorem nodup_ids (a : Arena) : a.ids.Nodup := by
  have hsnd : (a.slots.toList.zipIdx.map Prod.snd).Pairwise (· < ·) := by
    rw [List.zipIdx_map_snd]
    exact List.pairwise_lt_range'
  refine List.pairwise_filterMap.mpr ((List.pairwise_map.mp hsnd).imp ?_)
  rintro ⟨slot, i⟩ ⟨slot', j⟩ hlt x hx y hy hxy
  obtain ⟨-, -, rfl⟩ := Option.map_eq_some_iff.mp hx
  obtain ⟨-, -, rfl⟩ := Option.map_eq_some_iff.mp hy
  exact absurd (congrArg TupleId.index hxy) (Nat.ne_of_lt hlt)

/-- There are as many of them as live tuples. -/
theorem length_ids (a : Arena) : a.ids.length = a.liveCount := by
  have hcount : ∀ (slots : List Slot) (n : Nat), ((slots.zipIdx n).filterMap fun (slot, i) =>
      slot.tuple.map fun _ => (⟨i, slot.generation⟩ : TupleId)).length =
        (slots.filterMap (·.tuple)).length := by
    intro slots
    induction slots with
    | nil => exact fun _ => rfl
    | cons slot slots ih =>
      intro n
      cases hslot : slot.tuple <;> simp [hslot, ih]
  exact hcount a.slots.toList 0

/-- What is live in one arena or else in a list, but not in both, counts as much as the two. -/
theorem liveCount_eq_add {a' : Arena} {new : List TupleId} (hnodup : new.Nodup)
    (hnew : ∀ x ∈ new, a.get? x = none)
    (hlive : ∀ x, (∃ t, a'.get? x = some t) ↔ x ∈ new ∨ ∃ t, a.get? x = some t) :
    a'.liveCount = a.liveCount + new.length := by
  have hperm : a'.ids.Perm (new ++ a.ids) := by
    refine (List.perm_ext_iff_of_nodup a'.nodup_ids ?_).mpr fun x => ?_
    · refine List.nodup_append.mpr ⟨hnodup, a.nodup_ids, fun x hx y hy hxy => ?_⟩
      obtain ⟨t, ht⟩ := mem_ids.mp hy
      simp [← hxy, hnew x hx] at ht
    · rw [mem_ids, hlive, List.mem_append, mem_ids]
  rw [← length_ids, hperm.length_eq, List.length_append, length_ids, Nat.add_comm]

end Arena

namespace Store

open Relation

variable {s s₁ s₂ s' : Store} {id k x : TupleId} {t t' : Tuple} {c c' : Cell}
  {es es' : List Attribute} {ids ids' : List TupleId}

/-! ## What is there at first -/

/-- The arena is sound, tuples have the permissions of their kind, the cells of attributes have
their places, and no attribute holds a tuple that is still to come. -/
structure Rooted (s : Store) : Prop where
  sound : s.Sound
  permissions : ∀ x t, s.tuple? x = some t →
    t.kind.fixedPermissions?.getD t.permissions = t.permissions
  stored : ∀ x t, s.tuple? x = some t → ∀ e ∈ t.entries, ∃ v, e.cell.Stores s.heap v ∧
    ∀ y, v.tupleId? = some y → ¬s.arena.Ahead y

/-- The store has come about from `s` by moving tuples in: those of `s` are as they were, and all
others have ids that were ahead. -/
structure Sprouts (s s₁ : Store) : Prop where
  sound : s₁.Sound
  kept : s.Extends s₁
  ahead : ∀ x, s₁.arena.Ahead x → s.arena.Ahead x
  new : ∀ x t, s₁.tuple? x = some t → s.tuple? x = some t ∨ s.tuple? x = none ∧ s.arena.Ahead x

namespace Sprouts

/-- Nothing has sprouted at first. -/
protected theorem refl (hs : s.Sound) : s.Sprouts s :=
  ⟨hs, ⟨fun _ _ h => h, .refl _⟩, fun _ h => h, fun _ _ h => .inl h⟩

/-- What is not ahead is what it was. -/
theorem tuple?_eq (h : s.Sprouts s₁) (hx : ¬s.arena.Ahead x) (ht : s₁.tuple? x = some t) :
    s.tuple? x = some t :=
  (h.new x t ht).resolve_right fun hnew => hx hnew.2

/-- A larger heap. -/
theorem grow (h : s.Sprouts s₁) {heap : Heap} (hgrows : s₁.heap.Grows heap) :
    s.Sprouts { s₁ with heap } :=
  ⟨⟨h.sound.arena, h.sound.root_live⟩, ⟨h.kept.tuples, h.kept.values.trans hgrows⟩, h.ahead, h.new⟩

/-- Another tuple is moved in. -/
theorem alloc (h : s.Sprouts s₁) (t : Tuple) :
    s.Sprouts (s₁.alloc t).2 ∧ s₁.Extends (s₁.alloc t).2 ∧ s₁.tuple? (s₁.alloc t).1 = none ∧
      (s₁.alloc t).2.tuple? (s₁.alloc t).1 = some t := by
  obtain ⟨hfresh, hget⟩ := Arena.get?_alloc h.sound.arena t
  have hkept : s₁.Extends (s₁.alloc t).2 := by
    refine ⟨fun x u hu => (hget x).trans (Eq.trans (if_neg ?_) hu), .refl _⟩
    -- an id that was live is not the one just handed out
    rintro rfl
    exact absurd hu (by simp [Store.tuple?, hfresh])
  obtain ⟨r, hr⟩ := h.sound.root_live
  refine ⟨⟨⟨h.sound.arena.alloc t, r, hkept.tuples _ r hr⟩, ?_, ?_, fun x u hu => ?_⟩, hkept,
    hfresh, (hget _).trans (if_pos rfl)⟩
  · exact ⟨fun x u hu => hkept.tuples x u (h.kept.tuples x u hu), h.kept.values⟩
  · exact fun x hx => h.ahead x (Arena.ahead_of_alloc hx)
  · rw [show (s₁.alloc t).2.tuple? x = _ from hget x] at hu
    -- the new tuple lies ahead of the original store; all others were there
    split at hu
    · rename_i hx
      refine .inr ⟨?_, h.ahead x (hx ▸ Arena.ahead_alloc h.sound.arena t)⟩
      cases hold : s.tuple? x with
      | none => rfl
      | some u' =>
        have := h.kept.tuples x u' hold
        rw [hx] at this
        exact absurd this (by simp [Store.tuple?, hfresh])
    · exact h.new x u hu

/-- A tuple that was not there at first changes. -/
theorem putTuple (h : s.Sprouts s₁) (hnew : s.tuple? k = none) (ht : s₁.tuple? k = some t)
    (t' : Tuple) : s.Sprouts (s₁.putTuple k t') := by
  have hput := tuple?_putTuple ht t'
  refine ⟨h.sound.putTuple ht t', ⟨fun x u hu => ?_, h.kept.values⟩, ?_, fun x u hu => ?_⟩
  · rw [hput, if_neg fun hx => ?_, h.kept.tuples x u hu]
    rw [hx, hnew] at hu
    cases hu
  · exact fun x hx => h.ahead x (Arena.ahead_of_put hx)
  · rw [hput] at hu
    split at hu
    · rename_i hx
      rcases h.new k t ht with hold | hold
      · rw [hnew] at hold
        cases hold
      · exact .inr (hx ▸ hold)
    · exact h.new x u hu

/-- A tuple that was not there at first gets a scope. -/
theorem adoptOwned (h : s.Sprouts s₁) {child : Option TupleId}
    (hnew : ∀ y, child = some y → s.tuple? y = none) (parent : TupleId) :
    s.Sprouts (s₁.adoptOwned parent child) := by
  cases child with
  | none => exact h
  | some y =>
    simp only [Store.adoptOwned, adopt]
    cases ht : s₁.tuple? y with
    | none => exact h
    | some t => exact h.putTuple (hnew y rfl) ht _

end Sprouts

/-! ## Copies of attributes -/

/-- The attributes `es'` of `s'` are copies of the attributes `es` of `s`. The tuples that these
own, from the outside in and from left to right, are `ids`, and their copies are `ids'`. -/
inductive Mirrors (s s' : Store) :
    List Attribute → List Attribute → List TupleId → List TupleId → Prop
  | nil : Mirrors s s' [] [] [] []
  | borrowed {name : Option String} {c : Cell} {es es' : List Attribute} {ids ids' : List TupleId} :
      c.owned = false → Mirrors s s' es es' ids ids' →
      Mirrors s s' (⟨name, c⟩ :: es) (⟨name, c⟩ :: es') ids ids'
  | scalar {name : Option String} {c c' : Cell} {v : Value} {es es' : List Attribute}
      {ids ids' : List TupleId} :
      c.owned = true → c'.owned = true → c'.type = c.type → c.Stores s.heap v →
      c'.Stores s'.heap v → v.tupleId? = none → Mirrors s s' es es' ids ids' →
      Mirrors s s' (⟨name, c⟩ :: es) (⟨name, c'⟩ :: es') ids ids'
  | tuple {name : Option String} {c c' : Cell} {id id' : TupleId} {t t' : Tuple}
      {es es' : List Attribute} {inner inner' ids ids' : List TupleId} :
      c.owned = true → c'.owned = true → c'.type = c.type → c.Stores s.heap (.tuple id) →
      c'.Stores s'.heap (.tuple id') → s.tuple? id = some t → s'.tuple? id' = some t' →
      t'.kind = t.kind → t'.permissions = t.permissions →
      Mirrors s s' t.entries t'.entries inner inner' → Mirrors s s' es es' ids ids' →
      Mirrors s s' (⟨name, c⟩ :: es) (⟨name, c'⟩ :: es') (id :: (inner ++ ids))
        (id' :: (inner' ++ ids'))

namespace Mirrors

/-- The attributes own the tuples that are listed, those within tuples included. -/
theorem owns (h : s.Mirrors s' es es' ids ids') : s.Owns (es.map (·.cell)) ids := by
  induction h with
  | nil => exact .nil
  | borrowed hc _ ih => exact .loose (.inl hc) ih
  | scalar _ _ _ hv _ hnone _ ih => exact .loose (.inr ⟨_, hv, hnone⟩) ih
  | tuple hc _ _ hv _ ht _ _ _ _ _ ih₁ ih₂ => exact .tuple hc hv ht ih₁ ih₂

/-- The copies own the copies. -/
theorem owns_copies (h : s.Mirrors s' es es' ids ids') : s'.Owns (es'.map (·.cell)) ids' := by
  induction h with
  | nil => exact .nil
  | borrowed hc _ ih => exact .loose (.inl hc) ih
  | scalar _ hc _ _ hv hnone _ ih => exact .loose (.inr ⟨_, hv, hnone⟩) ih
  | tuple _ hc _ _ hv _ ht _ _ _ _ ih₁ ih₂ => exact .tuple hc hv ht ih₁ ih₂

/-- There are as many copies as tuples. -/
theorem length_eq (h : s.Mirrors s' es es' ids ids') : ids'.length = ids.length := by
  induction h with
  | nil => rfl
  | borrowed _ _ ih => exact ih
  | scalar _ _ _ _ _ _ _ ih => exact ih
  | tuple _ _ _ _ _ _ _ _ _ _ _ ih₁ ih₂ =>
    simp only [List.length_cons, List.length_append, ih₁, ih₂]

/-- Copies stay so while nobody touches them but for their scopes. -/
theorem congr_orphan (h : s.Mirrors s₁ es es' ids ids')
    (hsame : ∀ x ∈ ids', (s₂.tuple? x).map Tuple.orphan = (s₁.tuple? x).map Tuple.orphan)
    (hgrows : s₁.heap.Grows s₂.heap) : s.Mirrors s₂ es es' ids ids' := by
  induction h with
  | nil => exact .nil
  | borrowed hc _ ih => exact .borrowed hc (ih hsame)
  | scalar hc hc' htype hv hv' hnone _ ih =>
    exact .scalar hc hc' htype hv (hv'.grows hgrows) hnone (ih hsame)
  | @tuple name c c' id id' t t' es es' inner inner' ids ids' hc hc' htype hv hv' ht ht' hkind hperm
      _ _ ih₁ ih₂ =>
    -- only the parent of the copy may differ, and the mirror does not look at it
    have hid := hsame id' (by simp)
    rw [ht', Option.map_some, Option.map_eq_some_iff] at hid
    obtain ⟨u, hu, heq⟩ := hid
    have hentries : u.entries = t'.entries := show u.orphan.entries = t'.orphan.entries by rw [heq]
    have hkind' : u.kind = t'.kind := show u.orphan.kind = t'.orphan.kind by rw [heq]
    have hperm' : u.permissions = t'.permissions :=
      show u.orphan.permissions = t'.orphan.permissions by rw [heq]
    refine .tuple hc hc' htype hv (hv'.grows hgrows) ht hu (hkind'.trans hkind) (hperm'.trans hperm)
      (hentries ▸ ih₁ fun x hx => hsame x ?_) (ih₂ fun x hx => hsame x ?_)
    · simp [hx]
    · simp [hx]

/-- Further attributes. -/
theorem append {fs fs' : List Attribute} {js js' : List TupleId} (h : s.Mirrors s' es es' ids ids')
    (h' : s.Mirrors s' fs fs' js js') :
    s.Mirrors s' (es ++ fs) (es' ++ fs') (ids ++ js) (ids' ++ js') := by
  induction h with
  | nil => exact h'
  | borrowed hc _ ih => exact .borrowed hc ih
  | scalar hc hc' htype hv hv' hnone _ ih => exact .scalar hc hc' htype hv hv' hnone ih
  | tuple hc hc' htype hv hv' ht ht' hkind hperm hin _ _ ih =>
    simpa using Mirrors.tuple hc hc' htype hv hv' ht ht' hkind hperm hin ih

end Mirrors

/-- What cells own is determined by them. -/
theorem Owns.unique {cells : List Cell} (h : s.Owns cells ids) (h' : s.Owns cells ids') :
    ids = ids' := by
  induction h generalizing ids' with
  | nil =>
    cases h'
    rfl
  | loose hc _ ih =>
    cases h' with
    | loose _ h' => exact ih h'
    | tuple hown hv _ _ _ =>
      -- a loose cell owns no tuple
      have hnone := hc.ownedTuple?
      simp [Cell.ownedTuple?, hown, hv.tupleId?_eq, Value.tupleId?] at hnone
  | tuple hown hv ht _ _ ih₁ ih₂ =>
    cases h' with
    | loose hc _ =>
      have hnone := hc.ownedTuple?
      simp [Cell.ownedTuple?, hown, hv.tupleId?_eq, Value.tupleId?] at hnone
    | tuple _ hv' ht' hin hrest =>
      obtain rfl := Value.tuple.inj (Option.some.inj (hv.symm.trans hv'))
      obtain rfl := Option.some.inj (ht.symm.trans ht')
      rw [ih₁ hin, ih₂ hrest]

/-! ## One step of copying -/

section Step

variable {copyTuple : TupleId → StoreM TupleId} {name : Option String}
  {rest : List (Option String × Cell)} {e : Error} {u : Unit}

/-- The cell that is appended for `c`: a copy if `c` owns its value, and else `c` itself. -/
def Appends (copyTuple : TupleId → StoreM TupleId) (c : Cell) (s : Store) (c' : Cell) (s₁ : Store) :
    Prop :=
  c.owned = true ∧ StoreM.duplicateBy copyTuple c s = .ok c' s₁ ∨ c.owned = false ∧ c' = c ∧ s₁ = s

/-- What is appended is appended, and copying goes on. -/
theorem copyCells_cons_eq_ok
    (hrun : StoreM.copyCells copyTuple k ((name, c) :: rest) s = .ok u s') :
    ∃ c' s₁ t pos t', Appends copyTuple c s c' s₁ ∧ s₁.tuple? k = some t ∧
      t.insertInitial name c' = .ok (pos, t') ∧
      StoreM.copyCells copyTuple k rest
        ((s₁.putTuple k t').adoptOwned k (c'.ownedTuple? s₁.heap)) = .ok u s' := by
  simp only [StoreM.copyCells] at hrun
  split at hrun
  all_goals
    simp only [StoreM.bind_eq_ok, StoreM.cleanup_eq_ok, StoreM.update_eq_ok] at hrun
    obtain ⟨c', s₁, hc', _, _, hget, _, _, ⟨pos, _, ⟨t, t', ht, hinsert, rfl⟩, hdone⟩, _, _, hadopt,
      hrun⟩ := hrun
    cases hget
    cases hdone
    cases hadopt
  · exact ⟨c', s₁, t, pos, t', .inl ⟨‹_›, hc'⟩, ht, hinsert, hrun⟩
  · cases hc'
    exact ⟨c, s, t, pos, t', .inr ⟨Bool.eq_false_of_not_eq_true ‹_›, rfl, rfl⟩, ht, hinsert, hrun⟩

/-- Copying cells fails where the copy of the first cannot be made, or where it is refused and given
up, or later on. -/
theorem copyCells_cons_eq_error
    (hrun : StoreM.copyCells copyTuple k ((name, c) :: rest) s = .error e s') :
    c.owned = true ∧ StoreM.duplicateBy copyTuple c s = .error e s' ∨
      ∃ c' s₁, Appends copyTuple c s c' s₁ ∧
        (StoreM.update k (·.insertInitial name c') s₁ = .error e s₁ ∧ s' = s₁.release c' ∨
          ∃ t pos t', s₁.tuple? k = some t ∧ t.insertInitial name c' = .ok (pos, t') ∧
            StoreM.copyCells copyTuple k rest
              ((s₁.putTuple k t').adoptOwned k (c'.ownedTuple? s₁.heap)) = .error e s') := by
  -- what happens once the copy is there is the same for owned cells and for others
  have happend : ∀ {c' : Cell} {s₁ : Store},
      (do
        let child := c'.ownedTuple? (← get).heap
        try
          let _ ← StoreM.update k (·.insertInitial name c')
        catch e =>
          modify (·.release c')
          throw e
        modify (·.adoptOwned k child)
        StoreM.copyCells copyTuple k rest : StoreM Unit) s₁ = .error e s' →
      StoreM.update k (·.insertInitial name c') s₁ = .error e s₁ ∧ s' = s₁.release c' ∨
        ∃ t pos t', s₁.tuple? k = some t ∧ t.insertInitial name c' = .ok (pos, t') ∧
          StoreM.copyCells copyTuple k rest
            ((s₁.putTuple k t').adoptOwned k (c'.ownedTuple? s₁.heap)) = .error e s' := by
    intro c' s₁ hrun
    simp only [StoreM.bind_eq_error, StoreM.cleanup_eq_ok, StoreM.bind_eq_ok,
      StoreM.update_eq_ok] at hrun
    rcases hrun with hrun | ⟨_, _, hget, hrun | ⟨_, _, hinsert, hrun⟩⟩
    · cases hrun
    all_goals cases hget
    · obtain ⟨e', s₂, hrefused, hrun⟩ := StoreM.tryCatch_eq_error.mp hrun
      cases hrun
      rcases StoreM.bind_eq_error.mp hrefused with hrefused | ⟨_, _, -, hrefused⟩
      · obtain rfl := StoreM.eq_of_update_error hrefused
        -- the copy is refused, and given up again
        exact .inl ⟨hrefused, rfl⟩
      · cases hrefused
    · obtain ⟨pos, _, ⟨t, t', ht, hinsert, rfl⟩, hdone⟩ := hinsert
      cases hdone
      rcases hrun with hrun | ⟨_, _, hadopt, hrun⟩
      · cases hrun
      · cases hadopt
        exact .inr ⟨t, pos, t', ht, hinsert, hrun⟩
  simp only [StoreM.copyCells] at hrun
  split at hrun
  · -- only owned cells are copied; others are passed on as they are
    rename_i howned
    rcases StoreM.bind_eq_error.mp hrun with hrun | ⟨c', s₁, hc', hrun⟩
    · exact .inl ⟨howned, hrun⟩
    · exact .inr ⟨c', s₁, .inl ⟨howned, hc'⟩, happend hrun⟩
  · rcases StoreM.bind_eq_error.mp hrun with hrun | ⟨c', s₁, hc', hrun⟩
    · cases hrun
    · cases hc'
      exact .inr ⟨c, s, .inr ⟨Bool.eq_false_of_not_eq_true ‹_›, rfl, rfl⟩, happend hrun⟩

end Step

/-! ## Copying -/

namespace Extends

/-- A store extends itself. -/
protected theorem refl (s : Store) : s.Extends s := ⟨fun _ _ h => h, .refl _⟩

/-- Extending twice is extending. -/
protected theorem trans (h : s.Extends s₁) (h' : s₁.Extends s₂) : s.Extends s₂ :=
  ⟨fun x t ht => h'.tuples x t (h.tuples x t ht), h.values.trans h'.values⟩

/-- What was not there later was not there before. -/
theorem tuple?_eq_none (h : s.Extends s₁) (hx : s₁.tuple? x = none) : s.tuple? x = none := by
  cases ht : s.tuple? x with
  | none => rfl
  | some t =>
    rw [h.tuples x t ht] at hx
    cases hx

/-- Inserting an attribute does not touch the heap. -/
theorem grows_insert (h : s.Extends s₁) (hs : s₁.Sound) (ht : s₁.tuple? k = some t)
    {child : Option TupleId} : s.heap.Grows ((s₁.putTuple k t').adoptOwned k child).heap := by
  rw [((hs.putTuple ht t').adoptOwned k child).2.heap]
  exact h.values

end Extends

/-- In `s₂` the tuple `k` is a copy of the tuple `id` of `s`; neither it nor what it owns was there
in `s₁`. -/
def Copied (s s₁ s₂ : Store) (id k : TupleId) : Prop :=
  ∃ t t' ids ids', s.tuple? id = some t ∧ s₂.tuple? k = some t' ∧ t'.kind = t.kind ∧
    t'.permissions = t.permissions ∧ t'.parent = t.parent ∧
    s.Mirrors s₂ t.entries t'.entries ids ids' ∧ ∀ x ∈ k :: ids', s₁.tuple? x = none

/-- The tuple `k`, which was not there in `s₀`, is being filled with copies of the attributes of
`t`; those of `es` are done. -/
structure Copying (s s₀ : Store) (k : TupleId) (t : Tuple) (es : List Attribute) (s₁ : Store) :
    Prop where
  sprouts : s.Sprouts s₁
  kept : s₀.Extends s₁
  base : s.Extends s₀
  new : s₀.tuple? k = none
  copied : ∃ t' ids ids', s₁.tuple? k = some t' ∧ t'.kind = t.kind ∧
    t'.permissions = t.permissions ∧ t'.parent = t.parent ∧
    s.Mirrors s₁ es t'.entries ids ids' ∧ k ∉ ids' ∧ ∀ x ∈ ids', s₀.tuple? x = none

/-- A new tuple has the kind, the permissions and the parent of the one that it is to be a copy
of. -/
theorem Sprouts.copying (h : s.Sprouts s₁)
    (hperm : t.kind.fixedPermissions?.getD t.permissions = t.permissions) :
    s.Copying s₁ (s₁.createWith t.kind t.permissions t.parent).1 t []
      (s₁.createWith t.kind t.permissions t.parent).2 := by
  obtain ⟨hsprouts, hkept, hfresh, hlive⟩ := h.alloc
    ⟨t.kind, t.kind.fixedPermissions?.getD t.permissions, t.parent, [], [], [], [], []⟩
  exact ⟨hsprouts, hkept, h.kept, hfresh, _, [], [], hlive, rfl, hperm, rfl, .nil, by simp, by simp⟩

/-- The cell is a fresh handle on the value of the attribute. -/
def HandleOn (s s₁ : Store) (e : Attribute) (c : Cell) : Prop :=
  e.cell.owned = false ∧ c = e.cell ∨
    e.cell.owned = true ∧ c.owned = true ∧ c.type = e.cell.type ∧
      ∃ v, e.cell.Stores s.heap v ∧ c.Stores s₁.heap v ∧
        ∀ y, v.tupleId? = some y → ¬s.arena.Ahead y

/-- The cells have the names of the attributes and are fresh handles on their values. -/
abbrev Handles (s s₁ : Store) : List Attribute → List (Option String × Cell) → Prop :=
  List.Forall₂ fun e p => p.1 = e.name ∧ s.HandleOn s₁ e p.2

/-- Handles stay handles while the heap grows. -/
theorem Handles.grows {cells : List (Option String × Cell)} (h : s.Handles s₁ es cells)
    (hgrows : s₁.heap.Grows s₂.heap) : s.Handles s₂ es cells := by
  refine h.imp fun e p hp => ⟨hp.1, hp.2.imp_right ?_⟩
  rintro ⟨he, hc, htype, v, hv, hv', hy⟩
  exact ⟨he, hc, htype, v, hv, hv'.grows hgrows, hy⟩

/-- Copying a tuple of `s` later on gives a copy of it. -/
def CopiesFrom (s : Store) (copyTuple : TupleId → StoreM TupleId) : Prop :=
  ∀ {id k : TupleId} {s₁ s₂ : Store}, s.Sprouts s₁ → ¬s.arena.Ahead id →
    copyTuple id s₁ = .ok k s₂ → s.Sprouts s₂ ∧ s₁.Extends s₂ ∧ s.Copied s₁ s₂ id k

section Copying

variable {copyTuple : TupleId → StoreM TupleId} {e : Attribute} {name : Option String}

/-- Copying an owned value gives a copy of the attribute. -/
theorem mirrors_duplicateBy (hcopy : s.CopiesFrom copyTuple) (h : s.Sprouts s₁)
    (he : e.cell.owned = true) (htype : c.type = e.cell.type) {v : Value}
    (hv : e.cell.Stores s.heap v) (hv' : c.Stores s₁.heap v)
    (hahead : ∀ y, v.tupleId? = some y → ¬s.arena.Ahead y)
    (hrun : StoreM.duplicateBy copyTuple c s₁ = .ok c' s₂) :
    s.Sprouts s₂ ∧ s₁.Extends s₂ ∧ ∃ ids ids', s.Mirrors s₂ [e] [⟨e.name, c'⟩] ids ids' ∧
      ∀ x ∈ ids', s₁.tuple? x = none := by
  cases hid : v.tupleId? with
  | none =>
    -- a value without a tuple is copied into a place of its own
    rw [StoreM.duplicateBy_of_none (hv'.tupleId?_eq.trans hid)] at hrun
    cases hrun
    have hgrows := Cell.grows_make s₁.heap c.type (c.value s₁.heap)
    have hstores := Cell.stores_make s₁.heap c.type (c.value s₁.heap)
    obtain rfl := hv'.value_eq
    refine ⟨h.grow hgrows, ⟨fun _ _ ht => ht, hgrows⟩, [], [], ?_, by simp⟩
    exact .scalar he rfl htype hv hstores hid .nil
  | some id =>
    rw [StoreM.duplicateBy_of_some (hv'.tupleId?_eq.trans hid)] at hrun
    -- a tuple is copied first, and the new place holds the copy's id
    obtain ⟨k, s₃, hk, hrun⟩ := StoreM.bind_eq_ok.mp hrun
    cases hrun
    obtain ⟨hsprouts, hkept, t, t', ids, ids', ht, ht', hkind, hperm, -, hmirrors, hfresh⟩ :=
      hcopy h (hahead id hid) hk
    have hgrows := Cell.grows_make s₃.heap c.type (.tuple k)
    have hstores := Cell.stores_make s₃.heap c.type (.tuple k)
    obtain rfl : v = .tuple id := by
      cases v <;> cases hid
      rfl
    refine ⟨hsprouts.grow hgrows, ⟨hkept.tuples, hkept.values.trans hgrows⟩, id :: (ids ++ []),
      k :: (ids' ++ []), ?_, by simpa using hfresh⟩
    refine .tuple he rfl htype hv hstores ht ht' hkind hperm ?_ .nil
    exact hmirrors.congr_orphan (fun _ _ => rfl) hgrows

/-- What is appended for a fresh handle is a copy of the attribute. -/
theorem HandleOn.mirrors (h : s.HandleOn s₁ e c) (hcopy : s.CopiesFrom copyTuple)
    (hs : s.Sprouts s₁) (happend : Appends copyTuple c s₁ c' s₂) :
    s.Sprouts s₂ ∧ s₁.Extends s₂ ∧ ∃ ids ids', s.Mirrors s₂ [e] [⟨e.name, c'⟩] ids ids' ∧
      ∀ x ∈ ids', s₁.tuple? x = none := by
  rcases h with ⟨he, rfl⟩ | ⟨he, hc, htype, v, hv, hv', hahead⟩
  · rcases happend with ⟨howned, -⟩ | ⟨-, rfl, rfl⟩
    · simp [he] at howned
    · exact ⟨hs, .refl _, [], [], .borrowed he .nil, by simp⟩
  · rcases happend with ⟨-, hrun⟩ | ⟨hborrowed, -⟩
    · exact mirrors_duplicateBy hcopy hs he htype hv hv' hahead hrun
    · simp [hc] at hborrowed

/-- A copy of the next attribute is appended. -/
theorem Copying.insert {pos : Nat} {t₁ t₂ : Tuple} (h : s.Copying s' k t es s₁)
    (hsprouts : s.Sprouts s₂) (hkept : s₁.Extends s₂)
    (hmirrors : s.Mirrors s₂ [e] [⟨e.name, c'⟩] ids ids') (hfresh : ∀ x ∈ ids', s₁.tuple? x = none)
    (ht₁ : s₂.tuple? k = some t₁) (hinsert : t₁.insertInitial e.name c' = .ok (pos, t₂)) :
    s.Copying s' k t (es ++ [e])
      ((s₂.putTuple k t₂).adoptOwned k (c'.ownedTuple? s₂.heap)) := by
  obtain ⟨t', js, js', ht', hkind, hperm, hparent, hdone, hk, hjs⟩ := h.copied
  have ht'₁ := hkept.tuples k t' ht'
  obtain rfl : t₁ = t' := Option.some.inj (ht₁.symm.trans ht'₁)
  have hk' : k ∉ ids' := fun hmem => by simp [hfresh k hmem] at ht'
  have hnew : ∀ x ∈ ids', s'.tuple? x = none := fun x hx => h.kept.tuple?_eq_none (hfresh x hx)
  have hchild : ∀ y, c'.ownedTuple? s₂.heap = some y → y ∈ ids' := fun y hy =>
    hmirrors.owns_copies.mem_of_ownedTuple? (List.mem_singleton.mpr rfl) hy
  have hput := tuple?_putTuple ht₁ t₂
  have hadopt := tuple?_adoptOwned (s₂.putTuple k t₂) k (c'.ownedTuple? s₂.heap)
  -- other tuples than the one that is filled have another scope at most
  have horphan : ∀ x, x ≠ k →
      (((s₂.putTuple k t₂).adoptOwned k (c'.ownedTuple? s₂.heap)).tuple? x).map Tuple.orphan =
        (s₂.tuple? x).map Tuple.orphan := by
    intro x hx
    rw [(hadopt x).1, hput, if_neg hx]
  have hheap : s₂.heap.Grows
      ((s₂.putTuple k t₂).adoptOwned k (c'.ownedTuple? s₂.heap)).heap :=
    (Extends.refl s₂).grows_insert hsprouts.sound ht₁
  have hall :
      s.Mirrors s₂ (es ++ [e]) (t₁.entries ++ [⟨e.name, c'⟩]) (js ++ ids) (js' ++ ids') := by
    refine .append (hdone.congr_orphan (fun x hx => ?_) hkept.values) hmirrors
    obtain ⟨u, hu⟩ := hdone.owns_copies.live x hx
    rw [hkept.tuples x u hu, hu]
  have hlist : k ∉ js' ++ ids' := fun hmem => (List.mem_append.mp hmem).elim hk hk'
  have ht₂ := Tuple.insertInitial_eq_ok hinsert
  have hentries : t₂.entries = t₁.entries ++ [⟨e.name, c'⟩] := by rw [ht₂]
  refine ⟨?_, ⟨fun x u hu => ?_, ?_⟩, h.base, h.new, t₂, js ++ ids, js' ++ ids', ?_, ?_, ?_, ?_, ?_,
    hlist, ?_⟩
  · refine (hsprouts.putTuple (h.base.tuple?_eq_none h.new) ht₁ t₂).adoptOwned (fun y hy => ?_) k
    exact h.base.tuple?_eq_none (hnew y (hchild y hy))
  · have hx : x ≠ k := by
      rintro rfl
      simp [h.new] at hu
    rw [(hadopt x).2 fun hy => ?_, hput, if_neg hx]
    · exact hkept.tuples x u (h.kept.tuples x u hu)
    · simp [hnew x (hchild x hy)] at hu
  · exact (h.kept.values.trans hkept.values).trans hheap
  · rw [(hadopt k).2 fun hy => hk' (hchild k hy), hput, if_pos rfl]
  · rw [ht₂]
    exact hkind
  · rw [ht₂]
    exact hperm
  · rw [ht₂]
    exact hparent
  · rw [hentries]
    exact hall.congr_orphan (fun x hx => horphan x fun hxk => hlist (hxk ▸ hx)) hheap
  · exact fun x hx => (List.mem_append.mp hx).elim (hjs x) (hnew x)

/-- Copies of all attributes are appended, one after the other. -/
theorem Copying.copyCells (hcopy : s.CopiesFrom copyTuple) {rest : List Attribute}
    {cells : List (Option String × Cell)} {u : Unit} (h : s.Copying s' k t es s₁)
    (hrest : s.Handles s₁ rest cells)
    (hrun : StoreM.copyCells copyTuple k cells s₁ = .ok u s₂) :
    s.Copying s' k t (es ++ rest) s₂ := by
  induction rest generalizing s₁ es cells with
  | nil =>
    cases hrest
    cases hrun
    simpa using h
  | cons e rest ih =>
    obtain ⟨⟨name, cell⟩, cells, ⟨rfl, hcell⟩, htail, rfl⟩ := List.forall₂_cons_left_iff.mp hrest
    obtain ⟨c', s₃, t₁, pos, t₂, happend, ht₁, hinsert, hrun⟩ := copyCells_cons_eq_ok hrun
    obtain ⟨hsprouts, hkept, ids, ids', hmirrors, hfresh⟩ := hcell.mirrors hcopy h.sprouts happend
    have hnext := h.insert hsprouts hkept hmirrors hfresh ht₁ hinsert
    simpa using ih hnext (Handles.grows htail (hkept.grows_insert hsprouts.sound ht₁)) hrun

end Copying

/-- Fresh handles on the attributes of a tuple take places in the heap only. -/
theorem handles_reborrowAll {cells : List (Option String × Cell)} (h : s.Sprouts s₁)
    (hes : ∀ e ∈ es, ∃ v, e.cell.Stores s.heap v ∧ ∀ y, v.tupleId? = some y → ¬s.arena.Ahead y)
    (hrun : StoreM.reborrowAll es s₁ = .ok cells s₂) :
    s.Sprouts s₂ ∧ s₁.Extends s₂ ∧ s.Handles s₂ es cells := by
  induction es generalizing s₁ cells with
  | nil =>
    cases hrun
    exact ⟨h, .refl _, .nil⟩
  | cons e es ih =>
    simp only [StoreM.reborrowAll, StoreM.bind_eq_ok] at hrun
    obtain ⟨c, s₃, hc, cells', s₄, hcells', hrun⟩ := hrun
    cases hrun
    obtain ⟨v, hv, hahead⟩ := hes e List.mem_cons_self
    have hv₁ := hv.grows h.kept.values
    -- an owned value gets another place, any other cell is taken as it is
    have hfirst : s.Sprouts s₃ ∧ s₁.Extends s₃ ∧ s.Handles s₃ [e] [(e.name, c)] := by
      unfold StoreM.onHeap StoreM.change Cell.reborrow at hc
      by_cases he : e.cell.owned = true
      · simp only [he, if_true] at hc
        cases hc
        have hgrows := Cell.grows_make s₁.heap e.cell.type (e.cell.value s₁.heap)
        have hstores := Cell.stores_make s₁.heap e.cell.type (e.cell.value s₁.heap)
        obtain rfl := hv₁.value_eq
        exact ⟨h.grow hgrows, ⟨fun _ _ ht => ht, hgrows⟩,
          .cons ⟨rfl, .inr ⟨he, rfl, rfl, _, hv, hstores, hahead⟩⟩ .nil⟩
      · rw [Bool.not_eq_true] at he
        simp only [he, Bool.false_eq_true, if_false] at hc
        cases hc
        have hborrow : e.cell.borrow = e.cell := by rw [Cell.borrow, ← he]
        exact ⟨h, .refl _, .cons ⟨rfl, .inl ⟨he, hborrow⟩⟩ .nil⟩
    obtain ⟨hsprouts, hkept, hhandle⟩ := hfirst
    obtain ⟨hsprouts', hkept', hrest⟩ :=
      ih hsprouts (fun e he => hes e (List.mem_cons_of_mem _ he)) hcells'
    refine ⟨hsprouts', hkept.trans hkept', ?_⟩
    exact List.rel_append (Handles.grows hhandle hkept'.values) hrest

/-- Copying a tuple gives a copy of it. -/
theorem copiesFrom_duplicateTupleWithin (hs : s.Rooted) (fuel : Nat) :
    s.CopiesFrom (StoreM.duplicateTupleWithin fuel) := by
  induction fuel with
  | zero => exact fun _ _ hrun => by cases hrun
  | succ fuel ih =>
    intro id k s₁ s₂ h hahead hrun
    simp only [StoreM.duplicateTupleWithin, StoreM.bind_eq_ok, StoreM.cleanup_eq_ok] at hrun
    obtain ⟨t, s₃, ht, cells, s₄, hcells, k', s₅, hcreate, u, s₆, hcopy, hrun⟩ := hrun
    obtain ⟨ht, rfl⟩ := StoreM.tuple_eq_ok.mp ht
    -- the original is read as it was when the copying began
    replace ht := h.tuple?_eq hahead ht
    obtain ⟨hsprouts, hkept, hhandles⟩ := handles_reborrowAll h (hs.stored id t ht) hcells
    cases hcreate
    cases hrun
    have hdone := (hsprouts.copying (hs.permissions id t ht)).copyCells ih
      (Handles.grows hhandles (.refl _)) hcopy
    obtain ⟨t', ids, ids', ht', hkind, hperm, hparent, hmirrors, -, hids⟩ := hdone.copied
    refine ⟨hdone.sprouts, hkept.trans hdone.kept, t, t', ids, ids', ht, ht', hkind, hperm, hparent,
      hmirrors, fun x hx => hkept.tuple?_eq_none ?_⟩
    -- neither the copy nor what it owns was live before
    rcases List.mem_cons.mp hx with rfl | hx
    · exact hdone.new
    · exact hids x hx

/-! ## Giving up -/

/-- The store has come about from `base` by making the tuple `k` and what it owns. -/
def Started (base s : Store) (k : TupleId) : Prop :=
  ∃ t ids, s.tuple? k = some t ∧ k ∉ ids ∧ k ≠ s.root ∧ s.Holds t.cells ids ∧
    base.Trade [] s (k :: ids)

variable {base : Store} {copyTuple : TupleId → StoreM TupleId} {e : Error}

/-- Destroying the tuple leaves nothing of what was made. -/
theorem Started.destroy (h : base.Started s k) : base.Trade [] (s.destroy k) [] := by
  obtain ⟨t, ids, ht, hk, hroot, hheld, htrade⟩ := h
  refine htrade.trans ?_
  exact Holds.releaseAll_destroy (l := []) (by simpa using hheld) htrade.sound ht hk hroot

/-- Cells in flight can be given up. -/
theorem Builds.releaseAll {l : List Cell} (h : base.Builds s k l) :
    base.Started (s.releaseAll l) k := by
  obtain ⟨t, ids, ht, hk, hroot, hheld, hmakes⟩ := h
  obtain ⟨i, j, hperm, hi, hj⟩ := hheld.split
  have hrelease := hj.releaseAll hmakes.trade.sound rfl
  have hdisj := (List.nodup_append.mp (hperm.nodup_iff.mp hheld.nodup)).2.2
  have hout : ∀ x ∈ i ++ j, x ≠ k := fun x hx hxk => hk (hxk ▸ hperm.mem_iff.mpr hx)
  refine ⟨t, i, ?_, fun hmem => hout k (List.mem_append_left _ hmem) rfl, ?_,
    hi.keeps hrelease fun x hx hx' => hdisj x hx x hx' rfl, ?_⟩
  · rw [hrelease.same k (fun hmem => hout k (List.mem_append_right _ hmem) rfl) (by simp), ht]
  · rw [hrelease.root]
    exact hroot
  · refine (hmakes.trade.congr (fun _ => Iff.rfl) fun x => ?_).trans
      ((hrelease.frame (k :: i)).congr (fun _ => Iff.rfl) fun x => by simp)
    simp [hperm.mem_iff]

/-- Nothing was changed meanwhile. -/
theorem Builds.started (h : base.Builds s k 0) (hnext : s.Trade [] s' []) : base.Started s' k := by
  obtain ⟨t, ids, ht, hk, hroot, hheld, hmakes⟩ := h
  refine ⟨t, ids, ?_, hk, ?_, ?_, ?_⟩
  · rw [hnext.same k (by simp) (by simp), ht]
  · rw [hnext.root]
    exact hroot
  · exact (by simpa using hheld : s.Holds t.cells ids).keeps hnext (by simp)
  · exact hmakes.trade.trans ((hnext.frame (k :: ids)).congr (by simp) (by simp))

/-- Copying a cell fails where copying the tuple in it does. -/
theorem duplicateBy_error (hrun : StoreM.duplicateBy copyTuple c s = .error e s') :
    ∃ id, c.tupleId? s.heap = some id ∧ copyTuple id s = .error e s' := by
  cases hid : c.tupleId? s.heap with
  | none =>
    rw [StoreM.duplicateBy_of_none hid] at hrun
    cases hrun
  | some id =>
    rw [StoreM.duplicateBy_of_some hid] at hrun
    rcases StoreM.bind_eq_error.mp hrun with hrun | ⟨k, s₁, -, hrun⟩
    · exact ⟨id, rfl, hrun⟩
    · cases hrun

/-- Where a copy of an attribute cannot be made, or is refused, there is still the tuple that was
being filled. -/
theorem Builds.copyCells_error
    (hcopy : ∀ {id k : TupleId} {s s' : Store}, s.Sound → copyTuple id s = .ok k s' →
      s.Builds s' k 0)
    (hfail : ∀ {id : TupleId} {e : Error} {s s' : Store}, s.Sound → copyTuple id s = .error e s' →
      s.Trade [] s' [])
    {cells : List (Option String × Cell)} (h : base.Builds s k 0)
    (hrun : StoreM.copyCells copyTuple k cells s = .error e s') : base.Started s' k := by
  induction cells generalizing s with
  | nil => cases hrun
  | cons p rest ih =>
    obtain ⟨name, c⟩ := p
    -- either this cell could not be copied, or it was and a later step failed
    rcases copyCells_cons_eq_error hrun with ⟨-, hrun⟩ | ⟨c', s₁, happend, hrest⟩
    · obtain ⟨id, -, hrun⟩ := duplicateBy_error hrun
      exact h.started (hfail h.sound hrun)
    have hbrings : s.Brings s₁ {c'} := by
      rcases happend with ⟨-, hc'⟩ | ⟨hborrowed, rfl, rfl⟩
      · exact brings_duplicateBy hcopy h.sound hc'
      · exact (Brings.refl h.sound).loose (.inl hborrowed)
    -- the copied cell is held until it is stored
    have hnext : base.Builds s₁ k (c' ::ₘ 0) := h.trans hbrings
    rcases hrest with ⟨-, rfl⟩ | ⟨t, pos, t', ht, hinsert, hrun⟩
    · exact Builds.releaseAll (l := [c']) hnext
    · exact ih (hnext.insert ht hinsert) hrun

/-- Fresh handles can always be had. -/
theorem reborrowAll_ne_error : StoreM.reborrowAll es s ≠ .error e s' := by
  induction es generalizing s with
  | nil => exact nofun
  | cons entry rest ih =>
    intro hrun
    simp only [StoreM.reborrowAll, StoreM.bind_eq_error] at hrun
    rcases hrun with hrun | ⟨_, _, -, hrun | ⟨_, _, -, hrun⟩⟩
    · cases hrun
    · exact ih hrun
    · cases hrun

/-- Where a tuple cannot be copied, nothing is left of the attempt. -/
theorem duplicateTupleWithin_error {fuel : Nat} (hs : s.Sound)
    (hrun : StoreM.duplicateTupleWithin fuel id s = .error e s') : s.Trade [] s' [] := by
  induction fuel generalizing id e s s' with
  | zero =>
    cases hrun
    exact .refl hs []
  | succ fuel ih =>
    simp only [StoreM.duplicateTupleWithin, StoreM.bind_eq_error, StoreM.tuple_eq_ok] at hrun
    rcases hrun with hrun | ⟨t, s₁, ⟨-, rfl⟩, hrun | ⟨cells, s₂, hcells, hrun⟩⟩
    · rw [StoreM.eq_of_tuple_error hrun]
      exact .refl hs []
    · exact absurd hrun reborrowAll_ne_error
    -- creating the copy cannot fail
    rcases hrun with hrun | ⟨k, s₃, hcreate, hrun⟩
    · cases hrun
    cases hcreate
    rcases hrun with hrun | ⟨_, _, -, hrun⟩
    · -- copying the cells can, and then what was built is destroyed
      obtain ⟨e', s₄, hcopy, hrun⟩ := StoreM.tryCatch_eq_error.mp hrun
      cases hrun
      have hstart := (brings_reborrowAll hs hcells).alloc (t := ⟨t.kind,
        t.kind.fixedPermissions?.getD t.permissions, t.parent, [], [], [], [], []⟩) rfl
      exact (hstart.copyCells_error builds_duplicateTupleWithin ih hcopy).destroy
    · cases hrun

/-! ## Circles of owners -/

/-- An attribute of `x` owns `y`. -/
def Contains (s : Store) (x y : TupleId) : Prop :=
  ∃ t, s.tuple? x = some t ∧ ∃ e ∈ t.entries, e.cell.ownedTuple? s.heap = some y

/-- No tuple that can be reached from `id` through owners owns itself, not even by way of others. -/
def AcyclicFrom (s : Store) (id : TupleId) : Prop :=
  ∀ x, ReflTransGen s.Contains id x → ¬TransGen s.Contains x x

/-- A tuple that is not live is not found. -/
theorem ne_depthExceeded_of_tuple (hrun : StoreM.tuple id s = .error e s') (depth limit : Nat) :
    e ≠ .depthExceeded depth limit := by
  rintro rfl
  simp only [StoreM.tuple, StoreM.bind_eq_error] at hrun
  rcases hrun with hrun | ⟨_, _, hget, hrun⟩
  · cases hrun
  cases hget
  unfold Store.tuple at hrun
  split at hrun <;> cases hrun

/-- An attribute is refused because of its name or its type, or because the tuple is gone. -/
theorem ne_depthExceeded_of_insertInitial {name : Option String}
    (hrun : StoreM.update k (·.insertInitial name c) s = .error e s') (depth limit : Nat) :
    e ≠ .depthExceeded depth limit := by
  rintro rfl
  -- the tuple is gone
  rcases StoreM.bind_eq_error.mp hrun with hrun | ⟨t, s₁, -, hrun⟩
  · exact ne_depthExceeded_of_tuple hrun depth limit rfl
  -- or it refuses the entry, for a reason that is never the depth
  rcases StoreM.bind_eq_error.mp hrun with hrun | ⟨r, s₂, -, hrun⟩
  · change StoreM.ofExcept (t.insertInitial name c) s₁ = _ at hrun
    have hrefused : t.insertInitial name c = .error (.depthExceeded depth limit) := by
      cases hinsert : t.insertInitial name c with
      | ok r =>
        rw [hinsert] at hrun
        cases hrun
      | error e' =>
        rw [hinsert] at hrun
        cases hrun
        rfl
    unfold Tuple.insertInitial at hrefused
    cases name <;>
    · simp only [bind, Except.bind, pure, Except.pure, throw, throwThe, MonadExceptOf.throw]
        at hrefused
      repeat' split at hrefused
      all_goals cases hrefused
  · cases hrun

/-- Copying attributes fails where one of them is refused, or where a tuple that one of them owns
cannot be copied. -/
theorem Copying.copyCells_error (hcopy : s.CopiesFrom copyTuple) {rest : List Attribute}
    {cells : List (Option String × Cell)} (h : s.Copying s' k t es s₁)
    (hrest : s.Handles s₁ rest cells)
    (hrun : StoreM.copyCells copyTuple k cells s₁ = .error e s₂) :
    (∀ depth limit, e ≠ .depthExceeded depth limit) ∨
      ∃ a ∈ rest, ∃ y s₃ s₄, a.cell.ownedTuple? s.heap = some y ∧ ¬s.arena.Ahead y ∧
        s.Sprouts s₃ ∧ copyTuple y s₃ = .error e s₄ := by
  induction rest generalizing es cells s₁ with
  | nil =>
    cases hrest
    cases hrun
  | cons a rest ih =>
    obtain ⟨⟨name, cell⟩, cells, ⟨rfl, hcell⟩, htail, rfl⟩ := List.forall₂_cons_left_iff.mp hrest
    rcases copyCells_cons_eq_error hrun with ⟨howned, hrun⟩ | ⟨c', s₃, happend, hnext⟩
    · -- only an owned tuple can fail to copy; a borrowed cell is passed on as it is
      obtain ⟨y, hy, hrun⟩ := duplicateBy_error hrun
      rcases hcell with ⟨ha, rfl⟩ | ⟨ha, -, -, v, hv, hv', hahead⟩
      · simp [ha] at howned
      · have hvy := hv'.tupleId?_eq.symm.trans hy
        refine .inr ⟨a, List.mem_cons_self, y, s₁, s₂, ?_, hahead y hvy, h.sprouts, hrun⟩
        rw [Cell.ownedTuple?, if_pos ha, hv.tupleId?_eq, hvy]
    obtain ⟨hsprouts, hkept, ids, ids', hmirrors, hfresh⟩ := hcell.mirrors hcopy h.sprouts happend
    rcases hnext with ⟨hrefused, -⟩ | ⟨t₁, pos, t₂, ht₁, hinsert, hrun⟩
    · -- the copy was refused by its new holder
      exact .inl (ne_depthExceeded_of_insertInitial hrefused)
    · refine (ih (h.insert hsprouts hkept hmirrors hfresh ht₁ hinsert)
        (Handles.grows htail (hkept.grows_insert hsprouts.sound ht₁)) hrun).imp_right ?_
      -- the tuple that could not be copied is one behind this cell
      rintro ⟨a', ha', hlater⟩
      exact ⟨a', List.mem_cons_of_mem _ ha', hlater⟩

/-- Tuples on a way through owners that does not run in a circle are no more than there are slots,
so that copying comes to an end by itself. -/
theorem duplicateTupleWithin_ne_depthExceeded (hs : s.Rooted) (hacyclic : s.AcyclicFrom x)
    {fuel : Nat} {path : List TupleId} (hnodup : path.Nodup)
    (hlive : ∀ y ∈ path, ∃ t, s.tuple? y = some t) (habove : ∀ y ∈ path, TransGen s.Contains y id)
    (hfrom : ReflTransGen s.Contains x id) (hfuel : s.arena.slots.size < path.length + fuel)
    (h : s.Sprouts s₁) (hahead : ¬s.arena.Ahead id)
    (hrun : StoreM.duplicateTupleWithin fuel id s₁ = .error e s₂) (depth limit : Nat) :
    e ≠ .depthExceeded depth limit := by
  induction fuel generalizing id path s₁ s₂ with
  | zero =>
    have hsub : path ⊆ s.arena.ids := fun y hy => Arena.mem_ids.mpr (hlive y hy)
    have hcount := (hnodup.subperm hsub).length_le
    have hslots : s.arena.ids.length ≤ s.arena.slots.size := by
      rw [Arena.length_ids, Arena.liveCount, Arena.tuples]
      exact (List.length_filterMap_le _ _).trans_eq Array.length_toList
    omega
  | succ fuel ih =>
    simp only [StoreM.duplicateTupleWithin, StoreM.bind_eq_error, StoreM.tuple_eq_ok] at hrun
    rcases hrun with hrun | ⟨t, s₃, ⟨ht, rfl⟩, hrun | ⟨cells, s₄, hcells, hrun⟩⟩
    · exact ne_depthExceeded_of_tuple hrun depth limit
    · exact absurd hrun reborrowAll_ne_error
    rcases hrun with hrun | ⟨k, s₅, hcreate, hrun⟩
    · cases hrun
    cases hcreate
    rcases hrun with hrun | ⟨_, _, -, hrun⟩
    · obtain ⟨e', s₆, hcopy, hrun⟩ := StoreM.tryCatch_eq_error.mp hrun
      cases hrun
      replace ht := h.tuple?_eq hahead ht
      obtain ⟨hsprouts, hkept, hhandles⟩ := handles_reborrowAll h (hs.stored id t ht) hcells
      have hcopies : s.CopiesFrom (StoreM.duplicateTupleWithin fuel) :=
        copiesFrom_duplicateTupleWithin hs fuel
      rcases (hsprouts.copying (hs.permissions id t ht)).copyCells_error hcopies
        (Handles.grows hhandles (.refl _)) hcopy with
        hrefused | ⟨a, ha, y, s₇, s₈, hy, hy', hs₇, hrun⟩
      · exact hrefused depth limit
      -- one further on the way, which has not been there before
      have hedge : s.Contains id y := ⟨t, ht, a, ha, hy⟩
      have hid : id ∉ path := fun hmem => hacyclic id hfrom (habove id hmem)
      refine ih (List.nodup_cons.mpr ⟨hid, hnodup⟩) ?_ ?_ (hfrom.tail hedge) ?_ hs₇ hy' hrun
      · exact fun z hz => (List.mem_cons.mp hz).elim (fun hz => hz ▸ ⟨t, ht⟩) (hlive z)
      · intro z hz
        rcases List.mem_cons.mp hz with rfl | hz
        · exact .single hedge
        · exact (habove z hz).tail hedge
      · rw [List.length_cons]
        omega
    · cases hrun

/-! ## Deep copies -/

/-- Tuples that have been made count as further live ones. -/
theorem Trade.liveTuples_eq {new : List TupleId} (h : s.Trade [] s' new) (hnodup : new.Nodup)
    (hlive : ∀ x ∈ new, ∃ t, s'.tuple? x = some t) :
    s'.liveTuples = s.liveTuples + new.length := by
  refine Arena.liveCount_eq_add hnodup (fun x hx => h.fresh x hx (by simp)) fun x => ?_
  by_cases hx : x ∈ new
  · exact iff_of_true (hlive x hx) (.inl hx)
  · have hsame : s'.arena.get? x = s.arena.get? x := h.same x (by simp) hx
    rw [hsame, or_iff_right hx]

/-- A tuple that is copied is live. -/
theorem live_of_duplicateTupleWithin {fuel : Nat}
    (hrun : StoreM.duplicateTupleWithin fuel id s = .ok k s') : ∃ t, s.tuple? id = some t := by
  cases fuel with
  | zero => cases hrun
  | succ fuel =>
    simp only [StoreM.duplicateTupleWithin, StoreM.bind_eq_ok, StoreM.tuple_eq_ok] at hrun
    obtain ⟨t, s₁, ⟨ht, -⟩, -⟩ := hrun
    exact ⟨t, ht⟩

/-- Copying a cell that holds a tuple gives an owned cell of the same type with another tuple in it.
This one is like the first: it has the same kind, permissions and parent, and attributes that mirror
those of the first, down to the last tuple that they own. Every tuple of the copy is new and the
scope around the ones it owns, no other tuple has changed, there are as many more tuples as were
copied, and giving the copy up undoes all this. Where the cell cannot be copied, nothing has
changed; unless owners run in a circle, this is not because of the bound on the levels. -/
theorem duplicate_copies_deeply (hs : s.Rooted) (hid : c.tupleId? s.heap = some id) :
    (∀ c' s', StoreM.duplicate c s = .ok c' s' →
      c'.owned = true ∧ c'.type = c.type ∧ ∃ k t t' ids ids',
        c'.Stores s'.heap (.tuple k) ∧ s.tuple? id = some t ∧ s'.tuple? k = some t' ∧
        t'.kind = t.kind ∧ t'.permissions = t.permissions ∧ t'.parent = t.parent ∧
        s.Mirrors s' t.entries t'.entries ids ids' ∧
        (k :: ids').Nodup ∧ (∀ x ∈ k :: ids', s.tuple? x = none ∧ s'.Encloses x) ∧
        (∀ x ∉ k :: ids', s'.tuple? x = s.tuple? x) ∧ s.heap.Grows s'.heap ∧
        s'.liveTuples = s.liveTuples + (id :: ids).length ∧ s.Unchanged (s'.release c')) ∧
    ∀ e s', StoreM.duplicate c s = .error e s' → s.Unchanged s' ∧
      (s.AcyclicFrom id → ∀ depth limit, e ≠ .depthExceeded depth limit) := by
  have hrun : StoreM.duplicate c s = (do
      let copy ← StoreM.duplicateTupleWithin (s.arena.slots.size + 1) id
      StoreM.newCell c.type (.tuple copy) : StoreM Cell) s := StoreM.duplicateBy_of_some hid
  rw [hrun]
  refine ⟨fun c' s' hok => ?_, fun e s' herror => ?_⟩
  · have hbrings := brings_duplicate hs.sound (hrun.trans hok)
    obtain ⟨k, s₁, hk, hcell⟩ := StoreM.bind_eq_ok.mp hok
    cases hcell
    obtain ⟨t₀, ht₀⟩ := live_of_duplicateTupleWithin hk
    obtain ⟨-, -, t, t', ids, ids', ht, ht', hkind, hperm, hparent, hmirrors, hfresh⟩ :=
      copiesFrom_duplicateTupleWithin hs _ (.refl hs.sound) (Arena.not_ahead_of_live ht₀) hk
    have hstores := Cell.stores_make s₁.heap c.type (.tuple k)
    replace hmirrors : s.Mirrors { s₁ with heap := (Cell.make s₁.heap c.type (.tuple k)).2 }
        t.entries t'.entries ids ids' :=
      hmirrors.congr_orphan (fun _ _ => rfl) (Cell.grows_make s₁.heap c.type (.tuple k))
    -- the cell owns the tuples of the copy, and these are all tuples that have been made
    obtain ⟨made, hheld, hmakes⟩ := hbrings
    obtain ⟨made', hperm', hown⟩ := hheld.owns_list (l := [_]) rfl
    obtain rfl : made' = k :: ids' := by
      rw [hown.unique (.tuple rfl hstores ht' hmirrors.owns_copies .nil), List.append_nil]
    have hmem : ∀ x, x ∈ made ↔ x ∈ k :: ids' := fun x => hperm'.mem_iff
    have htrade := hmakes.trade.congr (fun _ => Iff.rfl) hmem
    have hnodup := hperm'.nodup_iff.mp hheld.nodup
    refine ⟨rfl, rfl, k, t, t', ids, ids', hstores, ht, ht', hkind, hperm, hparent, hmirrors,
      hnodup, fun x hx => ⟨htrade.fresh x hx (by simp), hmakes.encloses x ((hmem x).mpr hx)⟩,
      fun x hx => htrade.same x (by simp) hx, htrade.heap, ?_, ?_⟩
    · rw [htrade.liveTuples_eq hnodup hown.live, List.length_cons, hmirrors.length_eq,
        List.length_cons]
    · exact (hmakes.trade.trans (hheld.releaseAll hmakes.trade.sound (l := [_]) rfl)).unchanged
  · rcases StoreM.bind_eq_error.mp herror with herror | ⟨k, s₁, -, herror⟩
    · refine ⟨(duplicateTupleWithin_error hs.sound herror).unchanged, ?_⟩
      intro hacyclic depth limit
      cases ht : s.tuple? id with
      | some t =>
        exact duplicateTupleWithin_ne_depthExceeded hs hacyclic List.nodup_nil (by simp) (by simp)
          .refl (by simp) (.refl hs.sound) (Arena.not_ahead_of_live ht) herror depth limit
      | none =>
        -- a tuple that is gone is not even looked into
        simp only [StoreM.duplicateTupleWithin, StoreM.bind_eq_error, StoreM.tuple_eq_ok, ht]
          at herror
        rcases herror with herror | ⟨_, _, ⟨hlive, -⟩, -⟩
        · exact ne_depthExceeded_of_tuple herror depth limit
        · cases hlive
    · cases herror

/-- A root scope. -/
def nestHome : Tuple := { kind := .custom "global", permissions := .all, parent := none }

/-- A tuple with a number, a tuple of its own and a reference to the root scope. -/
def nestOuter : Tuple where
  kind := .dynamic
  permissions := ⟨true, true, true, false, false⟩
  parent := some ⟨0, 0⟩
  entries := [⟨some "n", ⟨.leaf "int", 0, true, none⟩⟩, ⟨none, ⟨.leaf "plain", 1, true, none⟩⟩,
    ⟨some "home", ⟨.leaf "global", 2, false, none⟩⟩]
  index := [("n", 0), ("home", 2)]

/-- A tuple with a text. -/
def nestInner : Tuple where
  kind := .plain
  permissions := ⟨false, false, true, false, false⟩
  parent := some ⟨1, 0⟩
  entries := [⟨none, ⟨.leaf "text", 3, true, none⟩⟩]

/-- A store with these three. -/
def nestStore : Store where
  arena.slots := #[⟨0, some nestHome⟩, ⟨0, some nestOuter⟩, ⟨0, some nestInner⟩]
  heap.values := #[.int 1, .tuple ⟨2, 0⟩, .tuple ⟨0, 0⟩, .text "inside", .tuple ⟨1, 0⟩]
  root := ⟨0, 0⟩

/-- The outer and the inner tuple are copied. -/
theorem duplicate_copies_deeply_nest : nestStore.Rooted ∧
    ∃ c s', StoreM.duplicate ⟨.leaf "dynamic", 4, false, none⟩ nestStore = .ok c s' ∧
      s'.liveTuples = nestStore.liveTuples + 2 ∧ nestStore.Unchanged (s'.release c) := by
  -- the store has three tuples: the home, the outer and the inner
  have hlive : ∀ {x t}, nestStore.tuple? x = some t →
      t = nestHome ∨ t = nestOuter ∨ t = nestInner := by
    intro x t ht
    have hmem : x ∈ nestStore.arena.ids := Arena.mem_ids.mpr ⟨t, ht⟩
    have hids : nestStore.arena.ids = [⟨0, 0⟩, ⟨1, 0⟩, ⟨2, 0⟩] := rfl
    rw [hids, List.mem_cons, List.mem_cons, List.mem_singleton] at hmem
    rcases hmem with rfl | rfl | rfl
    · exact .inl (Option.some.inj ht.symm)
    · exact .inr (.inl (Option.some.inj ht.symm))
    · exact .inr (.inr (Option.some.inj ht.symm))
  have hs : nestStore.Rooted := by
    refine ⟨⟨Arena.sound_of_full rfl rfl, _, rfl⟩, fun x t ht => ?_, fun x t ht e he => ?_⟩
    · rcases hlive ht with rfl | rfl | rfl <;> rfl
    · -- the tuples its cells name are live
      have hahead : ∀ y, y = (⟨0, 0⟩ : TupleId) ∨ y = ⟨2, 0⟩ → ¬nestStore.arena.Ahead y := by
        rintro y (rfl | rfl) <;> exact Arena.not_ahead_of_live (t := _) rfl
      rcases hlive ht with rfl | rfl | rfl
      · cases he
      · simp only [nestOuter, List.mem_cons, List.not_mem_nil, or_false] at he
        rcases he with rfl | rfl | rfl
        · exact ⟨.int 1, rfl, by simp [Value.tupleId?]⟩
        · exact ⟨.tuple ⟨2, 0⟩, rfl, fun y hy => hahead y (.inr (Option.some.inj hy.symm))⟩
        · exact ⟨.tuple ⟨0, 0⟩, rfl, fun y hy => hahead y (.inl (Option.some.inj hy.symm))⟩
      · simp only [nestInner, List.mem_singleton] at he
        subst he
        exact ⟨.text "inside", rfl, by simp [Value.tupleId?]⟩
  -- two more are live behind the copy
  have hmade : passes (StoreM.duplicate ⟨.leaf "dynamic", 4, false, none⟩) nestStore
      (fun _ s' => s'.liveTuples == 5) = true := by decide +kernel
  obtain ⟨c, s', hrun, hlive⟩ := passes_iff.mp hmade
  obtain ⟨hcopied, -⟩ := duplicate_copies_deeply hs
    (rfl : Cell.tupleId? nestStore.heap ⟨.leaf "dynamic", 4, false, none⟩ = some ⟨1, 0⟩)
  obtain ⟨-, -, k, t, t', ids, ids', -, -, -, -, -, -, -, -, -, -, -, -, hrelease⟩ :=
    hcopied c s' hrun
  exact ⟨hs, c, s', hrun, beq_iff_eq.mp hlive, hrelease⟩

end Store

end TupleLang
