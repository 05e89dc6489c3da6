import TupleLang.Proofs.Ownership

/-!
# Containment

One tuple *owns* another when one of its attributes does. Nothing keeps a host from building tuples
that own each other; containment is *acyclic* when no tuple owns itself, not even by way of others.

Destroying a tuple then gives up the tuples that can be reached from it, and each of them once
(`Acyclic.culled_destroy`): on the way down, the tuple that is being destroyed is not met again, so
that its slot is still its own when it is vacated.
-/

namespace TupleLang.Store

open Relation

/-- An attribute of `x` owns `y`. The root scope is nobody's: it is not given up with its owner. -/
def Owning (s : Store) (x y : TupleId) : Prop :=
  y ≠ s.root ∧ ∃ t, s.tuple? x = some t ∧ ∃ e ∈ t.entries, e.cell.ownedTuple? s.heap = some y

/-- No tuple owns itself, by itself or by way of others. -/
def Acyclic (s : Store) : Prop := ∀ x, ¬TransGen s.Owning x x

variable {s s' s'' : Store} {id x y : TupleId} {t : Tuple} {P P' : TupleId → Prop}

/-- Every tuple of `s'` is one of `s` or has lost attributes, and the values are the same. -/
structure Loses (s s' : Store) : Prop where
  but : s.SameButArena s'
  tuples : ∀ x t', s'.tuple? x = some t' → ∃ t, s.tuple? x = some t ∧ t'.entries ⊆ t.entries

/-- Without attributes no containment comes about. -/
theorem Loses.owning (h : s.Loses s') : s'.Owning ≤ s.Owning := by
  rintro x y ⟨hroot, t', ht', e, he, hcell⟩
  obtain ⟨t, ht, hsub⟩ := h.tuples x t' ht'
  refine ⟨by rwa [← h.but.root], t, ht, e, hsub he, ?_⟩
  rwa [← h.but.heap]

/-- Containment stays acyclic when attributes are lost. -/
theorem Loses.acyclic (h : s.Loses s') (hs : s.Acyclic) : s'.Acyclic :=
  fun x hx => hs x (TransGen.mono h.owning x x hx)

/-- Containment stays acyclic when a tuple that nobody owns comes to own others. -/
theorem Acyclic.of_source (hs : s.Acyclic)
    (hedge : ∀ x y, s'.Owning x y → y ≠ id ∧ (s.Owning x y ∨ x = id)) : s'.Acyclic := by
  -- a path that does not begin at `id` never comes to it, and so is a path of `s`
  have hpath : ∀ x y, x ≠ id → TransGen s'.Owning x y → TransGen s.Owning x y ∧ y ≠ id := by
    intro x y hx hxy
    induction hxy with
    | single hxy =>
      obtain ⟨hy, hown | rfl⟩ := hedge _ _ hxy
      · exact ⟨.single hown, hy⟩
      · exact absurd rfl hx
    | tail _ hyz ih =>
      obtain ⟨hz, hown | rfl⟩ := hedge _ _ hyz
      · exact ⟨ih.1.tail hown, hz⟩
      · exact absurd rfl ih.2
  intro x hx
  by_cases hid : x = id
  · obtain ⟨y, -, hyx⟩ := TransGen.tail'_iff.mp hx
    exact (hedge y x hyx).1 hid
  · exact hs x (hpath x x hid hx).1

/-! ## Giving tuples up -/

/-- The store `s'` is `s` without some of the tuples that have the property `P`. -/
structure Culled (s : Store) (P : TupleId → Prop) (s' : Store) : Prop where
  sound : s'.Sound
  but : s.SameButArena s'
  tuples : ∀ x, s'.tuple? x = s.tuple? x ∨ s'.tuple? x = none ∧ P x

namespace Culled

/-- Nothing is culled. -/
protected theorem refl (hs : s.Sound) (P : TupleId → Prop) : s.Culled P s :=
  ⟨hs, .refl s, fun _ => .inl rfl⟩

/-- Culling twice is culling. -/
protected theorem trans (h : s.Culled P s') (h' : s'.Culled P s'') : s.Culled P s'' := by
  refine ⟨h'.sound, h.but.trans h'.but, fun x => ?_⟩
  rcases h'.tuples x with hx' | hx'
  · rw [hx']
    exact h.tuples x
  · exact .inr hx'

/-- Less may be culled than is allowed. -/
theorem mono (h : s.Culled P s') (hP : ∀ x, P x → P' x) : s.Culled P' s' :=
  ⟨h.sound, h.but, fun x => (h.tuples x).imp_right (And.imp_right (hP x))⟩

/-- Tuples that are given up take their attributes with them. -/
theorem loses (h : s.Culled P s') : s.Loses s' := by
  refine ⟨h.but, fun x t' ht' => ?_⟩
  rcases h.tuples x with hx | ⟨hx, -⟩
  · exact ⟨t', hx ▸ ht', List.Subset.refl _⟩
  · simp [hx] at ht'

/-- Tuples without the property are all there. -/
theorem tuple?_eq (h : s.Culled P s') (hx : ¬P x) : s'.tuple? x = s.tuple? x :=
  (h.tuples x).resolve_right fun hgone => hx hgone.2

end Culled

/-- A tuple may lose attributes. -/
theorem loses_putTuple {t' : Tuple} (ht : s.tuple? id = some t) (hsub : t'.entries ⊆ t.entries) :
    s.Loses (s.putTuple id t') := by
  refine ⟨⟨rfl, rfl, rfl, rfl⟩, fun x u hu => ?_⟩
  rw [tuple?_putTuple ht] at hu
  split at hu
  · rename_i hx
    cases hu
    exact ⟨t, hx ▸ ht, hsub⟩
  · exact ⟨u, hu, List.Subset.refl _⟩

/-- Nothing owns the root scope. -/
theorem not_transGen_root (s : Store) (x : TupleId) : ¬TransGen s.Owning x s.root := by
  intro h
  obtain ⟨y, -, hy⟩ := TransGen.tail'_iff.mp h
  exact hy.1 rfl

/-- Releasing cells one after the other gives up what can be reached from them, if that is what
destroying a tuple with fewer attributes around does. -/
theorem culled_releaseAll_of {n : Nat}
    (hdestroy : ∀ (s : Store) (id : TupleId), s.arena.entryCount < n → s.Sound → s.Acyclic →
      s.Culled (ReflTransGen s.Owning id) (s.destroy id))
    (cells : List Cell) (hn : cells ≠ [] → s.arena.entryCount < n) (hs : s.Sound)
    (hacyclic : s.Acyclic) :
    s.Culled (fun x => ∃ c ∈ cells, ∃ y, c.ownedTuple? s.heap = some y ∧ y ≠ s.root ∧
      ReflTransGen s.Owning y x) (s.releaseAll cells) := by
  induction cells generalizing s with
  | nil => exact .refl hs _
  | cons c cells ih =>
    have hcount := hn (by simp)
    -- a release never adds entries, so the bound holds for the cells behind
    have hle : (s.release c).arena.entryCount ≤ s.arena.entryCount := by
      unfold release
      split
      · exact entryCount_destroyWithin_le _ s _
      · exact le_rfl
    have hfirst : s.Culled (fun x => ∃ c' ∈ c :: cells, ∃ y, c'.ownedTuple? s.heap = some y ∧
        y ≠ s.root ∧ ReflTransGen s.Owning y x) (s.release c) := by
      unfold release
      cases hown : c.ownedTuple? s.heap with
      | none => exact .refl hs _
      | some y =>
        dsimp only
        by_cases hroot : y = s.root
        · rw [show s.destroy y = s from destroyWithin_of_not _ (.inl hroot)]
          exact .refl hs _
        · exact (hdestroy s y hcount hs hacyclic).mono fun x hx =>
            ⟨c, List.mem_cons_self, y, hown, hroot, hx⟩
    have hrest := ih (fun _ => hle.trans_lt hcount) hfirst.sound (hfirst.loses.acyclic hacyclic)
    refine hfirst.trans (hrest.mono ?_)
    rintro x ⟨c', hc', y, hown, hroot, hx⟩
    -- what the later cells own is read in a heap that has not changed
    rw [hfirst.but.heap] at hown
    rw [hfirst.but.root] at hroot
    exact ⟨c', List.mem_cons_of_mem _ hc', y, hown, hroot,
      ReflTransGen.mono hfirst.loses.owning y x hx⟩

/-- Destroying a tuple gives up tuples that can be reached from it, and no others. -/
theorem Acyclic.culled_destroy (hacyclic : s.Acyclic) (hs : s.Sound) (id : TupleId) :
    s.Culled (ReflTransGen s.Owning id) (s.destroy id) := by
  -- by the number of attributes, of which every level takes some away
  induction hn : s.arena.entryCount using Nat.strong_induction_on generalizing s id with
  | _ n ih =>
    subst hn
    rcases destroyWithin_cases s id with hnot | ⟨hroot, t, ht⟩
    · rw [show s.destroy id = s from destroyWithin_of_not _ hnot]
      exact .refl hs _
    · have hdrain := entryCount_drain ht
      have hloses : s.Loses (s.putTuple id t.drain.2) := loses_putTuple ht (by simp [Tuple.drain])
      have hcells := culled_releaseAll_of (n := s.arena.entryCount)
        (fun s' id' hlt hs' hac' => ih _ hlt hac' hs' id' rfl) t.drain.1
        (fun hne => by have := List.length_pos_iff.mpr hne; omega)
        (hs.putTuple ht _) (hloses.acyclic hacyclic)
      have hinner : (s.putTuple id t.drain.2).Culled (TransGen s.Owning id)
          ((s.putTuple id t.drain.2).releaseAll t.drain.1) := by
        refine hcells.mono ?_
        rintro x ⟨c, hc, y, hown, hy, hx⟩
        obtain ⟨e, he, rfl⟩ := List.mem_map.mp hc
        exact TransGen.head' ⟨hy, t, ht, e, he, hown⟩ (ReflTransGen.mono hloses.owning y x hx)
      rw [destroy_eq hroot ht]
      dsimp only
      generalize (s.putTuple id t.drain.2).releaseAll t.drain.1 = released at hinner
      have hput := tuple?_putTuple ht t.drain.2
      have hlive : released.tuple? id = some t.drain.2 := by
        rw [hinner.tuple?_eq (hacyclic id), hput, if_pos rfl]
      have hget : ∀ x, (released.arena.vacate id.index).get? x =
          if x = id then none else released.tuple? x := Arena.get?_vacate hlive
      refine ⟨⟨hinner.sound.arena.vacate hlive, ?_⟩, ?_, fun x => ?_⟩
      · obtain ⟨r, hr⟩ := hs.root_live
        refine ⟨r, ?_⟩
        rw [show released.root = s.root from hinner.but.root]
        refine (hget s.root).trans ?_
        rw [if_neg hroot.symm, hinner.tuple?_eq (not_transGen_root s id), hput,
          if_neg hroot.symm, hr]
      · exact ⟨hinner.but.heap, hinner.but.forms, hinner.but.root, hinner.but.settings⟩
      · rw [show ({ released with arena := released.arena.vacate id.index } : Store).tuple? x = _
          from hget x]
        by_cases hx : x = id
        · exact .inr ⟨if_pos hx, hx ▸ .refl⟩
        · rw [if_neg hx]
          rcases hinner.tuples x with hsame | ⟨hgone, hreach⟩
          · rw [hput, if_neg hx] at hsame
            exact .inl hsame
          · exact .inr ⟨hgone, hreach.to_reflTransGen⟩

/-- Releasing a cell gives up what can be reached from it. -/
theorem Acyclic.culled_release (hacyclic : s.Acyclic) (hs : s.Sound) (c : Cell) :
    s.Culled (fun _ => True) (s.release c) := by
  unfold release
  split
  · exact (hacyclic.culled_destroy hs _).mono fun _ _ => trivial
  · exact .refl hs _

/-- Releasing cells gives up what can be reached from them. -/
theorem Acyclic.culled_releaseAll (hacyclic : s.Acyclic) (hs : s.Sound) (cells : List Cell) :
    s.Culled (fun _ => True) (s.releaseAll cells) :=
  (culled_releaseAll_of (fun _ id _ hs' hac' => hac'.culled_destroy hs' id) cells
    (fun _ => Nat.lt_succ_self _) hs hacyclic).mono fun _ _ => trivial

end TupleLang.Store
