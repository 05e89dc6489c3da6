import TupleLang.Proofs.Containment

/-!
# What giving up a tuple frees

Tuples may own each other in any way: several may own the same one, and a tuple may own itself, by
itself or by way of others. Destroying a tuple frees those that can be reached from it along
ownership, and leaves every other tuple as it is (`destroy_frees_what_is_owned`). The free list and
the generations of the arena do not matter for this.

`Store.Releases` follows the recursion with nothing to bound it. That every list of cells has a
finite derivation says that the recursion always comes to an end.
-/

namespace TupleLang.Store

open Relation

variable {s s' s'' : Store} {id x y : TupleId} {t : Tuple} {c : Cell} {cells : List Cell}
  {P Q : TupleId → Prop}

/-! ## Reaching tuples -/

/-- One of the cells owns the tuple, which is not the root scope. -/
def OwnedBy (s : Store) (cells : List Cell) (y : TupleId) : Prop :=
  y ≠ s.root ∧ ∃ c ∈ cells, c.ownedTuple? s.heap = some y

/-- The tuple can be reached from one of those that the cells own. The root scope is never entered.
-/
def Reached (s : Store) (cells : List Cell) (x : TupleId) : Prop :=
  ∃ y, s.OwnedBy cells y ∧ ReflTransGen s.Owning y x

/-- Cells own what their parts own. -/
theorem ownedBy_append {others : List Cell} :
    s.OwnedBy (cells ++ others) y ↔ s.OwnedBy cells y ∨ s.OwnedBy others y := by
  simp only [OwnedBy, List.mem_append]
  constructor
  · rintro ⟨hy, c, hc | hc, hown⟩
    · exact .inl ⟨hy, c, hc, hown⟩
    · exact .inr ⟨hy, c, hc, hown⟩
  · rintro (⟨hy, c, hc, hown⟩ | ⟨hy, c, hc, hown⟩)
    · exact ⟨hy, c, .inl hc, hown⟩
    · exact ⟨hy, c, .inr hc, hown⟩

/-- Cells reach what their parts reach. -/
theorem reached_append {others : List Cell} :
    s.Reached (cells ++ others) x ↔ s.Reached cells x ∨ s.Reached others x := by
  simp only [Reached, ownedBy_append, or_and_right, exists_or]

/-- A cell reaches what its tuple owns, in turn. -/
theorem reached_singleton (hown : c.ownedTuple? s.heap = some y) (hy : y ≠ s.root) :
    s.Reached [c] x ↔ ReflTransGen s.Owning y x := by
  simp only [Reached, OwnedBy, List.mem_singleton, exists_eq_left, hown, Option.some.injEq]
  constructor
  · rintro ⟨z, ⟨-, rfl⟩, hx⟩
    exact hx
  · exact fun hx => ⟨y, ⟨hy, rfl⟩, hx⟩

/-- From what is not live nothing else is reached. -/
theorem eq_of_reach_of_dead (hdead : s.tuple? y = none) (h : ReflTransGen s.Owning y x) :
    x = y := by
  rcases h.cases_head with rfl | ⟨z, ⟨-, u, hu, -⟩, -⟩
  · rfl
  · rw [hdead] at hu
    cases hu

/-- What can be reached from a tuple can be reached from its cells when it has been emptied: a way
need not come back to where it began. -/
theorem reach_iff_of_drained (ht : s.tuple? id = some t) :
    ReflTransGen s.Owning id x ↔ x = id ∨ (s.putTuple id t.drain.2).Reached t.drain.1 x := by
  have hput := tuple?_putTuple ht t.drain.2
  have hloses : s.Loses (s.putTuple id t.drain.2) := loses_putTuple ht (by simp [Tuple.drain])
  constructor
  · -- the way is followed from its start: whenever it comes back to `id` it begins anew
    intro h
    induction h with
    | refl => exact .inl rfl
    | @tail y z _ hyz ih =>
      obtain ⟨hz, u, hu, e, he, hown⟩ := hyz
      by_cases hy : y = id
      · -- the next tuple is owned by one of the cells that `id` held
        subst hy
        rw [ht] at hu
        cases hu
        exact .inr ⟨z, ⟨hz, e.cell, List.mem_map_of_mem he, hown⟩, .refl⟩
      · -- any other tuple still has its cells when `id` has been emptied
        obtain ⟨w, hw, hwy⟩ := ih.resolve_left hy
        refine .inr ⟨w, hw, hwy.tail ⟨hz, u, ?_, e, he, hown⟩⟩
        rw [hput, if_neg hy, hu]
  · rintro (rfl | ⟨y, ⟨hy, c, hc, hown⟩, hyx⟩)
    · exact .refl
    · obtain ⟨e, he, rfl⟩ := List.mem_map.mp hc
      exact .head ⟨hy, t, ht, e, he, hown⟩ (ReflTransGen.mono hloses.owning y x hyx)

/-! ## Stores without some of their tuples -/

/-- The store `s'` is `s` without the tuples that have the property `P`: these are not live, and all
others are what they were. -/
structure Without (s : Store) (P : TupleId → Prop) (s' : Store) : Prop where
  but : s.SameButArena s'
  gone : ∀ x, P x → s'.tuple? x = none
  kept : ∀ x, ¬P x → s'.tuple? x = s.tuple? x

namespace Without

/-- Nothing is missing. -/
protected theorem refl (s : Store) (hP : ∀ x, P x → s.tuple? x = none) : s.Without P s :=
  ⟨.refl s, hP, fun _ _ => rfl⟩

/-- Tuples that are not live may count as missing or not. -/
theorem congr (h : s.Without P s') (hPQ : ∀ x, s.tuple? x ≠ none → (P x ↔ Q x)) :
    s.Without Q s' := by
  refine ⟨h.but, fun x hx => ?_, fun x hx => ?_⟩
  · -- what was not live before is not live now, whether or not it counts as missing
    by_cases hlive : s.tuple? x = none
    · by_cases hP : P x
      · exact h.gone x hP
      · rw [h.kept x hP, hlive]
    · exact h.gone x ((hPQ x hlive).mpr hx)
  · by_cases hlive : s.tuple? x = none
    · by_cases hP : P x
      · rw [h.gone x hP, hlive]
      · exact h.kept x hP
    · exact h.kept x fun hP => hx ((hPQ x hlive).mp hP)

/-- A tuple that is still live is not missing. -/
theorem not_of_live (h : s.Without P s') (hx : s'.tuple? x = some t) : ¬P x := by
  intro hP
  rw [h.gone x hP] at hx
  cases hx

/-- What is missing owns nothing, and everything else owns what it did. -/
theorem owning_iff (h : s.Without P s') : s'.Owning x y ↔ s.Owning x y ∧ ¬P x := by
  unfold Owning
  rw [h.but.root, h.but.heap]
  constructor
  · rintro ⟨hy, u, hu, hown⟩
    have hx := h.not_of_live hu
    exact ⟨⟨hy, u, h.kept x hx ▸ hu, hown⟩, hx⟩
  · rintro ⟨⟨hy, u, hu, hown⟩, hx⟩
    exact ⟨hy, u, by rw [h.kept x hx, hu], hown⟩

/-- Where `P` is closed under ownership, a way leads to a missing tuple or avoids them all. -/
theorem reach_or (h : s.Without P s') (hP : ∀ x y, P x → s.Owning x y → P y)
    (hxy : ReflTransGen s.Owning x y) : P y ∨ ReflTransGen s'.Owning x y := by
  induction hxy with
  | refl => exact .inr .refl
  | @tail y z _ hyz ih =>
    rcases ih with hy | hy
    · exact .inl (hP y z hy hyz)
    · by_cases hgone : P y
      · exact .inl (hP y z hgone hyz)
      · exact .inr (hy.tail (h.owning_iff.mpr ⟨hyz, hgone⟩))

/-- Where tuples are gone nobody owns more than before. -/
theorem owning_le (h : s.Without P s') : s'.Owning ≤ s.Owning :=
  fun _ _ hxy => (h.owning_iff.mp hxy).1

/-- Freeing what can be reached from some tuples, after others that are closed under ownership have
been freed. -/
theorem andThen (h : s.Without P s') (hP : ∀ x y, P x → s.Owning x y → P y)
    (seed : TupleId → Prop)
    (h' : s'.Without (fun x => ∃ y, seed y ∧ ReflTransGen s'.Owning y x) s'') :
    s.Without (fun x => P x ∨ ∃ y, seed y ∧ ReflTransGen s.Owning y x) s'' := by
  refine ⟨h.but.trans h'.but, fun x hx => ?_, fun x hx => ?_⟩
  · by_cases hfirst : P x
    · -- what was not live in between is not live in the end
      by_cases hnext : ∃ y, seed y ∧ ReflTransGen s'.Owning y x
      · exact h'.gone x hnext
      · rw [h'.kept x hnext, h.gone x hfirst]
    · -- the way to `x` avoids what was freed first, and so it is still there
      obtain ⟨y, hy, hyx⟩ := hx.resolve_left hfirst
      exact h'.gone x ⟨y, hy, (h.reach_or hP hyx).resolve_left hfirst⟩
  · rw [not_or] at hx
    rw [h'.kept x ?_, h.kept x hx.1]
    rintro ⟨y, hy, hyx⟩
    exact hx.2 ⟨y, hy, ReflTransGen.mono h.owning_le y x hyx⟩

/-- Giving up cells, after tuples that are closed under ownership have been freed. -/
theorem releases (h : s.Without P s') (hP : ∀ x y, P x → s.Owning x y → P y)
    (h' : s'.Without (s'.Reached cells) s'') :
    s.Without (fun x => P x ∨ s.Reached cells x) s'' := by
  have hsame : s'.OwnedBy cells = s.OwnedBy cells := by
    funext y
    rw [OwnedBy, OwnedBy, h.but.root, h.but.heap]
  refine h.andThen hP (s.OwnedBy cells) ?_
  rw [← hsame]
  exact h'

/-- Once the cells of an emptied tuple have been given up, vacating its slot completes the
destruction. The tuple may have been met again on the way, and then its slot is vacant already. -/
theorem destroys (ht : s.tuple? id = some t)
    (h : (s.putTuple id t.drain.2).Without ((s.putTuple id t.drain.2).Reached t.drain.1) s') :
    s.Without (ReflTransGen s.Owning id)
      { s' with arena := s'.arena.vacate id.index } := by
  have hput := tuple?_putTuple ht t.drain.2
  refine ⟨⟨h.but.heap, h.but.forms, h.but.root, h.but.settings⟩, fun x hx => ?_, fun x hx => ?_⟩
  · change (s'.arena.vacate id.index).get? x = none
    by_cases hindex : x.index = id.index
    · exact hindex ▸ Arena.get?_vacate_self
    · -- another slot: vacating leaves it as giving up the cells did
      rw [Arena.get?_vacate_of_ne hindex]
      rcases (reach_iff_of_drained ht).mp hx with rfl | hx
      · exact absurd rfl hindex
      · exact h.gone x hx
  · rw [reach_iff_of_drained ht, not_or] at hx
    change (s'.arena.vacate id.index).get? x = _
    by_cases hindex : x.index = id.index
    · -- no other generation of the slot is live
      have hdead : s.tuple? x = none := by
        cases hlive : s.tuple? x with
        | none => rfl
        | some u => exact absurd (Arena.eq_of_live_of_index hlive ht hindex) hx.1
      rw [hdead]
      exact hindex ▸ Arena.get?_vacate_self
    · rw [Arena.get?_vacate_of_ne hindex]
      exact (h.kept x hx.2).trans (by rw [hput, if_neg hx.1])

end Without

/-! ## Giving up cells without a bound -/

/-- Giving up the cells of a list one after the other ends in the store `s'`. A cell that owns a
live tuple other than the root scope empties it, gives up what it held and vacates its slot. -/
inductive Releases : Store → List Cell → Store → Prop
  | nil {s : Store} : Releases s [] s
  | idle {s s' : Store} {c : Cell} {cells : List Cell} :
      (∀ y, c.ownedTuple? s.heap = some y → y = s.root ∨ s.tuple? y = none) →
      Releases s cells s' → Releases s (c :: cells) s'
  | owner {s s' s'' : Store} {c : Cell} {cells : List Cell} {y : TupleId} {t : Tuple} :
      c.ownedTuple? s.heap = some y → y ≠ s.root → s.tuple? y = some t →
      Releases (s.putTuple y t.drain.2) t.drain.1 s' →
      Releases { s' with arena := s'.arena.vacate y.index } cells s'' →
      Releases s (c :: cells) s''

/-- Destroying a tuple ends in the store `s'`. -/
inductive Destroys (s : Store) (id : TupleId) : Store → Prop
  | idle : id = s.root ∨ s.tuple? id = none → Destroys s id s
  | live {s' : Store} {t : Tuple} : id ≠ s.root → s.tuple? id = some t →
      Releases (s.putTuple id t.drain.2) t.drain.1 s' →
      Destroys s id { s' with arena := s'.arena.vacate id.index }

/-- Giving up cells frees the tuples that can be reached from them, and no others. -/
theorem Releases.without (h : Releases s cells s') : s.Without (s.Reached cells) s' := by
  induction h with
  | nil => exact .refl _ fun x hx => by simp [Reached, OwnedBy] at hx
  | @idle s s' c cells hidle _ ih =>
    -- the cell adds only ways that begin at a tuple which is not live
    refine ih.congr fun x hlive => ?_
    rw [← List.singleton_append, reached_append]
    refine ⟨.inr, fun hx => hx.resolve_left ?_⟩
    rintro ⟨y, ⟨hy, c', hc', hown⟩, hyx⟩
    obtain rfl := List.mem_singleton.mp hc'
    have hdead := (hidle y hown).resolve_left hy
    exact hlive (eq_of_reach_of_dead hdead hyx ▸ hdead)
  | @owner s s' s'' c cells y t hown hy ht _ _ ih₁ ih₂ =>
    -- what is reached from `y` is closed under ownership, so the rest may be given up afterwards
    have hfirst := Without.destroys ht ih₁
    refine (hfirst.releases (fun _ _ => ReflTransGen.tail) ih₂).congr fun x _ => ?_
    rw [← List.singleton_append, reached_append, reached_singleton hown hy]

/-- Destroying a tuple frees the tuples that can be reached from it, and no others. -/
theorem Destroys.without (h : s.Destroys id s') (hid : id ≠ s.root) :
    s.Without (ReflTransGen s.Owning id) s' := by
  cases h with
  | idle hidle =>
    have hdead := hidle.resolve_left hid
    exact .refl s fun x hx => eq_of_reach_of_dead hdead hx ▸ hdead
  | live _ ht hcells => exact .destroys ht hcells.without

/-- Giving up cells always comes to an end, and does so where `releaseAll` does. -/
theorem releases_releaseAll (s : Store) (cells : List Cell) :
    s.Releases cells (s.releaseAll cells) := by
  -- by the number of attributes, of which emptying a tuple takes some away, then along the list
  induction hn : s.arena.entryCount using Nat.strong_induction_on generalizing s cells with
  | _ n ih =>
    subst hn
    induction cells generalizing s with
    | nil => exact .nil
    | cons c cells ihcells =>
      -- giving up the first cell adds no attributes, so the rest of the list may follow
      have hrest : ∀ s₁ : Store, s₁.arena.entryCount ≤ s.arena.entryCount →
          s₁.Releases cells (s₁.releaseAll cells) := by
        intro s₁ hle
        exact ihcells s₁ fun m hm s₂ cells₂ hcount => ih m (hm.trans_le hle) s₂ cells₂ hcount
      change s.Releases (c :: cells) ((s.release c).releaseAll cells)
      cases hown : c.ownedTuple? s.heap with
      | none =>
        rw [show s.release c = s by rw [release, hown]]
        exact .idle (fun y hy => by rw [hown] at hy; cases hy) (hrest s le_rfl)
      | some y =>
        rw [show s.release c = s.destroy y by rw [release, hown]]
        rcases destroyWithin_cases s y with hnot | ⟨hy, t, ht⟩
        · -- the root scope, or a tuple that is not live
          rw [show s.destroy y = s from destroyWithin_of_not _ hnot]
          refine .idle (fun z hz => ?_) (hrest s le_rfl)
          rw [hown] at hz
          cases hz
          exact hnot
        · have hdrain := entryCount_drain ht
          -- a tuple without attributes has no cells to give up
          have hinner : (s.putTuple y t.drain.2).Releases t.drain.1
              ((s.putTuple y t.drain.2).releaseAll t.drain.1) := by
            by_cases hnone : t.drain.1 = []
            · rw [hnone]
              exact .nil
            · have hpos := List.length_pos_iff.mpr hnone
              exact ih _ (by omega) _ _ rfl
          have hle := entryCount_destroyWithin_le (s.arena.entryCount + 1) s y
          have hnext := hrest (s.destroy y) hle
          rw [destroy_eq hy ht] at hnext ⊢
          exact .owner hown hy ht hinner hnext

/-- Destroying a tuple always comes to an end, and does so where `destroy` does. -/
theorem destroys_destroy (s : Store) (id : TupleId) : s.Destroys id (s.destroy id) := by
  rcases destroyWithin_cases s id with hnot | ⟨hid, t, ht⟩
  · rw [show s.destroy id = s from destroyWithin_of_not _ hnot]
    exact .idle hnot
  · rw [destroy_eq hid ht]
    exact .live hid ht (releases_releaseAll _ _)

/-- Giving up cells frees the tuples that can be reached from them, and no others. -/
theorem without_releaseAll (s : Store) (cells : List Cell) :
    s.Without (s.Reached cells) (s.releaseAll cells) := (releases_releaseAll s cells).without

/-- Destroying a tuple frees the tuples that can be reached from it, and no others. -/
theorem without_destroy (hid : id ≠ s.root) :
    s.Without (ReflTransGen s.Owning id) (s.destroy id) := (destroys_destroy s id).without hid

/-! ## The whole -/

/-- What is left of `s` when the tuple `id` is given up is `s'`. -/
structure Frees (s : Store) (id : TupleId) (s' : Store) : Prop where
  /-- The tuples that can be reached are gone, and all others are what they were. -/
  owned : id ≠ s.root → s.Without (ReflTransGen s.Owning id) s'
  /-- The root scope is not given up, and what is not live cannot be. -/
  idle : id = s.root ∨ s.tuple? id = none → s' = s
  /-- The recursion comes to an end. -/
  ends : s.Destroys id s'

/-- Destroying a tuple frees exactly what it owns, by itself or by way of others, whatever owns what
and whatever the arena looks like. So does giving up a cell that owns the tuple, while one that owns
none changes nothing. Both come to an end. -/
theorem destroy_frees_what_is_owned (s : Store) (id : TupleId) :
    s.Frees id (s.destroy id) ∧
      ∀ c : Cell,
        (c.ownedTuple? s.heap = some id →
          s.Frees id (s.release c) ∧ s.Releases [c] (s.release c)) ∧
        (c.ownedTuple? s.heap = none → s.release c = s) := by
  have hfrees : s.Frees id (s.destroy id) :=
    ⟨without_destroy, fun hidle => destroyWithin_of_not _ hidle, destroys_destroy s id⟩
  refine ⟨hfrees, fun c => ⟨fun hown => ?_, fun hown => by rw [release, hown]⟩⟩
  refine ⟨?_, releases_releaseAll s [c]⟩
  rw [release, hown]
  exact hfrees

/-- A tuple with one attribute for each of the cells. -/
def ringTuple (parent : Option TupleId) (cells : List Cell) : Tuple where
  kind := .dynamic
  permissions := .all
  parent := parent
  entries := cells.map fun cell => ⟨none, cell⟩

/-- Two tuples that own each other, the first of which also owns the root scope, and a third one
that refers to the first. -/
def ringStore : Store where
  arena := {
    slots := #[
      { tuple := some (ringTuple none []) },
      { tuple := some (ringTuple none
        [⟨.leaf "dynamic", 2, true, none⟩, ⟨.leaf "global", 0, true, none⟩]) },
      { tuple := some (ringTuple none [⟨.leaf "dynamic", 1, true, none⟩]) },
      { tuple := some (ringTuple (some ⟨1, 0⟩) [⟨.leaf "dynamic", 1, false, none⟩]) }] }
  heap := ⟨#[.tuple ⟨0, 0⟩, .tuple ⟨1, 0⟩, .tuple ⟨2, 0⟩]⟩
  root := ⟨0, 0⟩

/-- Nothing owns the third tuple of the ring. -/
theorem not_owning_ring (x : TupleId) : ¬ringStore.Owning x ⟨3, 0⟩ := by
  rintro ⟨-, u, hu, e, he, howned⟩
  obtain ⟨n, hslot, -⟩ := Arena.get?_eq_some_iff.mp hu
  -- its attributes are those of one of the four slots
  have hall : ∀ slot ∈ ringStore.arena.slots.toList, ∀ u ∈ slot.tuple, ∀ e ∈ u.entries,
      e.cell.ownedTuple? ringStore.heap ≠ some ⟨3, 0⟩ := by decide
  exact hall _ (by simpa using Array.mem_of_getElem? hslot) u rfl e he howned

/-- Giving up a cell that owns the second tuple frees both, and leaves the third one with its
parent, which is gone. -/
theorem destroy_frees_what_is_owned_ring :
    let s := ringStore
    let c : Cell := ⟨.leaf "dynamic", 2, true, none⟩
    c.ownedTuple? s.heap = some ⟨2, 0⟩ ∧ (s.release c).tuple? ⟨1, 0⟩ = none ∧
      (s.release c).tuple? ⟨3, 0⟩ =
        some (ringTuple (some ⟨1, 0⟩) [⟨.leaf "dynamic", 1, false, none⟩]) ∧
      s.destroy ⟨0, 0⟩ = s := by
  intro s c
  have hown : c.ownedTuple? s.heap = some ⟨2, 0⟩ := rfl
  have hfreed := ((destroy_frees_what_is_owned s ⟨2, 0⟩).2 c).1 hown
  have hwithout := hfreed.1.owned (by decide)
  -- along the ring the first tuple is reached from the second
  have hback : s.Owning ⟨2, 0⟩ ⟨1, 0⟩ :=
    ⟨by decide, _, rfl, _, List.mem_cons_self, rfl⟩
  refine ⟨hown, hwithout.gone _ (.single hback), (hwithout.kept _ fun hreach => ?_).trans rfl, ?_⟩
  · rcases hreach.cases_tail with hsame | ⟨x, -, hown⟩
    · cases hsame
    · exact not_owning_ring x hown
  · exact (destroy_frees_what_is_owned s ⟨0, 0⟩).1.idle (.inl rfl)

end TupleLang.Store
