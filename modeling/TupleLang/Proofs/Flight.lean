import TupleLang.Proofs.Build
import TupleLang.Proofs.Generation

/-!
# Tuples in flight

Evaluation makes tuples and carries them in cells until they are put into other tuples or handed
out. `Store.Brings base s cells` says of a store that has come about from `base` in this way, with
`cells` in flight: the cells own exactly the tuples that were made on the way, and all tuples of the
base are as they were. A tuple made on the way is the scope around the tuples that its attributes
own (`Store.Encloses`). `Store.Builds` says the same while one of the tuples is being filled.

Building a tuple from cells in flight and copying a tuple lead from one such store to the next
(`Brings.createFrom`, `brings_duplicate`). Programs are followed where they succeed.
-/

namespace TupleLang

namespace StoreM

variable {α β : Type} {m : StoreM α} {f : α → StoreM β} {s s'' : Store} {b : β}

/-- A sequence of two programs succeeds when both do, one after the other. -/
theorem bind_eq_ok : (m >>= f) s = .ok b s'' ↔ ∃ a s', m s = .ok a s' ∧ f a s' = .ok b s'' := by
  change EStateM.bind m f s = .ok b s'' ↔ _
  unfold EStateM.bind
  cases m s with
  | ok a s' => simp
  | error e s' => simp

/-- A program that fails after cleaning up succeeds only where there was nothing to clean up. -/
theorem cleanup_eq_ok {clean : Store → Store} {a : α} :
    (tryCatch m fun e => do modify clean; throw e) s = .ok a s'' ↔ m s = .ok a s'' := by
  change EStateM.tryCatch m _ s = .ok a s'' ↔ _
  unfold EStateM.tryCatch
  cases m s with
  | ok a s' => rfl
  | error e s' => exact iff_of_false nofun nofun

/-- The outcome of a computation that does not change the store. -/
theorem ofExcept_eq_ok {x : Except Error α} {a : α} :
    ofExcept x s = .ok a s'' ↔ x = .ok a ∧ s'' = s := by
  cases x with
  | error e => exact iff_of_false nofun nofun
  | ok a' =>
    constructor
    · intro h
      cases h
      exact ⟨rfl, rfl⟩
    · rintro ⟨h, rfl⟩
      cases h
      rfl

/-- A cell is read where it holds such a value. -/
theorem read_eq_ok {c : Cell} {n : Native} {v : n.Carrier} :
    read c n s = .ok v s'' ↔ c.read s.heap n = .ok v ∧ s'' = s := ofExcept_eq_ok

/-- A live tuple is found. -/
theorem tuple_eq_ok {id : TupleId} {t : Tuple} :
    tuple id s = .ok t s'' ↔ s.tuple? id = some t ∧ s'' = s := by
  refine ofExcept_eq_ok.trans (and_congr_left' ?_)
  unfold Store.tuple
  split
  · rename_i u hu
    simp [hu]
  · rename_i hu
    simp [hu]

/-- The heap is changed where the change does not fail. -/
theorem tryHeap_eq_ok {f : Heap → Except Error (α × Heap)} {a : α} :
    tryHeap f s = .ok a s'' ↔ ∃ heap, f s.heap = .ok (a, heap) ∧ s'' = { s with heap } := by
  simp only [tryHeap, bind_eq_ok, ofExcept_eq_ok]
  constructor
  · rintro ⟨_, _, hget, ⟨_, heap⟩, _, ⟨hf, rfl⟩, _, _, hmodify, hrun⟩
    cases hget
    cases hmodify
    cases hrun
    exact ⟨heap, hf, rfl⟩
  · rintro ⟨heap, hf, rfl⟩
    exact ⟨s, s, rfl, (a, heap), s, ⟨hf, rfl⟩, (), _, rfl, rfl⟩

/-- A tuple is changed where it is live and does not refuse. -/
theorem update_eq_ok {id : TupleId} {g : Tuple → Except Error (α × Tuple)} {a : α} :
    update id g s = .ok a s'' ↔
      ∃ t t', s.tuple? id = some t ∧ g t = .ok (a, t') ∧ s'' = s.putTuple id t' := by
  simp only [update, bind_eq_ok, tuple_eq_ok, ofExcept_eq_ok]
  constructor
  · rintro ⟨t, _, ⟨ht, rfl⟩, ⟨a', t'⟩, _, ⟨hg, rfl⟩, _, _, hput, hrun⟩
    cases hput
    cases hrun
    exact ⟨t, t', ht, hg, rfl⟩
  · rintro ⟨t, t', ht, hg, rfl⟩
    exact ⟨t, s, ⟨ht, rfl⟩, (a, t'), s, ⟨hg, rfl⟩, (), s.putTuple id t', rfl, rfl⟩

end StoreM

namespace Arena.Young

variable {a : Arena} {id : TupleId} {t : Tuple}

/-- Changing a slot without vacating it. -/
theorem modify (h : a.Young) {free : List Nat} {i : Nat} {f : Slot → Slot}
    (hf : ∀ slot, (f slot).vacated = slot.vacated) :
    Arena.Young { slots := a.slots.modify i f, free } := by
  intro j slot hslot
  rw [Array.getElem?_modify] at hslot
  split at hslot
  · obtain ⟨slot', hslot', rfl⟩ := Option.map_eq_some_iff.mp hslot
    rw [hf]
    exact h j slot' hslot'
  · exact h j slot hslot

/-- Changing a tuple vacates no slot. -/
theorem put (h : a.Young) : (a.put id t).Young := by
  unfold Arena.put
  split
  · exact h.modify fun _ => rfl
  · exact h

/-- Moving a tuple in vacates no slot. -/
theorem alloc (h : a.Young) : (a.alloc t).2.Young := by
  unfold Arena.alloc
  split
  · exact h.modify fun _ => rfl
  · intro i slot hslot
    rw [Array.getElem?_push] at hslot
    split at hslot
    · cases hslot
      exact Nat.two_pow_pos 32
    · exact h i slot hslot

end Arena.Young

namespace Store

/-! ## Scopes around owned tuples -/

/-- The tuple `x` is the scope around every live tuple that its attributes own. -/
def Encloses (s : Store) (x : TupleId) : Prop :=
  ∀ t, s.tuple? x = some t → ∀ e ∈ t.entries, ∀ y u,
    e.cell.ownedTuple? s.heap = some y → s.tuple? y = some u → u.parent = some x

/-- What the attributes of the tuples `ids` own is among these tuples. -/
def Closed (s : Store) (ids : List TupleId) : Prop :=
  ∀ x ∈ ids, ∀ t, s.tuple? x = some t → ∀ e ∈ t.entries,
    e.cell.Loose s.heap ∨ ∃ y ∈ ids, e.cell.Stores s.heap (.tuple y)

variable {base s s' : Store} {cells extra : Multiset Cell} {ids new : List TupleId} {id : TupleId}
  {t : Tuple} {c : Cell}

/-- Each of the cells is loose or holds one of the tuples that they own. -/
theorem Owns.stores_or_loose {l : List Cell} (h : s.Owns l ids) (hc : c ∈ l) :
    c.Loose s.heap ∨ ∃ y ∈ ids, c.Stores s.heap (.tuple y) := by
  induction h with
  | nil => simp at hc
  | loose hloose _ ih =>
    rcases List.mem_cons.mp hc with rfl | hc
    · exact .inl hloose
    · exact ih hc
  | tuple _ hv _ _ _ _ ih =>
    rcases List.mem_cons.mp hc with rfl | hc
    · exact .inr ⟨_, List.mem_cons_self, hv⟩
    · refine (ih hc).imp_right fun ⟨y, hy, hv⟩ => ⟨y, ?_, hv⟩
      simp [hy]

/-- The tuples that cells own are closed. -/
theorem Owns.closed {l : List Cell} (h : s.Owns l ids) : s.Closed ids := by
  induction h with
  | nil => exact fun x hx => by simp at hx
  | loose _ _ ih => exact ih
  | @tuple c l id t inner ids _ _ ht hinner _ ih₁ ih₂ =>
    have hwiden : ∀ {e : Cell} {part : List TupleId}, part ⊆ id :: (inner ++ ids) →
        (e.Loose s.heap ∨ ∃ y ∈ part, e.Stores s.heap (.tuple y)) →
        e.Loose s.heap ∨ ∃ y ∈ id :: (inner ++ ids), e.Stores s.heap (.tuple y) :=
      fun hpart he => he.imp_right fun ⟨y, hy, hv⟩ => ⟨y, hpart hy, hv⟩
    have hsub : inner ⊆ id :: (inner ++ ids) := fun y hy => by simp [hy]
    intro x hx t' ht' e he
    rw [List.mem_cons, List.mem_append] at hx
    rcases hx with rfl | hx | hx
    · rw [ht] at ht'
      cases ht'
      exact hwiden hsub (hinner.stores_or_loose (List.mem_map_of_mem he))
    · exact hwiden hsub (ih₁ x hx t' ht' e he)
    · exact hwiden (fun y hy => by simp [hy]) (ih₂ x hx t' ht' e he)

/-- What is held is closed. -/
theorem Holds.closed (h : s.Holds cells ids) : s.Closed ids := by
  obtain ⟨l, -, hown⟩ := h.owns
  exact hown.closed

/-- A tuple that is being filled is closed together with what is held beside it. -/
theorem Holds.closed_cons (h : s.Holds (t.cells + cells) ids) (ht : s.tuple? id = some t) :
    s.Closed (id :: ids) := by
  intro x hx t' ht' e he
  have hwiden : (e.cell.Loose s.heap ∨ ∃ y ∈ ids, e.cell.Stores s.heap (.tuple y)) →
      e.cell.Loose s.heap ∨ ∃ y ∈ id :: ids, e.cell.Stores s.heap (.tuple y) :=
    fun h => h.imp_right fun ⟨y, hy, hv⟩ => ⟨y, List.mem_cons_of_mem _ hy, hv⟩
  rcases List.mem_cons.mp hx with rfl | hx
  · rw [ht] at ht'
    cases ht'
    obtain ⟨l, hl⟩ := Quotient.exists_rep cells
    obtain ⟨ids', hperm, hown⟩ := h.owns_list (l := t.cells ++ l) (by rw [← hl]; rfl)
    have hmem : e.cell ∈ t.cells ++ l := List.mem_append_left _ (List.mem_map_of_mem he)
    refine hwiden ((hown.stores_or_loose hmem).imp_right fun ⟨y, hy, hv⟩ => ⟨y, ?_, hv⟩)
    exact hperm.mem_iff.mpr hy
  · exact hwiden (h.closed x hx t' ht' e he)

/-- While tuples stay where they are, the attributes of closed tuples own the same. -/
theorem Closed.ownedTuple?_eq (h : s.Closed ids) (hid : id ∈ ids) (ht : s.tuple? id = some t)
    {e : Attribute} (he : e ∈ t.entries) {h' : Heap} (hheap : s.heap.Retains h') {y : TupleId}
    (hy : e.cell.ownedTuple? h' = some y) : e.cell.ownedTuple? s.heap = some y ∧ y ∈ ids := by
  rcases h id hid t ht e he with hloose | ⟨z, hz, hv⟩
  · simp [(hloose.retains hheap).ownedTuple?] at hy
  · -- the place has the same tuple before and after
    have hyz := (hv.retains hheap).tupleId?_eq.symm.trans (Cell.tupleId?_of_ownedTuple? hy)
    cases hyz
    refine ⟨?_, hz⟩
    unfold Cell.ownedTuple? at hy ⊢
    split at hy
    · rw [if_pos ‹_›, hv.tupleId?_eq]
      rfl
    · cases hy

/-- Closed tuples enclose what they own as long as nobody touches them. -/
theorem Closed.encloses (h : s.Closed ids) (hsame : ∀ x ∈ ids, s'.tuple? x = s.tuple? x)
    (hheap : s.heap.Retains s'.heap) (hencloses : ∀ x ∈ ids, s.Encloses x) :
    ∀ x ∈ ids, s'.Encloses x := by
  intro x hx t ht e he y u hy hu
  rw [hsame x hx] at ht
  obtain ⟨hy, hmem⟩ := h.ownedTuple?_eq hx ht he hheap hy
  rw [hsame y hmem] at hu
  exact hencloses x hx t ht e he y u hy hu

/-! ## Cells in flight -/

/-- The store has come about from `base` by making the tuples `ids`, each of which encloses what it
owns, and no slot was vacated on the way. -/
structure Makes (base s : Store) (ids : List TupleId) : Prop where
  trade : base.Trade [] s ids
  encloses : ∀ x ∈ ids, s.Encloses x
  ages : base.arena.Ages s.arena
  young : base.arena.Young → s.arena.Young

/-- The store has come about from `base` with these cells in flight. -/
def Brings (base s : Store) (cells : Multiset Cell) : Prop :=
  ∃ ids, s.Holds cells ids ∧ base.Makes s ids

/-- The store has come about from `base` with these cells in flight, and the tuple `id` is being
filled. -/
def Builds (base s : Store) (id : TupleId) (cells : Multiset Cell) : Prop :=
  ∃ t ids, s.tuple? id = some t ∧ id ∉ ids ∧ id ≠ s.root ∧ s.Holds (t.cells + cells) ids ∧
    base.Makes s (id :: ids)

namespace Makes

/-- Nothing has been made at first. -/
protected theorem refl (hs : s.Sound) : s.Makes s [] :=
  ⟨.refl hs [], fun x hx => by simp at hx, .refl _, id⟩

/-- Only the members of the list matter. -/
theorem congr {ids' : List TupleId} (h : base.Makes s ids) (hids : ∀ x, x ∈ ids ↔ x ∈ ids') :
    base.Makes s ids' :=
  ⟨h.trade.congr (fun _ => Iff.rfl) hids, fun x hx => h.encloses x ((hids x).mpr hx), h.ages,
    h.young⟩

/-- What was made before is made again beside what is made next. -/
theorem andThen (h : base.Makes s ids) (hclosed : s.Closed ids)
    (hlive : ∀ x ∈ ids, ∃ t, s.tuple? x = some t) (hnext : s.Makes s' new) :
    base.Makes s' (ids ++ new) ∧ ∀ x ∈ ids, x ∉ new := by
  have hapart : ∀ x ∈ ids, x ∉ new := by
    intro x hx
    obtain ⟨t, ht⟩ := hlive x hx
    exact hnext.trade.not_mem_new ht (by simp)
  have hsame : ∀ x ∈ ids, s'.tuple? x = s.tuple? x := fun x hx =>
    hnext.trade.same x (by simp) (hapart x hx)
  have hkept := hclosed.encloses hsame hnext.trade.heap.retains h.encloses
  refine ⟨⟨h.trade.trans ((hnext.trade.frame ids).congr (by simp) fun _ => Iff.rfl), ?_,
    h.ages.trans hnext.ages, hnext.young ∘ h.young⟩, hapart⟩
  intro x hx
  exact (List.mem_append.mp hx).elim (hkept x) (hnext.encloses x)

end Makes

namespace Brings

/-- What comes about is sound. -/
theorem sound (h : base.Brings s cells) : s.Sound := h.choose_spec.2.trade.sound

/-- What comes about keeps all values. -/
theorem grows (h : base.Brings s cells) : base.heap.Grows s.heap := h.choose_spec.2.trade.heap

/-- Nothing is in flight at first. -/
protected theorem refl (hs : s.Sound) : s.Brings s 0 := ⟨[], .zero s, .refl hs⟩

/-- A cell without a tuple may join in. -/
theorem loose (h : base.Brings s cells) (hc : c.Loose s.heap) : base.Brings s (c ::ₘ cells) := by
  obtain ⟨ids, hheld, hmakes⟩ := h
  exact ⟨ids, hheld.loose hc, hmakes⟩

/-- A cell without a tuple may be forgotten. -/
theorem drop (h : base.Brings s (c ::ₘ cells)) (hc : c.Loose s.heap) : base.Brings s cells := by
  obtain ⟨ids, hheld, hmakes⟩ := h
  exact ⟨ids, hheld.drop hc, hmakes⟩

/-- What is in flight stays so while more is brought about. -/
protected theorem trans (h : base.Brings s cells) (hnext : s.Brings s' extra) :
    base.Brings s' (extra + cells) := by
  obtain ⟨ids, hheld, hmakes⟩ := h
  obtain ⟨new, hheld', hmakes'⟩ := hnext
  obtain ⟨hall, hapart⟩ := hmakes.andThen hheld.closed hheld.live hmakes'
  refine ⟨new ++ ids, hheld'.add (hheld.keeps hmakes'.trade (by simp)) ?_, ?_⟩
  · exact fun x hx hx' => hapart x hx' hx
  · exact hall.congr fun x => by simp [or_comm]

/-- New places in the heap bring nothing. -/
theorem grow (hs : s.Sound) {h : Heap} (hgrows : s.heap.Grows h) :
    s.Brings { s with heap := h } 0 := by
  refine ⟨[], .zero _, ?_, fun x hx => by simp at hx, .refl _, id⟩
  exact { Trade.refl hs [] with
    sound := ⟨hs.arena, hs.root_live⟩
    heap := hgrows }

/-- A cell without a tuple can be made. -/
theorem newCell (hs : s.Sound) (type : TypeDesc) {v : Value} (hv : v.tupleId? = none) :
    s.Brings { s with heap := (Cell.make s.heap type v).2 } {(Cell.make s.heap type v).1} :=
  (grow hs (Cell.grows_make s.heap type v)).loose (.inr ⟨v, Cell.stores_make s.heap type v, hv⟩)

end Brings

/-! ## Filling a tuple -/

/-- An empty tuple is moved in beside what is in flight. -/
theorem Brings.alloc (h : base.Brings s cells) (hempty : t.entries = []) :
    base.Builds (s.alloc t).2 (s.alloc t).1 cells := by
  obtain ⟨ids, hheld, hmakes⟩ := h
  have hs := hmakes.trade.sound
  obtain ⟨hfresh, hget⟩ := Arena.get?_alloc hs.arena t
  obtain ⟨r, hr⟩ := hs.root_live
  have hroot : (s.alloc t).1 ≠ s.root := by
    intro heq
    have hnone : s.tuple? s.root = none := heq ▸ hfresh
    simp [hnone] at hr
  have hnew : (s.alloc t).2.tuple? (s.alloc t).1 = some t := (hget _).trans (if_pos rfl)
  have hmade : s.Makes (s.alloc t).2 [(s.alloc t).1] := by
    refine ⟨?_, fun x hx u hu e he => ?_, .alloc _ _, .alloc⟩
    · exact
        { sound := ⟨hs.arena.alloc _, r, (hget s.root).trans ((if_neg hroot.symm).trans hr)⟩
          same := fun x _ hx => (hget x).trans (if_neg (List.mem_singleton.not.mp hx))
          gone := fun x hx => absurd hx (by simp)
          fresh := fun x hx _ => by
            rw [List.mem_singleton.mp hx]
            exact hfresh
          heap := .refl _
          root := rfl
          forms := rfl
          settings := rfl }
    · rw [List.mem_singleton.mp hx, hnew] at hu
      cases hu
      simp [hempty] at he
  obtain ⟨hall, hapart⟩ := hmakes.andThen hheld.closed hheld.live hmade
  refine ⟨t, ids, hnew, fun hid => hapart _ hid (by simp), hroot, ?_, hall.congr ?_⟩
  · simpa [Tuple.cells, hempty] using hheld.keeps hmade.trade (by simp)
  · exact fun x => by simp [or_comm]

namespace Builds

theorem sound (h : base.Builds s id cells) : s.Sound := by
  obtain ⟨t, ids, -, -, -, -, hmakes⟩ := h
  exact hmakes.trade.sound

/-- What is in flight and the tuple that is being filled stay so while more is brought about. -/
protected theorem trans (h : base.Builds s id cells) (hnext : s.Brings s' extra) :
    base.Builds s' id (extra + cells) := by
  obtain ⟨t, ids, ht, hid, hroot, hheld, hmakes⟩ := h
  obtain ⟨new, hheld', hmakes'⟩ := hnext
  have hlive : ∀ x ∈ id :: ids, ∃ t, s.tuple? x = some t := by
    intro x hx
    rcases List.mem_cons.mp hx with rfl | hx
    · exact ⟨t, ht⟩
    · exact hheld.live x hx
  obtain ⟨hall, hapart⟩ := hmakes.andThen (hheld.closed_cons ht) hlive hmakes'
  have hid' : id ∉ new := hapart id List.mem_cons_self
  refine ⟨t, new ++ ids, ?_, ?_, ?_, ?_, ?_⟩
  · rw [hmakes'.trade.same id (by simp) hid', ht]
  · simp [hid, hid']
  · rw [hmakes'.trade.root]
    exact hroot
  · rw [← add_assoc, add_comm (t.cells : Multiset Cell), add_assoc]
    refine hheld'.add (hheld.keeps hmakes'.trade (by simp)) fun x hx hx' => ?_
    exact hapart x (List.mem_cons_of_mem _ hx') hx
  · exact hall.congr fun x => by simp [or_comm]

end Builds

/-- The tuple in a held cell is held. -/
theorem Holds.mem_of_ownedTuple? (h : s.Holds cells ids) (hc : c ∈ cells)
    (hid : c.ownedTuple? s.heap = some id) : id ∈ ids := by
  obtain ⟨l, rfl, hown⟩ := h.owns
  exact hown.mem_of_ownedTuple? hc hid

/-- A tuple that a held cell owns is not owned by an attribute as well. -/
theorem Holds.not_owned (h : s.Holds (c ::ₘ cells) ids) (hid : c.ownedTuple? s.heap = some id)
    {x : TupleId} (hx : x ∈ ids) (ht : s.tuple? x = some t) {e : Attribute} (he : e ∈ t.entries) :
    e.cell.ownedTuple? s.heap ≠ some id := by
  intro hown
  rw [← Multiset.singleton_add] at h
  obtain ⟨i, j, hperm, hi, hj⟩ := h.split
  obtain ⟨i', hperm', howns⟩ := hi.owns_list (l := [c]) rfl
  have hnodup := (hperm.trans (hperm'.append_right j)).nodup_iff.mp h.nodup
  have hx := (hperm.trans (hperm'.append_right j)).mem_iff.mp hx
  -- `x` is in one of the disjoint parts of `ids`, and a closed part has with `x` what `x` owns
  have hmem : ∀ {part : List TupleId}, s.Closed part → x ∈ part → id ∈ part := fun hclosed hx =>
    (hclosed.ownedTuple?_eq hx ht he (.refl _) hown).2
  cases howns with
  | loose hloose _ => simp [hloose.ownedTuple?] at hid
  | @tuple _ _ id' u inner rest _ hv hu hinner hrest =>
    cases hrest
    have heq := hv.tupleId?_eq.symm.trans (Cell.tupleId?_of_ownedTuple? hid)
    cases heq
    rw [List.append_nil, List.cons_append, List.nodup_cons, List.mem_append, not_or] at hnodup
    rw [List.append_nil, List.cons_append, List.mem_cons, List.mem_append] at hx
    rcases hx with rfl | hx | hx
    · -- its own attributes own what is inside of it
      rw [hu] at ht
      cases ht
      exact hnodup.1.1 (hinner.mem_of_ownedTuple? (List.mem_map_of_mem he) hown)
    · exact hnodup.1.1 (hmem hinner.closed hx)
    · exact hnodup.1.2 (hmem hj.closed hx)

/-- Making a tuple the scope around another one lets no slot go back. -/
theorem ages_adoptOwned (s : Store) (parent : TupleId) (child : Option TupleId) :
    s.arena.Ages (s.adoptOwned parent child).arena := by
  cases child with
  | none => exact .refl _
  | some child =>
    simp only [adoptOwned, adopt]
    split
    · exact .put _ _ _
    · exact .refl _

/-- Making a tuple the scope around another one vacates no slot. -/
theorem young_adoptOwned {parent : TupleId} {child : Option TupleId} (h : s.arena.Young) :
    (s.adoptOwned parent child).arena.Young := by
  cases child with
  | none => exact h
  | some child =>
    simp only [adoptOwned, adopt]
    split
    · exact h.put
    · exact h

/-- The tuple that is adopted gets its new scope. -/
theorem parent_adoptOwned (ht : s.tuple? id = some t) {parent : TupleId} :
    (s.adoptOwned parent (some id)).tuple? id = some { t with parent := some parent } := by
  simp only [adoptOwned, adopt, ht]
  rw [tuple?_putTuple ht, if_pos rfl]

namespace Builds

/-- A cell in flight becomes an attribute of the tuple that is being filled. -/
theorem insert (h : base.Builds s id (c ::ₘ cells)) (ht : s.tuple? id = some t)
    {name : Option String} {pos : Nat} {t' : Tuple}
    (hinsert : t.insertInitial name c = .ok (pos, t')) :
    base.Builds ((s.putTuple id t').adoptOwned id (c.ownedTuple? s.heap)) id cells := by
  set s' := (s.putTuple id t').adoptOwned id (c.ownedTuple? s.heap) with hs'
  obtain ⟨t₀, ids, ht₀, hid, hroot, hheld, hmakes⟩ := h
  rw [ht] at ht₀
  cases ht₀
  have hs := hmakes.trade.sound
  obtain ⟨hheld', ht', htrade, horphan⟩ := holds_insertInitial hs ht hid hheld hinsert
  have hadopt := tuple?_adoptOwned (s.putTuple id t') id (c.ownedTuple? s.heap)
  have hput := tuple?_putTuple ht t'
  have hbut := ((hs.putTuple ht t').adoptOwned id (c.ownedTuple? s.heap)).2
  have hheap : s'.heap = s.heap := hbut.heap
  have hin : ∀ y, c.ownedTuple? s.heap = some y → y ∈ ids := fun y hy =>
    hheld.mem_of_ownedTuple? (by simp) hy
  -- the tuple that the cell owns gets its new scope, and no other does
  have hparent : ∀ y u, c.ownedTuple? s.heap = some y → s'.tuple? y = some u →
      u.parent = some id := by
    intro y u hy hu
    obtain ⟨w, hw⟩ := hheld.live y (hin y hy)
    have hne : y ≠ id := fun heq => hid (heq ▸ hin y hy)
    have hlive : (s.putTuple id t').tuple? y = some w := by rw [hput, if_neg hne, hw]
    rw [hs', hy, parent_adoptOwned hlive] at hu
    cases hu
    rfl
  have hother : ∀ y ∈ ids, c.ownedTuple? s.heap ≠ some y → s'.tuple? y = s.tuple? y := by
    intro y hy hne
    have hy' : y ≠ id := fun heq => hid (heq ▸ hy)
    rw [(hadopt y).2 hne, hput, if_neg hy']
  refine ⟨t', ids, ht', hid, ?_, hheld', hmakes.trade.trans htrade, ?_, ?_, ?_⟩
  · rw [htrade.root]
    exact hroot
  · intro x hx u hu e he y w hy hw
    rw [hheap] at hy
    rcases List.mem_cons.mp hx with rfl | hx
    · rw [ht'] at hu
      cases hu
      rw [Tuple.insertInitial_eq_ok hinsert] at he
      by_cases hc : c.ownedTuple? s.heap = some y
      · exact hparent y w hc hw
      · have he : e ∈ t.entries := by
          rcases List.mem_append.mp he with he | he
          · exact he
          · rw [List.mem_singleton.mp he] at hy
            exact absurd hy hc
        have hmem : y ∈ ids := by
          refine hheld.mem_of_ownedTuple? (Multiset.mem_add.mpr (.inl ?_)) hy
          exact List.mem_map_of_mem he
        exact hmakes.encloses x List.mem_cons_self t ht e he y w hy (hother y hmem hc ▸ hw)
    · -- its attributes are as they were, and what they own is not in flight
      have hsame := horphan x fun heq => hid (heq ▸ hx)
      rw [hu, Option.map_some, eq_comm, Option.map_eq_some_iff] at hsame
      obtain ⟨tx, htx, heq⟩ := hsame
      have he : e ∈ tx.entries := by
        rw [show tx.entries = u.entries from show tx.orphan.entries = u.orphan.entries by rw [heq]]
        exact he
      have hc : c.ownedTuple? s.heap ≠ some y := by
        intro hc
        rw [add_comm, Multiset.cons_add] at hheld
        exact hheld.not_owned hc hx htx he hy
      have hmem := (hheld.closed.ownedTuple?_eq hx htx he (.refl _) hy).2
      exact hmakes.encloses x (List.mem_cons_of_mem _ hx) tx htx e he y w hy (hother y hmem hc ▸ hw)
  · exact hmakes.ages.trans ((Arena.Ages.put s.arena id t').trans
      (ages_adoptOwned (s.putTuple id t') id _))
  · exact fun hyoung => young_adoptOwned (hmakes.young hyoung).put

/-- The tuple is in flight once there is a cell for it. -/
theorem newCell (h : base.Builds s id cells) (type : TypeDesc) :
    base.Brings { s with heap := (Cell.make s.heap type (.tuple id)).2 }
      ((Cell.make s.heap type (.tuple id)).1 ::ₘ cells) := by
  obtain ⟨t, ids, ht, hid, hroot, hheld, hmakes⟩ := h
  have hgrows := Cell.grows_make s.heap type (.tuple id)
  have hstores := Cell.stores_make s.heap type (.tuple id)
  obtain ⟨l, rfl⟩ := Quotient.exists_rep cells
  obtain ⟨ids', hperm, hown⟩ := hheld.owns_list (l := t.cells ++ l) rfl
  have hown : ({ s with heap := (Cell.make s.heap type (.tuple id)).2 } : Store).Owns
      (t.cells ++ l) ids' := hown.congr (fun _ _ => rfl) hgrows.retains
  -- what the attributes own is now inside of the cell, and the rest is beside it
  obtain ⟨inner, rest, rfl, hinner, hrest⟩ := hown.of_append
  refine ⟨id :: (inner ++ rest), ⟨⟨_ :: l, rfl, .tuple rfl hstores ht hinner hrest⟩, ?_, ?_⟩, ?_⟩
  · rw [List.nodup_cons, ← hperm.mem_iff, ← hperm.nodup_iff]
    exact ⟨hid, hheld.nodup⟩
  · rw [List.mem_cons, not_or, ← hperm.mem_iff]
    exact ⟨hroot.symm, hheld.root⟩
  · have hcongr : ∀ x, x ∈ id :: ids ↔ x ∈ id :: (inner ++ rest) := fun x => by simp [hperm.mem_iff]
    refine Makes.congr ⟨?_, ?_, hmakes.ages, hmakes.young⟩ hcongr
    · exact { hmakes.trade with
        sound := ⟨hmakes.trade.sound.arena, hmakes.trade.sound.root_live⟩
        heap := hmakes.trade.heap.trans hgrows }
    · exact (hheld.closed_cons ht).encloses (fun _ _ => rfl) hgrows.retains hmakes.encloses

/-- Filling a tuple takes the cells of its attributes. -/
theorem fill {entries : List (Option String × Cell)} {u : Unit}
    (h : base.Builds s id ((entries.map (·.2) : List Cell) + cells))
    (hrun : StoreM.fill id entries s = .ok u s') : base.Builds s' id cells := by
  induction entries generalizing s with
  | nil =>
    cases hrun
    simpa using h
  | cons entry rest ih =>
    obtain ⟨name, c⟩ := entry
    have hlive := h
    obtain ⟨t, -, ht, -⟩ := hlive
    rw [fill_cons ht] at hrun
    split at hrun
    · rename_i pos t' hinsert
      refine ih (insert ?_ ht hinsert) hrun
      rwa [List.map_cons, ← Multiset.cons_coe, Multiset.cons_add] at h
    · cases hrun

end Builds

/-! ## Building and copying -/

/-- A tuple is built from cells in flight. -/
theorem Brings.createFrom {entries : List (Option String × Cell)} {kind : TupleKind}
    {parent : Option TupleId} (h : base.Brings s ((entries.map (·.2) : List Cell) + cells))
    (hrun : StoreM.createFrom kind parent entries s = .ok id s') : base.Builds s' id cells := by
  simp only [StoreM.createFrom, StoreM.bind_eq_ok] at hrun
  obtain ⟨k, s₁, hcreate, u, s₂, hfill, hrun⟩ := hrun
  cases hcreate
  cases hrun
  exact (h.alloc rfl).fill hfill

section Copies

variable {copyTuple : TupleId → StoreM TupleId}
  (hcopy : ∀ {id k : TupleId} {s s' : Store}, s.Sound → copyTuple id s = .ok k s' → s.Builds s' k 0)

include hcopy

/-- A copy is in flight. -/
theorem brings_duplicateBy (hs : s.Sound) {c' : Cell}
    (hrun : StoreM.duplicateBy copyTuple c s = .ok c' s') : s.Brings s' {c'} := by
  cases hid : c.tupleId? s.heap with
  | none =>
    rw [StoreM.duplicateBy_of_none hid] at hrun
    cases hrun
    exact .newCell hs c.type hid
  | some id =>
    rw [StoreM.duplicateBy_of_some hid] at hrun
    obtain ⟨k, s₁, hk, hrun⟩ := StoreM.bind_eq_ok.mp hrun
    cases hrun
    exact (hcopy hs hk).newCell c.type

/-- Copies of cells, and cells that own nothing, become attributes of the copy. -/
theorem Builds.copyCells {entries : List (Option String × Cell)} {u : Unit}
    (h : base.Builds s id cells) (hrun : StoreM.copyCells copyTuple id entries s = .ok u s') :
    base.Builds s' id cells := by
  induction entries generalizing s with
  | nil =>
    cases hrun
    exact h
  | cons entry rest ih =>
    obtain ⟨name, c⟩ := entry
    -- however the cell was come by, it is appended in the same way
    have happend : ∀ {c' : Cell} {s₁ : Store}, base.Builds s₁ id (c' ::ₘ cells) →
        (do
          let child := c'.ownedTuple? (← get).heap
          try
            let _ ← StoreM.update id (·.insertInitial name c')
          catch e =>
            modify (·.release c')
            throw e
          modify (·.adoptOwned id child)
          StoreM.copyCells copyTuple id rest : StoreM Unit) s₁ = .ok u s' →
        base.Builds s' id cells := by
      intro c' s₁ h hrun
      simp only [StoreM.bind_eq_ok, StoreM.cleanup_eq_ok, StoreM.update_eq_ok] at hrun
      obtain ⟨_, _, hget, _, _, ⟨_, _, ⟨t, t', ht, hinsert, rfl⟩, hdone⟩, _, _, hadopt,
        hrest⟩ := hrun
      cases hget
      cases hdone
      cases hadopt
      exact ih (h.insert ht hinsert) hrest
    simp only [StoreM.copyCells] at hrun
    split at hrun
    · obtain ⟨c', s₁, hc', hrun⟩ := StoreM.bind_eq_ok.mp hrun
      exact happend (h.trans (brings_duplicateBy hcopy h.sound hc')) hrun
    · rename_i hborrowed
      obtain ⟨c', s₁, hc', hrun⟩ := StoreM.bind_eq_ok.mp hrun
      cases hc'
      have hloose : c.Loose s.heap := .inl (by simpa using hborrowed)
      exact happend (h.trans ((Brings.refl h.sound).loose hloose)) hrun

end Copies

/-- Fresh handles on attributes take places in the heap only. -/
theorem brings_reborrowAll {entries : List Attribute} {l : List (Option String × Cell)}
    (hs : s.Sound) (hrun : StoreM.reborrowAll entries s = .ok l s') : s.Brings s' 0 := by
  induction entries generalizing s l with
  | nil =>
    cases hrun
    exact .refl hs
  | cons entry rest ih =>
    simp only [StoreM.reborrowAll, StoreM.bind_eq_ok] at hrun
    obtain ⟨c, s₁, hc, l', s₂, hl', hrun⟩ := hrun
    cases hrun
    have hgrows : s.heap.Grows (Cell.reborrow s.heap entry.cell).2 := by
      unfold Cell.reborrow
      split
      · exact Cell.grows_make s.heap _ _
      · exact .refl _
    cases hc
    have hfirst := Brings.grow hs hgrows
    exact hfirst.trans (ih hfirst.sound hl')

/-- Copying a tuple builds a tuple. -/
theorem builds_duplicateTupleWithin {fuel : Nat} {k : TupleId} (hs : s.Sound)
    (hrun : StoreM.duplicateTupleWithin fuel id s = .ok k s') : s.Builds s' k 0 := by
  induction fuel generalizing id k s s' with
  | zero => cases hrun
  | succ fuel ih =>
    simp only [StoreM.duplicateTupleWithin, StoreM.bind_eq_ok, StoreM.cleanup_eq_ok] at hrun
    obtain ⟨t, s₁, ht, l, s₂, hl, k', s₃, hcreate, u, s₄, hcopy, hrun⟩ := hrun
    obtain ⟨-, rfl⟩ := StoreM.tuple_eq_ok.mp ht
    cases hcreate
    cases hrun
    exact ((brings_reborrowAll hs hl).alloc rfl).copyCells ih hcopy

/-- A copy of a cell is in flight, with all tuples that it owns. -/
theorem brings_duplicate (hs : s.Sound) {c' : Cell} (hrun : StoreM.duplicate c s = .ok c' s') :
    s.Brings s' {c'} := by
  refine brings_duplicateBy (fun hs hrun => ?_) hs hrun
  simp only [StoreM.duplicateTuple, StoreM.bind_eq_ok] at hrun
  obtain ⟨_, _, hget, hrun⟩ := hrun
  cases hget
  exact builds_duplicateTupleWithin hs hrun

end Store

end TupleLang
