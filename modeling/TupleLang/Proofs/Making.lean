import TupleLang.Proofs.Build
import TupleLang.Proofs.Containment
import TupleLang.Proofs.Generation
import TupleLang.Proofs.Regime
import TupleLang.Store.Copy

/-!
# Tuples in the making

A store is *orderly* when its arena is sound, containment is acyclic and attributes hold only tuples
that have been issued. A tuple is built, or copied, piece by piece, and nobody owns it before it is
complete. The regime `Store.making M` says of a store that it is orderly and that nobody owns the
tuples `M`; what is put into one of them is none of them, so that no circle is closed.

All this is said of young arenas only. Every step lets slots move on at most (`Store.Ages`), so that
an arena that is young in the end was young all the time.
-/

namespace TupleLang

namespace Cell

/-- The place of the cell is in use, and a tuple in it has been issued. -/
def Grounded (s : Store) (c : Cell) : Prop :=
  ∃ v, c.Stores s.heap v ∧ ∀ id, v.tupleId? = some id → s.arena.Issued id

end Cell

namespace Store

open Relation

/-- Slots only move on, values stay in their places, and the root scope is the same. -/
structure Ages (s s' : Store) : Prop where
  arena : s.arena.Ages s'.arena
  heap : s.heap.Grows s'.heap
  root : s'.root = s.root

/-- No tuple owns `z`. -/
def Unowned (s : Store) (z : TupleId) : Prop := ∀ x, ¬s.Owning x z

/-- The arena is sound, containment is acyclic, and attributes hold issued tuples only. -/
structure Orderly (s : Store) : Prop where
  sound : s.Sound
  acyclic : s.Acyclic
  grounded : ∀ x t, s.tuple? x = some t → ∀ e ∈ t.entries, e.cell.Grounded s

variable {s s' s'' : Store} {id x y z : TupleId} {t t' : Tuple} {c cell : Cell} {M : Set TupleId}
  {name : Option String}

/-! ## Growing older -/

namespace Ages

/-- A store is as old as itself. -/
protected theorem refl (s : Store) : s.Ages s := ⟨.refl _, .refl _, rfl⟩

/-- Growing older twice is growing older. -/
protected theorem trans (h : s.Ages s') (h' : s'.Ages s'') : s.Ages s'' :=
  ⟨h.arena.trans h'.arena, h.heap.trans h'.heap, h'.root.trans h.root⟩

/-- Changing a tuple vacates no slot. -/
theorem putTuple (s : Store) (id : TupleId) (t : Tuple) : s.Ages (s.putTuple id t) :=
  ⟨.put _ _ _, .refl _, rfl⟩

/-- Creating a tuple vacates no slot. -/
theorem createWith (s : Store) (kind : TupleKind) (permissions : Permissions)
    (parent : Option TupleId) : s.Ages (s.createWith kind permissions parent).2 :=
  ⟨.alloc _ _, .refl _, rfl⟩

/-- Adopting a tuple vacates no slot. -/
theorem adoptOwned (s : Store) (parent : TupleId) (child : Option TupleId) :
    s.Ages (s.adoptOwned parent child) := by
  cases child with
  | none => exact .refl s
  | some child =>
    simp only [Store.adoptOwned, adopt]
    split
    · exact putTuple s child _
    · exact .refl s

/-- Making a cell changes no slot. -/
theorem make (s : Store) (type : TypeDesc) (v : Value) :
    s.Ages { s with heap := (Cell.make s.heap type v).2 } :=
  ⟨.refl _, Cell.grows_make s.heap type v, rfl⟩

/-- A fold of steps that let a store grow older does so. -/
theorem foldl {β : Type} {f : Store → β → Store}
    (hf : ∀ (s : Store) b, s.Ages (f s b)) (bs : List β)
    (s : Store) : s.Ages (bs.foldl f s) := by
  induction bs generalizing s with
  | nil => exact .refl s
  | cons b bs ih => exact (hf s b).trans (ih (f s b))

/-- Destroying a tuple lets slots move on. -/
theorem destroyWithin (n : Nat) (s : Store) (id : TupleId) :
    s.Ages (Store.destroyWithin n s id) := by
  induction n generalizing s id with
  | zero => exact .refl s
  | succ n ih =>
    rcases destroyWithin_cases s id with hnot | ⟨hroot, t, ht⟩
    · rw [destroyWithin_of_not _ hnot]
      exact .refl s
    · rw [destroyWithin_succ n hroot ht]
      have hcell : ∀ (s : Store) c, s.Ages (releaseWithin n s c) := by
        intro s c
        unfold releaseWithin
        split
        · exact ih s _
        · exact .refl s
      have hreleased := (putTuple s id t.drain.2).trans (foldl hcell t.drain.1 _)
      exact hreleased.trans ⟨.vacate _ _, .refl _, rfl⟩

/-- Releasing a cell lets slots move on. -/
theorem release (s : Store) (c : Cell) : s.Ages (s.release c) := by
  unfold Store.release
  split
  · exact destroyWithin _ s _
  · exact .refl s

/-- Releasing cells lets slots move on. -/
theorem releaseAll (s : Store) (cells : List Cell) : s.Ages (s.releaseAll cells) :=
  foldl release cells s

/-- A cell that is grounded stays so. -/
theorem grounded (h : s.Ages s') (hc : c.Grounded s) : c.Grounded s' := by
  obtain ⟨v, hv, hissued⟩ := hc
  exact ⟨v, hv.grows h.heap, fun id hid => h.arena.issued (hissued id hid)⟩

/-- The value of a grounded cell does not change. -/
theorem ownedTuple?_eq (h : s.Ages s') (hc : c.Grounded s) :
    c.ownedTuple? s'.heap = c.ownedTuple? s.heap := by
  obtain ⟨v, hv, -⟩ := hc
  simp only [Cell.ownedTuple?, hv.tupleId?_eq, (hv.grows h.heap).tupleId?_eq]

end Ages

/-! ## Orderly stores -/

namespace Orderly

/-- A store that has lost attributes and grown older is still orderly. -/
theorem of_loses (h : s.Orderly) (hs : s'.Sound) (hloses : s.Loses s') (hages : s.Ages s') :
    s'.Orderly := by
  refine ⟨hs, hloses.acyclic h.acyclic, fun x t' ht' e he => ?_⟩
  obtain ⟨t, ht, hsub⟩ := hloses.tuples x t' ht'
  exact hages.grounded (h.grounded x t ht e (hsub he))

/-- An owned tuple has been issued. -/
theorem issued_of_owning (h : s.Orderly) (hown : s.Owning x y) : s.arena.Issued y := by
  obtain ⟨-, t, ht, e, he, hcell⟩ := hown
  obtain ⟨v, hv, hissued⟩ := h.grounded x t ht e he
  exact hissued y (hv.tupleId?_eq ▸ Cell.tupleId?_of_ownedTuple? hcell)

end Orderly

/-- What owns what after an attribute was appended to a tuple. -/
theorem owning_append (ht : s.tuple? id = some t)
    (hentries : t'.entries = t.entries ++ [⟨name, cell⟩]) (h : (s.putTuple id t').Owning x y) :
    s.Owning x y ∨ x = id ∧ cell.ownedTuple? s.heap = some y := by
  obtain ⟨hroot, u, hu, e, he, hown⟩ := h
  rw [tuple?_putTuple ht] at hu
  split at hu
  · rename_i hx
    cases hu
    rw [hentries, List.mem_append, List.mem_singleton] at he
    rcases he with he | rfl
    · exact .inl ⟨hroot, t, hx ▸ ht, e, he, hown⟩
    · exact .inr ⟨hx, hown⟩
  · exact .inl ⟨hroot, u, hu, e, he, hown⟩

/-- A grounded cell can be appended to a tuple. -/
theorem Orderly.grounded_append (h : s.Orderly) (ht : s.tuple? id = some t)
    (hentries : t'.entries = t.entries ++ [⟨name, cell⟩]) (hcell : cell.Grounded s) :
    ∀ x u, (s.putTuple id t').tuple? x = some u → ∀ e ∈ u.entries,
      e.cell.Grounded (s.putTuple id t') := by
  intro x u hu e he
  apply (Ages.putTuple s id t').grounded
  rw [tuple?_putTuple ht] at hu
  split at hu
  · cases hu
    rw [hentries, List.mem_append, List.mem_singleton] at he
    rcases he with he | rfl
    · exact h.grounded id t ht e he
    · exact hcell
  · exact h.grounded x u hu e he

/-- The parents of tuples do not matter to what owns what. -/
theorem loses_adoptOwned (s : Store) (parent : TupleId) (child : Option TupleId)
    (hs : s.Sound) : s.Loses (s.adoptOwned parent child) := by
  refine ⟨(hs.adoptOwned parent child).2, fun x t' ht' => ?_⟩
  have hsame := (tuple?_adoptOwned s parent child x).1
  rw [ht', Option.map_some, eq_comm, Option.map_eq_some_iff] at hsame
  obtain ⟨t, ht, horphan⟩ := hsame
  have hentries : t'.entries = t.entries := show t'.orphan.entries =
    t.orphan.entries by rw [horphan]
  exact ⟨t, ht, hentries ▸ List.Subset.refl _⟩

/-! ## Tuples in the making -/

/-- The store is orderly and nobody owns the tuples `M`, unless the generations of some slot have
begun anew. -/
def making (M : Set TupleId) : Regime Store where
  World := Store
  Later := Ages
  refl := .refl
  trans := .trans
  Holds w s := w = s ∧ (s.arena.Young → s.Orderly ∧ ∀ z ∈ M, s.arena.Issued z ∧ s.Unowned z)

/-- The cell is grounded, unless the generations of some slot have begun anew. -/
def Firm (s : Store) (c : Cell) : Prop := s.arena.Young → c.Grounded s

/-- The cell may be put into one of the tuples `M`. -/
def Fits (M : Set TupleId) (s : Store) (c : Cell) : Prop :=
  s.arena.Young → c.Grounded s ∧ ∀ y, c.ownedTuple? s.heap = some y → y ∉ M

/-- A firm cell stays firm. -/
theorem Firm.ages (h : Firm s c) (hages : s.Ages s') : Firm s' c :=
  fun hyoung => hages.grounded (h (hages.arena.young hyoung))

/-- What fits goes on fitting. -/
theorem Fits.ages (h : Fits M s c) (hages : s.Ages s') : Fits M s' c := by
  intro hyoung
  obtain ⟨hgrounded, hnot⟩ := h (hages.arena.young hyoung)
  exact ⟨hages.grounded hgrounded, fun y hy => hnot y (hages.ownedTuple?_eq hgrounded ▸ hy)⟩

/-- A step that keeps a store orderly and makes nobody the owner of a tuple in the making. -/
theorem holds_making_of (hages : s.Ages s') (h : (making M).Holds s s)
    (hstep : s.Orderly → (∀ z ∈ M, s.arena.Issued z ∧ s.Unowned z) → s.arena.Young →
      s'.Orderly ∧ ∀ z ∈ M, s'.Unowned z) :
    (making M).Holds s' s' := by
  refine ⟨rfl, fun hyoung => ?_⟩
  have hyoung' := hages.arena.young hyoung
  obtain ⟨horderly, hM⟩ := h.2 hyoung'
  obtain ⟨horderly', hM'⟩ := hstep horderly hM hyoung'
  exact ⟨horderly', fun z hz => ⟨hages.arena.issued (hM z hz).1, hM' z hz⟩⟩

/-- Attributes may be lost at any time. -/
theorem moves_of_loses {f : Store → Store} (hages : ∀ s : Store, s.Ages (f s))
    (hstep : ∀ s : Store, s.Orderly → (f s).Sound ∧ s.Loses (f s)) (w : Store) :
    (making M).Moves w f := by
  rintro v - s ⟨rfl, hs⟩
  refine ⟨f v, hages v, holds_making_of (hages v) ⟨rfl, hs⟩ fun horderly hM _ => ?_⟩
  obtain ⟨hs', hloses⟩ := hstep v horderly
  exact ⟨horderly.of_loses hs' hloses (hages v),
    fun z hz x hx => (hM z hz).2 x (hloses.owning x z hx)⟩

/-- Destroying any tuple keeps the store orderly and the tuples in the making unowned. -/
theorem moves_destroy (id : TupleId) (w : Store) : (making M).Moves w (·.destroy id) := by
  refine moves_of_loses (fun s => Ages.destroyWithin _ s id) (fun s hs => ?_) w
  have hculled := hs.acyclic.culled_destroy hs.sound id
  exact ⟨hculled.sound, hculled.loses⟩

/-- So does releasing a cell. -/
theorem moves_release (c : Cell) (w : Store) : (making M).Moves w (·.release c) := by
  refine moves_of_loses (fun s => Ages.release s c) (fun s hs => ?_) w
  have hculled := hs.acyclic.culled_release hs.sound c
  exact ⟨hculled.sound, hculled.loses⟩

/-- So does releasing cells. -/
theorem moves_releaseAll (cells : List Cell) (w : Store) :
    (making M).Moves w (·.releaseAll cells) := by
  refine moves_of_loses (fun s => Ages.releaseAll s cells) (fun s hs => ?_) w
  have hculled := hs.acyclic.culled_releaseAll hs.sound cells
  exact ⟨hculled.sound, hculled.loses⟩

/-- So does adopting a tuple. -/
theorem moves_adoptOwned (parent : TupleId) (child : Option TupleId) (w : Store) :
    (making M).Moves w (·.adoptOwned parent child) := by
  refine moves_of_loses (fun s => Ages.adoptOwned s parent child) (fun s hs => ?_) w
  exact ⟨(hs.sound.adoptOwned parent child).1, loses_adoptOwned s parent child hs.sound⟩

/-- One more value in the heap changes nothing: all others are in their old places. -/
theorem holds_make (h : (making M).Holds s s) (type : TypeDesc) (value : Value) :
    let s' : Store := { s with heap := (Cell.make s.heap type value).2 }
    (making M).Holds s' s' := by
  intro s'
  have hages : s.Ages s' := .make s type value
  refine ⟨rfl, fun hyoung => ?_⟩
  obtain ⟨horderly, hM⟩ := h.2 hyoung
  have howning : s'.Owning ≤ s.Owning := by
    rintro x y ⟨hroot, t, ht, e, he, hown⟩
    rw [hages.ownedTuple?_eq (horderly.grounded x t ht e he)] at hown
    exact ⟨hroot, t, ht, e, he, hown⟩
  refine ⟨⟨⟨horderly.sound.arena, horderly.sound.root_live⟩, fun x hx => ?_, ?_⟩, fun z hz => ?_⟩
  · exact horderly.acyclic x (TransGen.mono howning x x hx)
  · exact fun x t ht e he => hages.grounded (horderly.grounded x t ht e he)
  · exact ⟨(hM z hz).1, fun x hx => (hM z hz).2 x (howning x z hx)⟩

/-- A new cell is firm if the tuple in it has been issued. -/
theorem firm_make (type : TypeDesc) {v : Value}
    (hv : s.arena.Young → ∀ y, v.tupleId? = some y → s.arena.Issued y) :
    Firm { s with heap := (Cell.make s.heap type v).2 } (Cell.make s.heap type v).1 :=
  fun hyoung => ⟨v, Cell.stores_make s.heap type v, hv hyoung⟩

/-- A new cell fits if the tuple in it has been issued and is not in the making. -/
theorem leads_newCell {v : Store} (h : (making M).Holds v s) (type : TypeDesc) {value : Value}
    (hvalue : s.arena.Young → ∀ y, value.tupleId? = some y → s.arena.Issued y ∧ y ∉ M) :
    (making M).Leads v s (StoreM.newCell type value) (Fits M) fun _ => True := by
  obtain ⟨rfl, hs⟩ := h
  have hstores := Cell.stores_make v.heap type value
  refine ⟨_, .make v type value, holds_make ⟨rfl, hs⟩ type value, fun hyoung =>
    ⟨?_, fun y hy => ?_⟩⟩
  · exact firm_make type (fun hyoung y hy => (hvalue hyoung y hy).1) hyoung
  · exact (hvalue hyoung y (hstores.tupleId?_eq ▸ Cell.tupleId?_of_ownedTuple? hy)).2

/-- A new cell whose tuple was issued before it was made. -/
theorem keeps_newCell {w : Store} (type : TypeDesc) {value : Value}
    (hissued : ∀ y, value.tupleId? = some y → w.arena.Issued y)
    (hM : ∀ y, value.tupleId? = some y → y ∉ M) :
    (making M).Keeps w (StoreM.newCell type value) (Fits M) fun _ => True := by
  intro v hv s hs
  refine leads_newCell hs type fun _ y hy => ⟨?_, hM y hy⟩
  obtain ⟨rfl, -⟩ := hs
  exact hv.arena.issued (hissued y hy)

/-- A cell that fits can be appended to a tuple in the making. -/
theorem keeps_insertInitial {w : Store} (hid : id ∈ M) (hcell : Fits M w cell)
    (name : Option String) :
    (making M).Keeps w (StoreM.update id (·.insertInitial name cell)) (fun _ _ => True)
      fun _ => True := by
  intro v hv s h
  refine .update h (fun t pos t' ht hinsert => ?_) trivial fun _ _ _ => trivial
  replace hcell := hcell.ages hv
  obtain ⟨rfl, hs⟩ := h
  have hages := Ages.putTuple v id t'
  refine ⟨_, hages, holds_making_of hages ⟨rfl, hs⟩ fun horderly hM hyoung => ?_, trivial⟩
  have hentries : t'.entries = t.entries ++ [⟨name, cell⟩] := by
    rw [Tuple.insertInitial_eq_ok hinsert]
  obtain ⟨hgrounded, hnot⟩ := hcell hyoung
  have hedge : ∀ x y, (v.putTuple id t').Owning x y → y ∉ M ∧ (v.Owning x y ∨ x = id) := by
    intro x y hown
    rcases owning_append ht hentries hown with hold | ⟨rfl, hnew⟩
    · exact ⟨fun hy => (hM y hy).2 x hold, .inl hold⟩
    · exact ⟨hnot y hnew, .inr rfl⟩
  have hacyclic : (v.putTuple id t').Acyclic := by
    refine horderly.acyclic.of_source fun x y hown => ⟨?_, (hedge x y hown).2⟩
    rintro rfl
    exact (hedge x y hown).1 hid
  exact ⟨⟨horderly.sound.putTuple ht t', hacyclic, horderly.grounded_append ht hentries hgrounded⟩,
    fun z hz x hx => (hedge x z hx).1 hz⟩

/-- A new tuple is in the making. -/
theorem holds_alloc {v : Store} (h : (making M).Holds v s) {new : Tuple}
    (hempty : new.entries = []) :
    (making (insert (s.alloc new).1 M)).Holds (s.alloc new).2 (s.alloc new).2 ∧
      (s.arena.Young → ¬s.arena.Issued (s.alloc new).1 ∧
        (s.alloc new).2.arena.Issued (s.alloc new).1) := by
  obtain ⟨rfl, hs⟩ := h
  have hages : v.Ages (v.alloc new).2 := ⟨.alloc _ _, .refl _, rfl⟩
  have hissued : v.arena.Young → ¬v.arena.Issued (v.alloc new).1 ∧
      (v.alloc new).2.arena.Issued (v.alloc new).1 := by
    intro hyoung
    obtain ⟨horderly, -⟩ := hs hyoung
    exact ⟨Arena.not_issued_alloc horderly.sound.arena hyoung new,
      (Arena.issued_alloc_iff horderly.sound.arena new).mpr (.inr rfl)⟩
  refine ⟨⟨rfl, fun hyoung => ?_⟩, hissued⟩
  have hyoung' := hages.arena.young hyoung
  obtain ⟨horderly, hM⟩ := hs hyoung'
  obtain ⟨hfresh, hmade⟩ := hissued hyoung'
  obtain ⟨hnone, hget⟩ := Arena.get?_alloc horderly.sound.arena new
  -- the new tuple is empty, so what is owned afterwards was owned before
  have htuple : ∀ x t e, (v.alloc new).2.tuple? x = some t → e ∈ t.entries →
    v.tuple? x = some t := by
    intro x t e ht he
    rw [show (v.alloc new).2.tuple? x = _ from hget x] at ht
    split at ht
    · cases ht
      simp [hempty] at he
    · exact ht
  have howning : (v.alloc new).2.Owning ≤ v.Owning := by
    rintro x y ⟨hroot, t, ht, e, he, hown⟩
    exact ⟨hroot, t, htuple x t e ht he, e, he, hown⟩
  refine ⟨⟨⟨horderly.sound.arena.alloc new, ?_⟩, fun x hx => ?_, fun x t ht e he => ?_⟩, ?_⟩
  · obtain ⟨r, hr⟩ := horderly.sound.root_live
    refine ⟨r, (hget v.root).trans (Eq.trans (if_neg ?_) hr)⟩
    intro heq
    exact hfresh (heq ▸ Arena.issued_of_live hr)
  · exact horderly.acyclic x (TransGen.mono howning x x hx)
  · exact hages.grounded (horderly.grounded x t (htuple x t e ht he) e he)
  · -- the new tuple is among those in the making, and nothing owns it yet
    rintro z (rfl | hz)
    · exact ⟨hmade, fun x hx => hfresh (horderly.issued_of_owning (howning x _ hx))⟩
    · exact ⟨hages.arena.issued (hM z hz).1, fun x hx => (hM z hz).2 x (howning x z hx)⟩

/-- What is known while a tuple is in the making is known afterwards. -/
theorem leads_of_insert {α : Type} {v : Store} {m : StoreM α} {Q : Store → α → Prop}
    {E : Error → Prop} (h : (making (insert id M)).Leads v s m Q E) :
    (making M).Leads v s m Q E := by
  have hforget : ∀ {v s : Store}, (making (insert id M)).Holds v s → (making M).Holds v s :=
    fun h => ⟨h.1, fun hyoung => ⟨(h.2 hyoung).1, fun z hz => (h.2 hyoung).2 z (.inr hz)⟩⟩
  unfold Regime.Leads at *
  split
  · rename_i hrun
    simp only [hrun] at h
    obtain ⟨v', hlater, hholds, ha⟩ := h
    exact ⟨v', hlater, hforget hholds, ha⟩
  · rename_i hrun
    simp only [hrun] at h
    obtain ⟨he, v', hlater, hholds⟩ := h
    exact ⟨he, v', hlater, hforget hholds⟩

/-- Create a tuple and go on with it in the making; it has not been issued before. -/
theorem keeps_createWith {α : Type} {w : Store} {kind : TupleKind} {permissions : Permissions}
    {parent : Option TupleId} {f : TupleId → StoreM α} {Q : Store → α → Prop} {E : Error → Prop}
    (hf : ∀ v k u, w.Ages v → v.Ages u →
      (u.arena.Young → k ∉ M ∧ ¬v.arena.Issued k ∧ u.arena.Issued k) →
        (making (insert k M)).Keeps u (f k) Q E) :
    (making M).Keeps w (StoreM.change (·.createWith kind permissions parent) >>= f) Q E := by
  intro v hv s hs
  let new : Tuple := { kind, permissions := kind.fixedPermissions?.getD permissions, parent }
  obtain ⟨hmade, hissued⟩ := holds_alloc hs (show new.entries = [] from rfl)
  have hages := Ages.createWith s kind permissions parent
  obtain ⟨rfl, hs⟩ := hs
  change (making M).Leads v (createWith v kind permissions parent).2
    (f (createWith v kind permissions parent).1) Q E
  refine @leads_of_insert _ (createWith v kind permissions parent).1 _ _ _ _ _ _
    (.of_later hages ?_)
  refine hf v _ _ hv hages (fun hyoung => ?_) _ (.refl _) _ hmade
  have hyoung' := hages.arena.young hyoung
  obtain ⟨hfresh, hnew⟩ := hissued hyoung'
  exact ⟨fun hk => hfresh ((hs hyoung').2 _ hk).1, hfresh, hnew⟩

/-! ## Filling and copying -/

/-- A tuple in the making is filled with cells that fit. -/
theorem keeps_fill (hid : id ∈ M) (entries : List (Option String × Cell)) (w : Store)
    (hentries : ∀ p ∈ entries, Fits M w p.2) :
    (making M).Keeps w (StoreM.fill id entries) (fun _ _ => True) fun _ => True := by
  induction entries generalizing w with
  | nil => exact .pure fun _ _ => trivial
  | cons entry rest ih =>
    obtain ⟨name, cell⟩ := entry
    unfold StoreM.fill
    refine .get_bind fun v hv s _ => .andThen (.cleanup ?_ ?_) fun _ u hu =>
      .andThen ?_ fun _ u' hu' => ?_
    · exact .andThen (keeps_insertInitial hid ((hentries _ List.mem_cons_self).ages hv) name)
        fun _ _ _ => .pure fun _ _ => trivial
    · exact ((moves_release cell v).comp (moves_releaseAll _ v)).comp (moves_destroy id v)
    · exact .modify (moves_adoptOwned id _ u)
    · exact ih u' fun p hp =>
        (hentries p (List.mem_cons_of_mem _ hp)).ages ((hv.trans hu).trans hu')

/-- Building a tuple from cells that fit keeps a store orderly. -/
theorem keeps_createFrom (kind : TupleKind) (parent : Option TupleId)
    (entries : List (Option String × Cell)) (w : Store) (hentries : ∀ p ∈ entries, Fits M w p.2) :
    (making M).Keeps w (StoreM.createFrom kind parent entries) (fun _ _ => True) fun _ => True := by
  refine keeps_createWith fun v k u hv hu hk => ?_
  refine .andThen (keeps_fill (.inl rfl) entries u fun p hp hyoung => ?_) fun _ _ _ =>
    .pure fun _ _ => trivial
  -- the new tuple was not there yet when the cells were made
  have hyoung' := hu.arena.young hyoung
  obtain ⟨hgrounded, hnot⟩ := (hentries p hp).ages hv hyoung'
  obtain ⟨value, hvalue, hissued⟩ := id hgrounded
  refine ⟨hu.grounded hgrounded, fun y hy => ?_⟩
  rw [hu.ownedTuple?_eq hgrounded] at hy
  rintro (rfl | hM)
  · exact (hk hyoung).2.1 (hissued y (hvalue.tupleId?_eq ▸ Cell.tupleId?_of_ownedTuple? hy))
  · exact hnot y hy hM

/-- The copy of a cell fits if the copies of tuples do. -/
theorem keeps_duplicateBy {copyTuple : TupleId → StoreM TupleId}
    (hcopy : ∀ id w, (making M).Keeps w (copyTuple id)
      (fun v k => v.arena.Young → v.arena.Issued k ∧ k ∉ M) fun _ => True)
    (w : Store) :
    (making M).Keeps w (StoreM.duplicateBy copyTuple cell) (Fits M) fun _ => True := by
  intro v hv s hs
  cases hid : cell.tupleId? s.heap with
  | none =>
    refine .congr (StoreM.duplicateBy_of_none hid) ?_
    refine leads_newCell hs cell.type fun _ y (hy : cell.tupleId? s.heap = some y) => ?_
    rw [hid] at hy
    cases hy
  | some id =>
    refine .congr (StoreM.duplicateBy_of_some hid) ?_
    refine (hcopy id v v (.refl v) s hs).bind fun k u _ hk s' hs' => ?_
    refine leads_newCell hs' cell.type fun hyoung y hy => ?_
    cases hy
    obtain ⟨rfl, -⟩ := hs'
    exact hk hyoung

/-- Copies of cells are appended to a tuple in the making. -/
theorem keeps_copyCells {copyTuple : TupleId → StoreM TupleId}
    (hcopy : ∀ id w, (making M).Keeps w (copyTuple id)
      (fun v k => v.arena.Young → v.arena.Issued k ∧ k ∉ M) fun _ => True)
    (hid : id ∈ M) (cells : List (Option String × Cell)) (w : Store)
    (hcells : ∀ p ∈ cells, Firm w p.2) :
    (making M).Keeps w (StoreM.copyCells copyTuple id cells) (fun _ _ => True) fun _ => True := by
  induction cells generalizing w with
  | nil => exact .pure fun _ _ => trivial
  | cons entry rest ih =>
    obtain ⟨name, cell⟩ := entry
    unfold StoreM.copyCells
    -- however the cell was come by, the rest is the same
    have happend : ∀ (cell' : Cell) v, w.Ages v → Fits M v cell' → (making M).Keeps v
        (do
          let child := cell'.ownedTuple? (← get).heap
          try
            let _ ← StoreM.update id (·.insertInitial name cell')
          catch e =>
            modify (·.release cell')
            throw e
          modify (·.adoptOwned id child)
          StoreM.copyCells copyTuple id rest) (fun _ _ => True) fun _ => True := by
      intro cell' v hv hcell'
      refine .get_bind fun u hu s _ =>
        .andThen (.cleanup ?_ (moves_release cell' u)) fun _ u' hu' =>
        .andThen (.modify (moves_adoptOwned id _ u')) fun _ u'' hu'' => ih u'' fun p hp => ?_
      · exact .andThen (keeps_insertInitial hid (hcell'.ages hu) name) fun _ _ _ =>
          .pure fun _ _ => trivial
      · exact (hcells p (List.mem_cons_of_mem _ hp)).ages (((hv.trans hu).trans hu').trans hu'')
    dsimp only
    refine .ite (fun _ => ?_) fun hborrowed => ?_
    · exact .bind (keeps_duplicateBy hcopy w) happend
    · have hfits : (making M).Keeps w (pure cell : StoreM Cell) (Fits M) fun _ => True := by
        refine .pure fun v hv hyoung =>
          ⟨(hcells _ List.mem_cons_self).ages hv hyoung, fun y hy => ?_⟩
        simp [Cell.ownedTuple?, hborrowed] at hy
      exact .bind hfits happend

/-- Fresh handles on firm cells are firm. -/
theorem keeps_reborrowAll (entries : List Attribute) (w : Store)
    (hentries : ∀ e ∈ entries, Firm w e.cell) :
    (making M).Keeps w (StoreM.reborrowAll entries) (fun v cells => ∀ p ∈ cells, Firm v p.2)
      fun _ => True := by
  induction entries generalizing w with
  | nil => exact .pure fun _ _ p hp => by simp at hp
  | cons entry rest ih =>
    unfold StoreM.reborrowAll
    have hcell := hentries entry List.mem_cons_self
    have hreborrow : (making M).Keeps w (StoreM.onHeap (Cell.reborrow · entry.cell)) Firm
        fun _ => True := by
      rintro v hv s ⟨rfl, hs⟩
      refine .onHeap ?_
      have hfirm := hcell.ages hv
      unfold Cell.reborrow
      split
      · refine ⟨_, .make v _ _, holds_make ⟨rfl, hs⟩ _ _, firm_make _ fun hyoung y hy => ?_⟩
        obtain ⟨value, hstores, hissued⟩ := hfirm hyoung
        exact hissued y (hstores.value_eq ▸ hy)
      · exact ⟨v, .refl v, ⟨rfl, hs⟩, hfirm⟩
    refine .bind hreborrow fun cell v hv hcell => .bind (ih v ?_) fun cells u hu hcells => .pure ?_
    · exact fun e he => (hentries e (List.mem_cons_of_mem _ he)).ages hv
    · intro u' hu' p hp
      rcases List.mem_cons.mp hp with rfl | hp
      · exact hcell.ages (hu.trans hu')
      · exact (hcells p hp).ages hu'

/-- Copies of tuples have been issued, and are none of those in the making. -/
theorem keeps_duplicateTupleWithin (fuel : Nat) (M : Set TupleId) (id : TupleId) (w : Store) :
    (making M).Keeps w (StoreM.duplicateTupleWithin fuel id)
      (fun v k => v.arena.Young → v.arena.Issued k ∧ k ∉ M) fun _ => True := by
  induction fuel generalizing M id w with
  | zero => exact .get_bind fun _ _ _ _ => .get_bind fun _ _ _ _ => .throw trivial
  | succ fuel ih =>
    unfold StoreM.duplicateTupleWithin
    have htuple : (making M).Keeps w (StoreM.tuple id)
        (fun v t => ∀ e ∈ t.entries, Firm v e.cell) fun _ => True := by
      refine .get_bind fun v hv s hs => .ofExcept (fun t ht u hu e he => ?_) fun _ _ => trivial
      obtain ⟨rfl, hs⟩ := hs
      have ht : v.tuple? id = some t := by
        unfold Store.tuple at ht
        split at ht
        · cases ht
          assumption
        · cases ht
      exact Firm.ages (fun hyoung => (hs hyoung).1.grounded id t ht e he) hu
    refine .bind htuple fun t v hv ht =>
      .bind (keeps_reborrowAll t.entries v ht) fun cells u hu hcells => ?_
    refine keeps_createWith fun u' k u'' hu' hu'' hk =>
      .andThen (.cleanup ?_ (moves_destroy k u'')) ?_
    · exact keeps_copyCells (fun id w => ih (insert k M) id w) (.inl rfl) cells u''
        fun p hp => (hcells p hp).ages (hu'.trans hu'')
    · refine fun _ v' hv' => .pure fun v'' hv'' hyoung => ?_
      have hages := hv'.trans hv''
      obtain ⟨hnot, -, hissued⟩ := hk (hages.arena.young hyoung)
      exact ⟨hages.arena.issued hissued, hnot⟩

/-- Copying a cell keeps a store orderly. -/
theorem keeps_duplicate (w : Store) :
    (making M).Keeps w (StoreM.duplicate cell) (fun _ _ => True) fun _ => True := by
  refine Regime.Keeps.weaken (keeps_duplicateBy (fun id w => ?_) w) fun _ _ _ _ => trivial
  exact .get_bind fun v _ s _ => keeps_duplicateTupleWithin _ M id v

end Store

end TupleLang
