import TupleLang.Proofs.Building
import TupleLang.Proofs.Destroy
import TupleLang.Proofs.Slots

/-!
# What holds of every tuple

`Arena.Every P` says that every tuple of an arena has a property, under whatever id it can be
reached. Moving tuples in, changing and destroying them keeps it if the single tuples keep the
property; it does not matter what is on the free list.

A property of single tuples is *sturdy* if empty tuples have it and appending, taking away and
adopting keeps it. Building and copying tuples keeps a sturdy property everywhere (`everywhere`).
The types and actions that are registered in a tuple are its *registry*; a property of registries
which an empty one has is sturdy.
-/

namespace TupleLang

namespace Arena

/-- Every tuple has the property. -/
def Every (P : Tuple → Prop) (a : Arena) : Prop :=
  ∀ (i n : Nat) (t : Tuple), a.slots[i]? = some ⟨n, some t⟩ → P t

variable {P Q : Tuple → Prop} {a : Arena} {id : TupleId} {t : Tuple}

namespace Every

/-- What is weaker holds of all tuples as well. -/
theorem mono (h : a.Every P) (hPQ : ∀ t, P t → Q t) : a.Every Q :=
  fun i n t ht => hPQ t (h i n t ht)

/-- What holds of all tuples holds of each of them. -/
theorem of_get? (h : a.Every P) (ht : a.get? id = some t) : P t := by
  obtain ⟨n, hslot, -⟩ := get?_eq_some_iff.mp ht
  exact h _ n t hslot

/-- A tuple may be changed into another one of which it holds. -/
theorem put (h : a.Every P) (ht : P t) : (a.put id t).Every P := by
  intro i n u hu
  rcases slots_put hu with ⟨-, rfl⟩ | hu
  · exact ht
  · exact h i n u hu

/-- A tuple of which it holds may be moved in. -/
theorem alloc (h : a.Every P) (ht : P t) : (a.alloc t).2.Every P := by
  intro i n u hu
  rcases slots_alloc hu with ⟨-, rfl⟩ | hu
  · exact ht
  · exact h i n u hu

/-- Any tuple may go. -/
theorem vacate (h : a.Every P) (i : Nat) : (a.vacate i).Every P :=
  fun j n u hu => h j n u (slots_vacate hu)

end Every

end Arena

namespace Store

variable {P : Tuple → Prop} {s : Store} {id : TupleId}

/-- Tuples that are destroyed are emptied first, and nothing else happens to tuples. -/
theorem every_destroyWithin (hdrain : ∀ t, P t → P t.drain.2) (n : Nat) (h : s.arena.Every P) :
    (destroyWithin n s id).arena.Every P := by
  induction n generalizing s id with
  | zero => exact h
  | succ n ih =>
    rcases destroyWithin_cases s id with hnot | ⟨hroot, t, ht⟩
    · rwa [destroyWithin_of_not _ hnot]
    · rw [destroyWithin_succ n hroot ht]
      have hcells : ∀ (cells : List Cell) (s : Store), s.arena.Every P →
          (cells.foldl (releaseWithin n) s).arena.Every P := by
        intro cells
        induction cells with
        | nil => exact fun s h => h
        | cons c cells ihcells =>
          intro s h
          rw [List.foldl_cons]
          refine ihcells _ ?_
          unfold releaseWithin
          split
          · exact ih h
          · exact h
      refine Arena.Every.vacate (hcells t.drain.1 (s.putTuple id t.drain.2) ?_) id.index
      exact h.put (hdrain t (h.of_get? ht))

/-- Destroying a tuple keeps what holds of all tuples if emptying does. -/
theorem every_destroy (hdrain : ∀ t, P t → P t.drain.2) (h : s.arena.Every P) :
    (s.destroy id).arena.Every P := every_destroyWithin hdrain _ h

/-- A new scope keeps what holds of all tuples if it does not depend on scopes. -/
theorem every_adopt (hadopt : ∀ t parent, P t → P { t with parent }) (h : s.arena.Every P)
    (parent child : TupleId) : (s.adopt parent child).arena.Every P := by
  unfold adopt
  split
  · rename_i t ht
    exact h.put (hadopt t _ (h.of_get? ht))
  · exact h

end Store

/-! ## Properties of single tuples -/

/-- Empty tuples have the property, and building and taking apart a tuple keeps it. -/
structure Tuple.Sturdy (P : Tuple → Prop) : Prop where
  empty : ∀ {t}, t.entries = [] → t.types = [] → t.actions = [] → t.byName = [] → P t
  insert : ∀ {t t' name cell pos}, P t → t.insertInitial name cell = .ok (pos, t') → P t'
  take : ∀ {t t' key cell}, P t → t.take key = .ok (cell, t') → P t'
  adopt : ∀ {t} parent, P t → P { t with parent }

/-- The tuples have the same types and actions registered. -/
def Tuple.SameRegistry (t t' : Tuple) : Prop :=
  t'.types = t.types ∧ t'.actions = t.actions ∧ t'.byName = t.byName

/-- The property is one of registries, and an empty one has it. -/
structure Tuple.OfRegistry (P : Tuple → Prop) : Prop where
  congr : ∀ {t t'}, t.SameRegistry t' → P t → P t'
  empty : ∀ {t}, t.types = [] → t.actions = [] → t.byName = [] → P t

/-- Attributes come and go without regard to registries. -/
theorem Tuple.OfRegistry.sturdy {P : Tuple → Prop} (hP : OfRegistry P) : Sturdy P where
  empty _ := hP.empty
  insert := by
    intro t t' name cell pos ht hinsert
    rw [insertInitial_eq_ok hinsert]
    exact hP.congr (t := t) ⟨rfl, rfl, rfl⟩ ht
  take := by
    intro t t' key cell ht htake
    obtain ⟨pos, htake⟩ := take_eq_ok htake
    rw [htake]
    exact hP.congr (t := t) ⟨rfl, rfl, rfl⟩ ht
  adopt {t} parent ht := hP.congr (t := t) ⟨rfl, rfl, rfl⟩ ht

namespace Store

variable {P : Tuple → Prop} {w : Unit}

/-- Stores in which every tuple has the property. -/
def everywhere (P : Tuple → Prop) : Regime Store where
  World := Unit
  Later _ _ := True
  refl _ := trivial
  trans _ _ := trivial
  Holds _ s := s.arena.Every P

/-- A change of the store that keeps what holds of all tuples. -/
theorem moves_everywhere {f : Store → Store}
    (hf : ∀ s, s.arena.Every P → (f s).arena.Every P) : (everywhere P).Moves w f :=
  fun v _ s hs => ⟨v, trivial, hf s hs⟩

/-- Changing a tuple so that it keeps the property. -/
theorem keeps_update_everywhere {α : Type} {f : Tuple → Except Error (α × Tuple)}
    (hf : ∀ t a t', P t → f t = .ok (a, t') → P t') (id : TupleId) :
    (everywhere P).Keeps w (StoreM.update id f) (fun _ _ => True) fun _ => True := by
  intro v _ s hs
  refine .update hs (fun t a t' ht hrun => ?_) trivial fun _ _ _ => trivial
  exact ⟨v, trivial, Arena.Every.put hs (hf t a t' (Arena.Every.of_get? hs ht) hrun), trivial⟩

/-- Changing the heap changes no tuple. -/
theorem keeps_onHeap_everywhere {α : Type} (f : Heap → α × Heap) {E : Error → Prop} :
    (everywhere P).Keeps w (StoreM.onHeap f) (fun _ _ => True) E :=
  fun v _ _ hs => .onHeap ⟨v, trivial, hs, trivial⟩

/-- New tuples are empty. -/
theorem keeps_createWith_everywhere (hP : Tuple.Sturdy P) (kind : TupleKind)
    (permissions : Permissions) (parent : Option TupleId) {E : Error → Prop} :
    (everywhere P).Keeps w (StoreM.change (·.createWith kind permissions parent))
      (fun _ _ => True) E :=
  fun v _ _ hs => .change ⟨v, trivial, Arena.Every.alloc hs (hP.empty rfl rfl rfl rfl), trivial⟩

/-- Tuples are built and copied from any cells. -/
def everywhereCopying (hP : Tuple.Sturdy P) : Copying (everywhere P) where
  CellOk _ _ := True
  Open _ _ := True
  cell_lasts _ _ := trivial
  open_lasts _ _ := trivial
  owned _ _ _ := trivial
  insert := by
    intro w s id t t' name cell pos hs _ _ ht hinsert
    exact ⟨(), trivial, Arena.Every.put hs (hP.insert (Arena.Every.of_get? hs ht) hinsert)⟩
  adopt _ parent child _ _ := moves_everywhere fun _ hs =>
    every_adopt (fun _ parent ht => hP.adopt parent ht) hs parent child
  destroy _ _ _ := moves_everywhere fun _ hs =>
    every_destroy (fun _ _ => hP.empty rfl rfl rfl rfl) hs
  SourceOk _ _ := True
  source_lasts _ _ := trivial
  entries _ _ _ _ := trivial
  create _ kind permissions parent := keeps_createWith_everywhere hP kind permissions parent
  reborrow _ := keeps_onHeap_everywhere _
  shared _ _ := trivial
  scalar hs _ _ := keeps_onHeap_everywhere (w := ()) _ _ trivial _ hs
  tuple _ _ _ _ _ := keeps_onHeap_everywhere _

end Store

end TupleLang
