import TupleLang.Proofs.Arena
import TupleLang.Store.Lifetime

/-!
# Destroying tuples

`Store.destroy` bounds its recursion by the number of attributes. Every level empties a tuple, so
the bound is never reached, and `destroy` obeys the equation that one reads off its description:
empty the tuple, release its cells in order, vacate its slot (`destroy_eq`).

A store is *sound* when its arena is and its root scope is live.
-/

namespace TupleLang

/-- Every value of one heap is still in its place in another. -/
def Heap.Grows (h h' : Heap) : Prop :=
  ∀ (i : Nat) (v : Value), h.values[i]? = some v → h'.values[i]? = some v

namespace Heap.Grows

variable {h h' h'' : Heap}

/-- A heap grows into itself. -/
protected theorem refl (h : Heap) : h.Grows h := fun _ _ hv => hv

/-- Growth composes. -/
protected theorem trans (h₁ : h.Grows h') (h₂ : h'.Grows h'') : h.Grows h'' :=
  fun i v hv => h₂ i v (h₁ i v hv)

/-- A new place leaves all others alone. -/
theorem alloc (h : Heap) (v : Value) : h.Grows (h.alloc v).2 := by
  intro i w hw
  have hi : i < h.values.size := (Array.getElem?_eq_some_iff.mp hw).1
  simp [Heap.alloc, Array.getElem?_push, Nat.ne_of_lt hi, hw]

/-- A heap that grows does not get shorter. -/
theorem size_le (hg : h.Grows h') : h.values.size ≤ h'.values.size := by
  by_contra hlt
  have hin : h'.values.size < h.values.size := Nat.lt_of_not_le hlt
  have hlast := hg h'.values.size _ (Array.getElem?_eq_getElem hin)
  simp at hlast

end Heap.Grows

namespace Store

/-- The arena is sound and the root scope is live. -/
structure Sound (s : Store) : Prop where
  arena : s.arena.Sound
  root_live : ∃ t, s.tuple? s.root = some t

/-- A store without anything but its root scope is sound. -/
theorem sound_bare (settings : Settings) : (bare settings).Sound := by
  have hempty : ({} : Arena).Sound := ⟨List.nodup_nil, by simp⟩
  exact ⟨hempty.alloc _, _, rfl⟩

/-! ## Parts of the store that never change -/

section Unchanged

variable (s : Store) (id : TupleId) (t : Tuple)

@[simp] theorem heap_putTuple : (s.putTuple id t).heap = s.heap := rfl

@[simp] theorem root_putTuple : (s.putTuple id t).root = s.root := rfl

@[simp] theorem forms_putTuple : (s.putTuple id t).forms = s.forms := rfl

@[simp] theorem settings_putTuple : (s.putTuple id t).settings = s.settings := rfl

end Unchanged

/-- Two stores differ in their arenas at most. -/
structure SameButArena (s s' : Store) : Prop where
  heap : s'.heap = s.heap
  forms : s'.forms = s.forms
  root : s'.root = s.root
  settings : s'.settings = s.settings

namespace SameButArena

variable {s s' s'' : Store}

/-- A store differs from itself in nothing. -/
protected theorem refl (s : Store) : s.SameButArena s := ⟨rfl, rfl, rfl, rfl⟩

/-- Differences in the arena compose. -/
protected theorem trans (h₁ : s.SameButArena s') (h₂ : s'.SameButArena s'') : s.SameButArena s'' :=
  ⟨h₂.heap.trans h₁.heap, h₂.forms.trans h₁.forms, h₂.root.trans h₁.root,
    h₂.settings.trans h₁.settings⟩

/-- A fold of steps that differ in the arena only differs in the arena only. -/
theorem foldl {β : Type} {f : Store → β → Store} (hf : ∀ (s : Store) b, s.SameButArena (f s b))
    (bs : List β) (s : Store) : s.SameButArena (bs.foldl f s) := by
  induction bs generalizing s with
  | nil => exact .refl s
  | cons b bs ih => exact (hf s b).trans (ih (f s b))

end SameButArena

/-! ## The bound on the levels is never reached -/

/-- Give up a cell, to at most `n` levels of ownership. -/
def releaseWithin (n : Nat) (s : Store) (cell : Cell) : Store :=
  match cell.ownedTuple? s.heap with
  | some child => destroyWithin n s child
  | none => s

/-- One level of destruction: empty the tuple, release its cells, vacate its slot. -/
theorem destroyWithin_succ {s : Store} {id : TupleId} {t : Tuple} (n : Nat) (hroot : id ≠ s.root)
    (ht : s.tuple? id = some t) :
    destroyWithin (n + 1) s id =
      let released := t.drain.1.foldl (releaseWithin n) (s.putTuple id t.drain.2)
      { released with arena := released.arena.vacate id.index } := by
  simp only [destroyWithin, if_neg hroot, ht]
  rfl

/-- The root scope and what is not live are not destroyed. -/
theorem destroyWithin_of_not {s : Store} {id : TupleId} (n : Nat)
    (h : id = s.root ∨ s.tuple? id = none) : destroyWithin n s id = s := by
  cases n with
  | zero => rfl
  | succ n =>
    rcases h with h | h
    · simp [destroyWithin, h]
    · simp [destroyWithin, h]

/-- Destroying a tuple either does nothing or goes one level down. -/
theorem destroyWithin_cases (s : Store) (id : TupleId) :
    (id = s.root ∨ s.tuple? id = none) ∨ (id ≠ s.root ∧ ∃ t, s.tuple? id = some t) := by
  by_cases hroot : id = s.root
  · exact .inl (.inl hroot)
  · cases ht : s.tuple? id with
    | none => exact .inl (.inr rfl)
    | some t => exact .inr ⟨hroot, t, rfl⟩

/-- Destroying tuples changes the arena only. -/
theorem sameButArena_destroyWithin (n : Nat) (s : Store) (id : TupleId) :
    s.SameButArena (destroyWithin n s id) := by
  induction n generalizing s id with
  | zero => exact .refl s
  | succ n ih =>
    rcases destroyWithin_cases s id with hnot | ⟨hroot, t, ht⟩
    · rw [destroyWithin_of_not _ hnot]
      exact .refl s
    · -- releasing a cell is destroying, one level down
      have hcell : ∀ (s : Store) (c : Cell), s.SameButArena (releaseWithin n s c) := by
        intro s c
        unfold releaseWithin
        split
        · exact ih s _
        · exact .refl s
      have hput : s.SameButArena (s.putTuple id t.drain.2) := ⟨rfl, rfl, rfl, rfl⟩
      have hfold := hput.trans (SameButArena.foldl hcell t.drain.1 _)
      rw [destroyWithin_succ n hroot ht]
      exact ⟨hfold.heap, hfold.forms, hfold.root, hfold.settings⟩

/-- Releasing a cell changes the arena only. -/
theorem sameButArena_release (s : Store) (c : Cell) : s.SameButArena (s.release c) := by
  unfold release
  split
  · exact sameButArena_destroyWithin _ s _
  · exact .refl s

/-- Releasing cells changes the arena only. -/
theorem sameButArena_releaseAll (s : Store) (cells : List Cell) :
    s.SameButArena (s.releaseAll cells) :=
  SameButArena.foldl sameButArena_release cells s

/-- Emptying a tuple takes its attributes away. -/
theorem entryCount_drain {s : Store} {id : TupleId} {t : Tuple} (ht : s.tuple? id = some t) :
    (s.putTuple id t.drain.2).arena.entryCount + t.drain.1.length = s.arena.entryCount := by
  have hput := Arena.entryCount_put ht t.drain.2
  simpa [Tuple.drain, putTuple] using hput

/-- A fold of steps that add no attributes adds no attributes. -/
theorem entryCount_foldl_le {f : Store → Cell → Store}
    (hf : ∀ s c, (f s c).arena.entryCount ≤ s.arena.entryCount) (cells : List Cell) (s : Store) :
    (cells.foldl f s).arena.entryCount ≤ s.arena.entryCount := by
  induction cells generalizing s with
  | nil => exact Nat.le_refl _
  | cons c cells ih => exact Nat.le_trans (ih (f s c)) (hf s c)

/-- Destroying tuples adds no attributes. -/
theorem entryCount_destroyWithin_le (n : Nat) (s : Store) (id : TupleId) :
    (destroyWithin n s id).arena.entryCount ≤ s.arena.entryCount := by
  induction n generalizing s id with
  | zero => exact Nat.le_refl _
  | succ n ih =>
    rcases destroyWithin_cases s id with hnot | ⟨hroot, t, ht⟩
    · exact Nat.le_of_eq (by rw [destroyWithin_of_not _ hnot])
    · have hcell : ∀ s c, (releaseWithin n s c).arena.entryCount ≤ s.arena.entryCount := by
        intro s c
        unfold releaseWithin
        split
        · exact ih s _
        · exact Nat.le_refl _
      have hfold := entryCount_foldl_le hcell t.drain.1 (s.putTuple id t.drain.2)
      -- draining alone already lowers the count
      have hdrain := entryCount_drain ht
      rw [destroyWithin_succ n hroot ht]
      refine Nat.le_trans (Arena.entryCount_vacate_le _ _) ?_
      omega

/-- Folds of steps that agree on stores with few attributes agree. -/
theorem foldl_congr_of_entryCount {f g : Store → Cell → Store} {n : Nat}
    (hle : ∀ s c, (f s c).arena.entryCount ≤ s.arena.entryCount)
    (hfg : ∀ s c, s.arena.entryCount < n → f s c = g s c) (cells : List Cell) (s : Store)
    (hs : cells ≠ [] → s.arena.entryCount < n) : cells.foldl f s = cells.foldl g s := by
  induction cells generalizing s with
  | nil => rfl
  | cons c cells ih =>
    have hlt := hs (by simp)
    rw [List.foldl_cons, List.foldl_cons, ← hfg s c hlt]
    exact ih (f s c) fun _ => Nat.lt_of_le_of_lt (hle s c) hlt

/-- Bounds above the number of attributes all give the same result. -/
theorem destroyWithin_congr (n m : Nat) (s : Store) (id : TupleId) (hn : s.arena.entryCount < n)
    (hm : s.arena.entryCount < m) : destroyWithin n s id = destroyWithin m s id := by
  induction n generalizing m s id with
  | zero => omega
  | succ n ih =>
    obtain ⟨m, rfl⟩ : ∃ k, m = k + 1 := ⟨m - 1, by omega⟩
    rcases destroyWithin_cases s id with hnot | ⟨hroot, t, ht⟩
    · rw [destroyWithin_of_not _ hnot, destroyWithin_of_not _ hnot]
    · have hdrain := entryCount_drain ht
      -- a tuple without attributes releases nothing, any other one leaves fewer attributes
      have hfold : t.drain.1.foldl (releaseWithin n) (s.putTuple id t.drain.2) =
          t.drain.1.foldl (releaseWithin m) (s.putTuple id t.drain.2) := by
        refine foldl_congr_of_entryCount (n := min n m) ?_ ?_ _ _ ?_
        · intro s c
          unfold releaseWithin
          split
          · exact entryCount_destroyWithin_le n s _
          · exact Nat.le_refl _
        · intro s c hlt
          unfold releaseWithin
          split
          · exact ih m s _ (by omega) (by omega)
          · rfl
        · intro hne
          have := List.length_pos_iff.mpr hne
          omega
      rw [destroyWithin_succ n hroot ht, destroyWithin_succ m hroot ht, hfold]

/-- Destroying a live tuple empties it, releases its cells in order and vacates its slot. -/
theorem destroy_eq {s : Store} {id : TupleId} {t : Tuple} (hroot : id ≠ s.root)
    (ht : s.tuple? id = some t) :
    s.destroy id =
      let released := (s.putTuple id t.drain.2).releaseAll t.drain.1
      { released with arena := released.arena.vacate id.index } := by
  have hdrain := entryCount_drain ht
  -- with enough levels left the recursion is `destroy` itself at every released cell
  have hfold : t.drain.1.foldl release (s.putTuple id t.drain.2) =
      t.drain.1.foldl (releaseWithin s.arena.entryCount) (s.putTuple id t.drain.2) := by
    refine foldl_congr_of_entryCount (n := s.arena.entryCount) ?_ ?_ _ _ ?_
    · intro s c
      unfold release
      split
      · exact entryCount_destroyWithin_le _ s _
      · exact Nat.le_refl _
    · intro s' c hlt
      unfold release releaseWithin
      cases c.ownedTuple? s'.heap with
      | some child => exact destroyWithin_congr _ _ s' child (Nat.lt_succ_self _) hlt
      | none => rfl
    · intro hne
      have := List.length_pos_iff.mpr hne
      omega
  rw [destroy, destroyWithin_succ _ hroot ht, releaseAll, hfold]

end Store

end TupleLang
