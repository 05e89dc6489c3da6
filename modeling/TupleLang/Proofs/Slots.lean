import TupleLang.Proofs.Arena

/-!
# One slot at a time

Each of `put`, `alloc` and `vacate` changes one slot, and none of them takes back how often a slot
was vacated (`Touches`). This is what remains to be said of them when the free list may hold
anything.
-/

namespace TupleLang.Arena

/-- There is a tuple in the slot. -/
def Occupied (a : Arena) (i : Nat) : Prop := ∃ n t, a.slots[i]? = some ⟨n, some t⟩

/-- The arenas differ in slot `i` at most, and its count has not gone down. -/
structure Touches (a : Arena) (i : Nat) (a' : Arena) : Prop where
  others : ∀ j, j ≠ i → a'.slots[j]? = a.slots[j]?
  count : ∀ slot, a.slots[i]? = some slot →
    ∃ slot', a'.slots[i]? = some slot' ∧ slot.vacated ≤ slot'.vacated

variable {a : Arena} {id : TupleId} {i : Nat} {t : Tuple}

/-- The slot of a live tuple is occupied. -/
theorem occupied_of_get? (h : a.get? id = some t) : a.Occupied id.index := by
  obtain ⟨n, hslot, -⟩ := get?_eq_some_iff.mp h
  exact ⟨n, t, hslot⟩

/-- Changing one slot so that its count does not go down. -/
theorem touches_modify (a : Arena) (i : Nat) (free : List Nat) {f : Slot → Slot}
    (hf : ∀ slot, slot.vacated ≤ (f slot).vacated) :
    a.Touches i { slots := a.slots.modify i f, free } where
  others j hj := by simp [Array.getElem?_modify, hj.symm]
  count slot hslot := ⟨f slot, by simp [Array.getElem?_modify, hslot], hf slot⟩

/-! ## Putting -/

/-- Replacing a tuple touches its own slot. -/
theorem touches_put (a : Arena) (id : TupleId) (t : Tuple) : a.Touches id.index (a.put id t) := by
  unfold put
  split
  · exact touches_modify a id.index a.free fun _ => Nat.le_refl _
  · exact ⟨fun _ _ => rfl, fun slot hslot => ⟨slot, hslot, Nat.le_refl _⟩⟩

@[simp] theorem free_put (a : Arena) (id : TupleId) (t : Tuple) : (a.put id t).free = a.free := by
  unfold put
  split <;> rfl

/-- What is in a slot after a tuple was put was put there or was there before. -/
theorem slots_put {n : Nat} {u : Tuple} (h : (a.put id t).slots[i]? = some ⟨n, some u⟩) :
    i = id.index ∧ u = t ∨ a.slots[i]? = some ⟨n, some u⟩ := by
  unfold put at h
  split at h
  · by_cases hi : i = id.index
    · subst hi
      simp only [Array.getElem?_modify, if_true, Option.map_eq_some_iff, Slot.mk.injEq,
        Option.some.injEq] at h
      obtain ⟨_, -, -, rfl⟩ := h
      exact .inl ⟨rfl, rfl⟩
    · simp only [Array.getElem?_modify, Ne.symm hi, if_false] at h
      exact .inr h
  · exact .inr h

/-! ## Moving in -/

/-- A new tuple touches the slot that it gets. -/
theorem touches_alloc (a : Arena) (t : Tuple) :
    a.Touches (a.alloc t).1.index (a.alloc t).2 := by
  unfold alloc
  split
  · exact touches_modify a _ _ fun _ => Nat.le_refl _
  · refine ⟨fun j hj => ?_, fun slot hslot => ?_⟩
    · simp only at hj
      simp [Array.getElem?_push, hj]
    · simp at hslot

/-- A tuple is moved into a slot of the free list or behind all slots. -/
theorem index_alloc (a : Arena) (t : Tuple) :
    (a.alloc t).1.index ∈ a.free ∨ (a.alloc t).1.index = a.slots.size := by
  unfold alloc
  split
  · rename_i hfree
    exact .inl (by simp [hfree])
  · exact .inr rfl

/-- A new tuple makes no slot free. -/
theorem free_alloc_subset (a : Arena) (t : Tuple) : (a.alloc t).2.free ⊆ a.free := by
  unfold alloc
  split
  · rename_i hfree
    simp [hfree]
  · exact List.Subset.refl _

/-- What is in a slot after a tuple was moved in is that tuple or was there before. -/
theorem slots_alloc {n : Nat} {u : Tuple} (h : (a.alloc t).2.slots[i]? = some ⟨n, some u⟩) :
    i = (a.alloc t).1.index ∧ u = t ∨ a.slots[i]? = some ⟨n, some u⟩ := by
  by_cases hi : i = (a.alloc t).1.index
  · refine .inl ⟨hi, ?_⟩
    subst hi
    unfold alloc at h
    -- a slot from the free list, or one behind the last
    split at h
    · simp only [Array.getElem?_modify, if_true, Option.map_eq_some_iff, Slot.mk.injEq,
        Option.some.injEq] at h
      obtain ⟨_, -, -, rfl⟩ := h
      rfl
    · simp only [Array.getElem?_push, if_true, Option.some.injEq, Slot.mk.injEq] at h
      exact h.2.symm
  · exact .inr ((touches_alloc a t).others i hi ▸ h)

/-! ## Vacating -/

/-- Vacating a slot touches no other one. -/
theorem touches_vacate (a : Arena) (i : Nat) : a.Touches i (a.vacate i) :=
  touches_modify a i _ fun _ => Nat.le_succ _

/-- The count of a slot goes up when it is vacated. -/
theorem slots_vacate_self {slot : Slot} (h : a.slots[i]? = some slot) :
    (a.vacate i).slots[i]? = some ⟨slot.vacated + 1, none⟩ := by
  simp [vacate, Array.getElem?_modify, h]

/-- What is in a slot after one was vacated was there before. -/
theorem slots_vacate {n j : Nat} {u : Tuple} (h : (a.vacate i).slots[j]? = some ⟨n, some u⟩) :
    a.slots[j]? = some ⟨n, some u⟩ := by
  by_cases hj : j = i
  · subst hj
    simp [vacate, Array.getElem?_modify] at h
  · exact (touches_vacate a i).others j hj ▸ h

end TupleLang.Arena
