import Mathlib
import TupleLang.Arena

/-!
# Sound arenas

An arena is *sound* when its free list holds every vacant slot exactly once and no occupied one.
The module says what `alloc`, `put` and `vacate` do to the view `get?` of a sound arena, and that
each of them keeps it sound. It also bounds the number of live ids and follows the number of
attributes, which bounds how often tuples can be emptied.
-/

namespace TupleLang.Arena

/-- The free list holds every vacant slot exactly once and no occupied one. -/
structure Sound (a : Arena) : Prop where
  /-- No slot is on the free list twice. -/
  nodup : a.free.Nodup
  /-- The free list holds exactly the vacant slots. -/
  mem_free : ∀ i, i ∈ a.free ↔ ∃ slot, a.slots[i]? = some slot ∧ slot.tuple = none

variable {a : Arena} {id x : TupleId} {t t' : Tuple}

/-- An arena without vacant slots is sound if its free list is empty. -/
theorem sound_of_full (hfree : a.free = []) (hfull : a.slots.toList.all (·.tuple.isSome) = true) :
    a.Sound := by
  refine ⟨hfree ▸ List.nodup_nil, fun i => ?_⟩
  rw [hfree]
  refine ⟨fun hi => absurd hi List.not_mem_nil, ?_⟩
  rintro ⟨slot, hslot, hvacant⟩
  have hmem := Array.mem_toList_iff.mpr (Array.mem_of_getElem? hslot)
  have hsome := List.all_eq_true.mp hfull slot hmem
  rw [hvacant] at hsome
  cases hsome

/-- A live id is the current generation of an occupied slot. -/
theorem get?_eq_some_iff :
    a.get? id = some t ↔
      ∃ n, a.slots[id.index]? = some ⟨n, some t⟩ ∧ UInt32.ofNat n = id.generation := by
  unfold get?
  cases hslot : a.slots[id.index]? with
  | none => simp
  | some slot =>
    obtain ⟨n, tuple⟩ := slot
    by_cases hgen : UInt32.ofNat n = id.generation <;> simp [Slot.generation, hgen]

/-- Ids of one slot that are both live are equal. -/
theorem eq_of_live_of_index {y : TupleId} (hx : a.get? x = some t) (hy : a.get? y = some t')
    (hindex : x.index = y.index) : x = y := by
  obtain ⟨n, hx, hxgen⟩ := get?_eq_some_iff.mp hx
  obtain ⟨m, hy, hygen⟩ := get?_eq_some_iff.mp hy
  rw [hindex, hy] at hx
  cases x; cases y
  simp_all

/-- A live id has a slot. -/
theorem index_lt_of_get? (h : a.get? id = some t) : id.index < a.slots.size := by
  obtain ⟨n, h, -⟩ := get?_eq_some_iff.mp h
  exact (Array.getElem?_eq_some_iff.mp h).1

/-- There are no more live ids than slots. -/
theorem length_le_of_live {ids : List TupleId} (hnodup : ids.Nodup)
    (hlive : ∀ x ∈ ids, ∃ t, a.get? x = some t) : ids.length ≤ a.slots.size := by
  -- live ids in one slot are the same id, so different ids have different slots
  have hindices : (ids.map TupleId.index).Nodup := by
    refine List.Nodup.map_on ?_ hnodup
    intro x hx y hy hindex
    obtain ⟨t, ht⟩ := hlive x hx
    obtain ⟨t', ht'⟩ := hlive y hy
    exact eq_of_live_of_index ht ht' hindex
  have hsub : ids.map TupleId.index ⊆ List.range a.slots.size := by
    intro i hi
    obtain ⟨x, hx, rfl⟩ := List.mem_map.mp hi
    obtain ⟨t, ht⟩ := hlive x hx
    exact List.mem_range.mpr (index_lt_of_get? ht)
  simpa using (List.subperm_of_subset hindices hsub).length_le

/-! ## Moving a tuple in -/

/-- What `alloc` gives out was not live before, and afterwards stands for the tuple moved in; every
other id stands for what it stood for. -/
theorem get?_alloc (hs : a.Sound) (t : Tuple) :
    a.get? (a.alloc t).1 = none ∧
      ∀ x, (a.alloc t).2.get? x = if x = (a.alloc t).1 then some t else a.get? x := by
  unfold alloc
  cases hfree : a.free with
  | nil =>
    refine ⟨by simp [get?], fun x => ?_⟩
    obtain ⟨index, generation⟩ := x
    by_cases hindex : index = a.slots.size
    · by_cases hgen : generation = 0 <;> simp [get?, Slot.generation, hindex, hgen, eq_comm]
    · simp [get?, Array.getElem?_push, hindex]
  | cons i free =>
    -- the slot taken from the free list is vacant, so none of its generations is live
    obtain ⟨slot, hslot, hvacant⟩ := (hs.mem_free i).mp (by simp [hfree])
    refine ⟨by simp [get?, hslot, hvacant], fun x => ?_⟩
    obtain ⟨index, generation⟩ := x
    by_cases hindex : index = i
    · by_cases hgen : generation = UInt32.ofNat slot.vacated
      · simp [get?, Slot.generation, Array.getElem?_modify, hindex, hgen, hslot]
      · simp [get?, Slot.generation, Array.getElem?_modify, hindex, hgen, hslot, Ne.symm hgen]
    · simp [get?, Array.getElem?_modify, hindex, Ne.symm hindex]

/-- Moving a tuple in keeps the arena sound. -/
theorem Sound.alloc (hs : a.Sound) (t : Tuple) : (a.alloc t).2.Sound := by
  unfold Arena.alloc
  cases hfree : a.free with
  | nil =>
    -- with no slot to use again all slots are occupied
    have hnone : ∀ (i : Nat) (slot : Slot), a.slots[i]? = some slot → slot.tuple ≠ none := by
      intro i slot hslot hvacant
      simpa [hfree] using (hs.mem_free i).mpr ⟨slot, hslot, hvacant⟩
    refine ⟨by simp, fun i => ?_⟩
    simp only [List.not_mem_nil, false_iff, not_exists, not_and]
    intro slot hslot
    by_cases hi : i = a.slots.size
    · simp [hi] at hslot
      simp [← hslot]
    · exact hnone i slot (by simpa [Array.getElem?_push, hi] using hslot)
  | cons i free =>
    have hnodup := hs.nodup
    rw [hfree, List.nodup_cons] at hnodup
    refine ⟨hnodup.2, fun j => ?_⟩
    have hj := hs.mem_free j
    rw [hfree, List.mem_cons] at hj
    by_cases hji : j = i
    · subst hji
      obtain ⟨slot, hslot, -⟩ := hj.mp (.inl rfl)
      simp [Array.getElem?_modify, hslot, hnodup.1]
    · simpa [Array.getElem?_modify, hji, Ne.symm hji] using hj

/-! ## Changing a tuple in place -/

/-- Replacing a live tuple changes what its own id stands for and nothing else. -/
theorem get?_put (hlive : a.get? id = some t) (t' : Tuple) (x : TupleId) :
    (a.put id t').get? x = if x = id then some t' else a.get? x := by
  by_cases hx : x = id
  · subst hx
    simp [get?_put_self, contains, hlive]
  · simp [hx, get?_put_of_ne]

/-- Replacing a tuple keeps the arena sound. -/
theorem Sound.put (hs : a.Sound) (id : TupleId) (t : Tuple) : (a.put id t).Sound := by
  unfold Arena.put
  split
  · rename_i hlive
    refine ⟨hs.nodup, fun i => ?_⟩
    rw [hs.mem_free i]
    obtain ⟨old, hold⟩ := Option.isSome_iff_exists.mp hlive
    obtain ⟨n, hold, -⟩ := get?_eq_some_iff.mp hold
    by_cases hi : i = id.index
    · subst hi
      simp [Array.getElem?_modify, hold]
    · simp [Array.getElem?_modify, Ne.symm hi]
  · exact hs

/-- Replacing a tuple moves no slot. -/
@[simp] theorem size_put (a : Arena) (id : TupleId) (t : Tuple) :
    (a.put id t).slots.size = a.slots.size := by
  unfold put
  split <;> simp

/-! ## Vacating a slot -/

/-- Vacating the slot of a live id ends that id and no other. -/
theorem get?_vacate (hlive : a.get? id = some t) (x : TupleId) :
    (a.vacate id.index).get? x = if x = id then none else a.get? x := by
  by_cases hx : x.index = id.index
  · have hgone : (a.vacate id.index).get? x = none := hx ▸ get?_vacate_self
    by_cases hid : x = id
    · simp [hid, get?_vacate_self]
    · have hnone : a.get? x = none := by
        cases hget : a.get? x with
        | none => rfl
        | some t' => exact absurd (eq_of_live_of_index hget hlive hx) hid
      simp [hid, hgone, hnone]
  · have hid : x ≠ id := fun h => hx (h ▸ rfl)
    simp [hid, get?_vacate_of_ne hx]

/-- Vacating the slot of a live id keeps the arena sound. -/
theorem Sound.vacate (hs : a.Sound) (hlive : a.get? id = some t) : (a.vacate id.index).Sound := by
  obtain ⟨n, hlive, -⟩ := get?_eq_some_iff.mp hlive
  have hnot : id.index ∉ a.free := by
    rw [hs.mem_free]
    rintro ⟨slot, hslot, hvacant⟩
    simp_all
  refine ⟨List.nodup_cons.mpr ⟨hnot, hs.nodup⟩, fun i => ?_⟩
  by_cases hi : i = id.index
  · subst hi
    simp [Arena.vacate, Array.getElem?_modify, hlive]
  · simp [Arena.vacate, Array.getElem?_modify, hi, Ne.symm hi, hs.mem_free i]

/-! ## Number of attributes -/

/-- Number of attributes in a slot. -/
def slotEntries (slot : Slot) : Nat := (slot.tuple.map fun t => t.entries.length).getD 0

/-- The attributes of an arena, counted slot by slot. -/
theorem entryCount_eq_sum (a : Arena) :
    a.entryCount = (a.slots.toList.map slotEntries).sum := by
  unfold entryCount tuples
  induction a.slots.toList with
  | nil => rfl
  | cons slot slots ih =>
    cases htuple : slot.tuple with
    | none => simp_all [slotEntries]
    | some t => simp_all [slotEntries]

/-- Changing one element of a list changes a sum over it by the difference at that element. -/
theorem sum_map_modify {α : Type} (w : α → Nat) (f : α → α) :
    ∀ (l : List α) (i : Nat) (y : α), l[i]? = some y →
      ((l.modify i f).map w).sum + w y = (l.map w).sum + w (f y)
  | [], i, y, h => by simp at h
  | z :: l, 0, y, h => by
      simp only [List.getElem?_cons_zero, Option.some.injEq] at h
      subst h
      simp only [List.modify_zero_cons, List.map_cons, List.sum_cons]
      omega
  | z :: l, i + 1, y, h => by
      have ih := sum_map_modify w f l i y (by simpa using h)
      simp only [List.modify_succ_cons, List.map_cons, List.sum_cons]
      omega

/-- Replacing a tuple exchanges its attributes for those of the new one. -/
theorem entryCount_put (hlive : a.get? id = some t) (t' : Tuple) :
    (a.put id t').entryCount + t.entries.length = a.entryCount + t'.entries.length := by
  have hcontains : a.contains id = true := by simp [contains, hlive]
  obtain ⟨n, hlive, -⟩ := get?_eq_some_iff.mp hlive
  have hsum := sum_map_modify slotEntries ({ · with tuple := some t' }) a.slots.toList id.index _
    (by simpa using hlive)
  simpa [put, hcontains, entryCount_eq_sum, slotEntries] using hsum

/-- Vacating a slot adds no attributes. -/
theorem entryCount_vacate_le (a : Arena) (i : Nat) : (a.vacate i).entryCount ≤ a.entryCount := by
  rw [entryCount_eq_sum, entryCount_eq_sum]
  cases hslot : a.slots[i]? with
  | none =>
    -- there is no such slot, and nothing is emptied
    have hsame : a.slots.modify i (fun slot => { vacated := slot.vacated + 1 }) = a.slots := by
      ext j : 1
      · simp
      · rename_i h₁ h₂
        have hij : i ≠ j := by
          rintro rfl
          simp_all
        simp [Array.getElem_modify, hij]
    simp [vacate, hsame]
  | some slot =>
    have hsum := sum_map_modify slotEntries
      (fun slot => { vacated := slot.vacated + 1, tuple := none }) a.slots.toList i slot
      (by simpa using hslot)
    simp only [vacate, Array.toList_modify]
    simp only [slotEntries] at hsum ⊢
    simp only [Option.map_none, Option.getD_none] at hsum
    omega

end TupleLang.Arena
