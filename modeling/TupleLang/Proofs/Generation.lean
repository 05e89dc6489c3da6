import TupleLang.Proofs.Arena

/-!
# Generations

An id has been *issued* when its generation is one that its slot has come to. Only `alloc` issues
ids (`issued_alloc_iff`, `issued_put_iff`, `issued_vacate_iff`), and slots only ever move on
(`Ages`). Generations have 32 bits. As long as no slot has been vacated 2³² times (`Young`), an id
that has been issued is not issued again, and once it stands for nothing it does so for ever.
-/

namespace TupleLang.Arena

/-- The id has been given out: its slot has come to its generation. -/
def Issued (a : Arena) (id : TupleId) : Prop :=
  ∃ slot n, a.slots[id.index]? = some slot ∧ id.generation = UInt32.ofNat n ∧
    (n < slot.vacated ∨ n = slot.vacated ∧ slot.tuple.isSome)

/-- Every slot of `a` is a slot of `a'` that has not gone back to an earlier generation, and has not
lost its tuple unless it moved on to a later one. -/
def Ages (a a' : Arena) : Prop :=
  ∀ (i : Nat) (slot : Slot), a.slots[i]? = some slot → ∃ slot', a'.slots[i]? = some slot' ∧
    slot.vacated ≤ slot'.vacated ∧
      (slot'.vacated = slot.vacated → slot.tuple.isSome → slot'.tuple.isSome)

/-- No slot has been vacated so often that its generations begin anew. -/
def Young (a : Arena) : Prop :=
  ∀ (i : Nat) (slot : Slot), a.slots[i]? = some slot → slot.vacated < 2 ^ 32

/-- The slot of the id has not been vacated so often that its generations begin anew. -/
def YoungAt (a : Arena) (id : TupleId) : Prop :=
  ∀ slot : Slot, a.slots[id.index]? = some slot → slot.vacated < 2 ^ 32

variable {a a' a'' : Arena} {id : TupleId} {t : Tuple}

/-- Counts below 2³² have different generations. -/
theorem ofNat_inj {m n : Nat} (hm : m < 2 ^ 32) (hn : n < 2 ^ 32)
    (h : UInt32.ofNat m = UInt32.ofNat n) : m = n := by
  have hmod := congrArg UInt32.toNat h
  rw [UInt32.toNat_ofNat', UInt32.toNat_ofNat', Nat.mod_eq_of_lt hm, Nat.mod_eq_of_lt hn] at hmod
  exact hmod

/-! ## Slots move on -/

namespace Ages

/-- Nothing goes back in the arena itself. -/
protected theorem refl (a : Arena) : a.Ages a := fun _ slot h => ⟨slot, h, le_rfl, fun _ h => h⟩

/-- Slots that move on twice move on. -/
protected theorem trans (h : a.Ages a') (h' : a'.Ages a'') : a.Ages a'' := by
  intro i slot hslot
  obtain ⟨slot', hslot', hle, hkept⟩ := h i slot hslot
  obtain ⟨slot'', hslot'', hle', hkept'⟩ := h' i slot' hslot'
  refine ⟨slot'', hslot'', hle.trans hle', fun heq hsome => ?_⟩
  have hsame : slot'.vacated = slot.vacated := by omega
  exact hkept' (heq.trans hsame.symm) (hkept hsame hsome)

/-- Changing one slot in such a way that it does not go back. -/
theorem modify (a : Arena) (free : List Nat) (i : Nat) {f : Slot → Slot}
    (hf : ∀ slot, slot.vacated ≤ (f slot).vacated ∧
      ((f slot).vacated = slot.vacated → slot.tuple.isSome → (f slot).tuple.isSome)) :
    a.Ages { slots := a.slots.modify i f, free } := by
  intro j slot hslot
  by_cases hij : i = j
  · subst hij
    exact ⟨f slot, by simp [Array.getElem?_modify, hslot], hf slot⟩
  · exact ⟨slot, by simp [Array.getElem?_modify, hij, hslot], le_rfl, fun _ h => h⟩

/-- Changing a tuple vacates no slot. -/
theorem put (a : Arena) (id : TupleId) (t : Tuple) : a.Ages (a.put id t) := by
  unfold Arena.put
  split
  · exact .modify a a.free id.index fun _ => ⟨le_rfl, fun _ _ => rfl⟩
  · exact .refl a

/-- Moving a tuple in vacates no slot. -/
theorem alloc (a : Arena) (t : Tuple) : a.Ages (a.alloc t).2 := by
  unfold Arena.alloc
  split
  · exact .modify a _ _ fun _ => ⟨le_rfl, fun _ _ => rfl⟩
  · intro i slot hslot
    have hi : i < a.slots.size := (Array.getElem?_eq_some_iff.mp hslot).1
    refine ⟨slot, ?_, le_rfl, fun _ h => h⟩
    simp [Array.getElem?_push, Nat.ne_of_lt hi, hslot]

/-- Vacating a slot lets it move on. -/
theorem vacate (a : Arena) (i : Nat) : a.Ages (a.vacate i) :=
  .modify a _ i fun _ => ⟨Nat.le_succ _, fun h => absurd h (Nat.succ_ne_self _)⟩

/-- An arena was young when it had aged less. -/
theorem young (h : a.Ages a') (hy : a'.Young) : a.Young := by
  intro i slot hslot
  obtain ⟨slot', hslot', hle, -⟩ := h i slot hslot
  exact hle.trans_lt (hy i slot' hslot')

/-- What has been issued stays so. -/
theorem issued (h : a.Ages a') (hid : a.Issued id) : a'.Issued id := by
  obtain ⟨slot, n, hslot, hgen, hn⟩ := hid
  obtain ⟨slot', hslot', hle, hkept⟩ := h _ slot hslot
  refine ⟨slot', n, hslot', hgen, ?_⟩
  rcases hn with hn | ⟨rfl, hsome⟩
  · exact .inl (by omega)
  · rcases hle.eq_or_lt with heq | hlt
    · exact .inr ⟨heq, hkept heq.symm hsome⟩
    · exact .inl hlt

/-- An issued id that stands for nothing does so until the generations of its slot begin anew. -/
theorem get?_eq_none_of_youngAt (h : a.Ages a') (hy : a'.YoungAt id) (hid : a.Issued id)
    (hdead : a.get? id = none) : a'.get? id = none := by
  obtain ⟨slot, n, hslot, hgen, hn⟩ := hid
  obtain ⟨slot', hslot', hle, -⟩ := h _ slot hslot
  -- the slot has left the generation of the id behind, and does not come to it again
  have hlt : n < slot.vacated := by
    refine hn.resolve_right ?_
    rintro ⟨rfl, hsome⟩
    have hgen' : slot.generation = id.generation := hgen.symm
    simp [get?, hslot, hgen'] at hdead
    simp [hdead] at hsome
  have hne : slot'.generation ≠ id.generation := by
    intro heq
    rw [hgen] at heq
    have hbound := hy slot' hslot'
    have := ofNat_inj hbound (by omega) heq
    omega
  simp [get?, hslot', hne]

/-- An issued id that stands for nothing does so for ever. -/
theorem get?_eq_none (h : a.Ages a') (hy : a'.Young) (hid : a.Issued id)
    (hdead : a.get? id = none) :
    a'.get? id = none :=
  h.get?_eq_none_of_youngAt (fun slot hslot => hy id.index slot hslot) hid hdead

/-- The slot of an id was young when the arena had aged less. -/
theorem youngAt (h : a.Ages a') (hy : a'.YoungAt id) : a.YoungAt id := by
  intro slot hslot
  obtain ⟨slot', hslot', hle, -⟩ := h _ slot hslot
  exact hle.trans_lt (hy slot' hslot')

end Ages

/-! ## Issuing ids -/

/-- Live ids have been issued. -/
theorem issued_of_live (h : a.get? id = some t) : a.Issued id := by
  obtain ⟨n, hslot, hgen⟩ := get?_eq_some_iff.mp h
  exact ⟨_, n, hslot, hgen.symm, .inr ⟨rfl, rfl⟩⟩

/-- Moving a tuple in issues the id that it gets, and no other. -/
theorem issued_alloc_iff (hs : a.Sound) (t : Tuple) :
    (a.alloc t).2.Issued id ↔ a.Issued id ∨ id = (a.alloc t).1 := by
  obtain ⟨index, generation⟩ := id
  unfold alloc
  cases hfree : a.free with
  | nil =>
    by_cases hindex : index = a.slots.size
    · subst hindex
      simp [Issued]
    · simp [Issued, Array.getElem?_push, hindex]
  | cons i free =>
    -- the slot taken is vacant: it has issued the generations before its own, and now that one
    obtain ⟨slot, hslot, hvacant⟩ := (hs.mem_free i).mp (by simp [hfree])
    by_cases hindex : index = i
    · subst hindex
      simp only [Issued, Array.getElem?_modify, if_true, hslot, Option.map_some, Option.getD_some,
        TupleId.mk.injEq, true_and, Option.some.injEq, Slot.generation]
      constructor
      · rintro ⟨_, n, rfl, hgen, hn | ⟨rfl, -⟩⟩
        · exact .inl ⟨slot, n, rfl, hgen, .inl hn⟩
        · exact .inr hgen
      · rintro (⟨_, n, rfl, hgen, hn | ⟨-, hsome⟩⟩ | hgen)
        · exact ⟨_, n, rfl, hgen, .inl hn⟩
        · simp [hvacant] at hsome
        · exact ⟨_, _, rfl, hgen, .inr ⟨rfl, rfl⟩⟩
    · simp [Issued, Array.getElem?_modify, Ne.symm hindex, hindex]

/-- The next id has not been issued before. -/
theorem not_issued_alloc (hs : a.Sound) (hy : a.Young) (t : Tuple) : ¬a.Issued (a.alloc t).1 := by
  rintro ⟨slot, n, hslot, hgen, hn⟩
  unfold alloc at hslot hgen
  cases hfree : a.free with
  | nil => simp [hfree] at hslot
  | cons i free =>
    obtain ⟨vacant, hvacant, hnone⟩ := (hs.mem_free i).mp (by simp [hfree])
    simp only [hfree, hvacant, Option.some.injEq, Option.map_some, Option.getD_some]
      at hslot hgen
    subst hslot
    have hbound := hy i vacant hvacant
    rcases hn with hn | ⟨-, hsome⟩
    · have := ofNat_inj hbound (by omega) hgen
      omega
    · simp [hnone] at hsome

end TupleLang.Arena
