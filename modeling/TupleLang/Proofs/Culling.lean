import TupleLang.Proofs.Destroy
import TupleLang.Proofs.Slots

/-!
# Culling

Destroying tuples leaves a slot as it is or moves it on to a later generation (`Arena.Culls`). This
holds of every arena and of tuples that own each other or themselves: a tuple that is being emptied
is vacated in the end.
-/

namespace TupleLang

namespace Arena

/-- The slot has been vacated since. -/
def Grown (a a' : Arena) (i : Nat) : Prop :=
  ∃ slot slot', a.slots[i]? = some slot ∧ a'.slots[i]? = some slot' ∧ slot.vacated < slot'.vacated

/-- Every slot is as it was or has been vacated, and only the latter have become free. -/
structure Culls (a a' : Arena) : Prop where
  slots : ∀ i, a'.slots[i]? = a.slots[i]? ∨ a.Grown a' i
  free : ∀ i ∈ a'.free, i ∈ a.free ∨ a.Grown a' i

variable {a a' a'' : Arena} {i : Nat}

namespace Culls

/-- Nothing is culled. -/
protected theorem refl (a : Arena) : a.Culls a := ⟨fun _ => .inl rfl, fun _ hi => .inl hi⟩

/-- A slot that has been vacated stays so. -/
theorem grown_left (h : a.Grown a' i) (h' : a'.Culls a'') : a.Grown a'' i := by
  obtain ⟨slot, slot', hslot, hslot', hlt⟩ := h
  rcases h'.slots i with hsame | ⟨_, slot'', hmid, hslot'', hlt'⟩
  · exact ⟨slot, slot', hslot, hsame.trans hslot', hlt⟩
  · rw [hslot'] at hmid
    cases hmid
    exact ⟨slot, slot'', hslot, hslot'', Nat.lt_trans hlt hlt'⟩

/-- A slot is vacated after it was left alone. -/
theorem grown_right (h : a.Culls a') (h' : a'.Grown a'' i) : a.Grown a'' i := by
  obtain ⟨slot', slot'', hslot', hslot'', hlt⟩ := h'
  rcases h.slots i with hsame | ⟨slot, _, hslot, hmid, hlt'⟩
  · exact ⟨slot', slot'', hsame ▸ hslot', hslot'', hlt⟩
  · rw [hslot'] at hmid
    cases hmid
    exact ⟨slot, slot'', hslot, hslot'', Nat.lt_trans hlt' hlt⟩

/-- Culling twice is culling. -/
protected theorem trans (h : a.Culls a') (h' : a'.Culls a'') : a.Culls a'' := by
  refine ⟨fun i => ?_, fun i hi => ?_⟩
  · rcases h'.slots i with hsame | hgrown
    · rcases h.slots i with hsame' | hgrown
      · exact .inl (hsame.trans hsame')
      · exact .inr (grown_left hgrown h')
    · exact .inr (h.grown_right hgrown)
  · rcases h'.free i hi with hi | hgrown
    · rcases h.free i hi with hi | hgrown
      · exact .inl hi
      · exact .inr (grown_left hgrown h')
    · exact .inr (h.grown_right hgrown)

end Culls

/-- A tuple may be changed in the meantime if its slot is vacated in the end. -/
theorem culls_vacate {id : TupleId} {t : Tuple} (hlive : a.get? id = some t) (emptied : Tuple)
    (h : (a.put id emptied).Culls a') : a.Culls (a'.vacate id.index) := by
  obtain ⟨n, hslot, -⟩ := get?_eq_some_iff.mp hlive
  have hput := touches_put a id emptied
  have hvacate := touches_vacate a' id.index
  have hself : a.Grown (a'.vacate id.index) id.index := by
    obtain ⟨slot, hslot', hle⟩ := hput.count _ hslot
    rcases h.slots id.index with hsame | ⟨_, slot'', hmid, hslot'', hlt⟩
    · exact ⟨_, _, hslot, slots_vacate_self (hsame.trans hslot'), Nat.lt_succ_of_le hle⟩
    · rw [hslot'] at hmid
      cases hmid
      exact ⟨_, _, hslot, slots_vacate_self hslot'',
        Nat.lt_succ_of_le (Nat.le_trans hle (Nat.le_of_lt hlt))⟩
  -- no other slot is changed by the two steps around the culling
  have hother : ∀ i, i ≠ id.index → (a.put id emptied).Grown a' i →
      a.Grown (a'.vacate id.index) i := by
    rintro i hi ⟨slot, slot', hslot, hslot', hlt⟩
    exact ⟨slot, slot', hput.others i hi ▸ hslot, (hvacate.others i hi).trans hslot', hlt⟩
  refine ⟨fun i => ?_, fun i hi => ?_⟩
  · by_cases hi : i = id.index
    · exact .inr (hi ▸ hself)
    · rcases h.slots i with hsame | hgrown
      · exact .inl ((hvacate.others i hi).trans (hsame.trans (hput.others i hi)))
      · exact .inr (hother i hi hgrown)
  · by_cases hne : i = id.index
    · exact .inr (hne ▸ hself)
    · have hi := (List.mem_cons.mp hi).resolve_left hne
      rcases h.free i hi with hi | hgrown
      · exact .inl (by simpa using hi)
      · exact .inr (hother i hne hgrown)

end Arena

namespace Store

/-- Destroying tuples culls slots. -/
theorem culls_destroyWithin (n : Nat) (s : Store) (id : TupleId) :
    s.arena.Culls (destroyWithin n s id).arena := by
  induction n generalizing s id with
  | zero => exact .refl _
  | succ n ih =>
    rcases destroyWithin_cases s id with hnot | ⟨hroot, t, ht⟩
    · rw [destroyWithin_of_not _ hnot]
      exact .refl _
    · rw [destroyWithin_succ n hroot ht]
      -- the cells are released one after another with the fuel of one level less
      have hcells : ∀ (cells : List Cell) (s : Store),
          s.arena.Culls (cells.foldl (releaseWithin n) s).arena := by
        intro cells
        induction cells with
        | nil => exact fun s => .refl _
        | cons c cells ihcells =>
          intro s
          rw [List.foldl_cons]
          refine Arena.Culls.trans ?_ (ihcells _)
          unfold releaseWithin
          split
          · exact ih s _
          · exact .refl _
      exact Arena.culls_vacate ht t.drain.2 (hcells t.drain.1 (s.putTuple id t.drain.2))

end Store

end TupleLang
