import TupleLang.Tuple

/-!
# Tuple arena

Tuples live in numbered slots. A slot counts generations: it moves on to the next one when its tuple
is given up, so that an id, which is a slot with a generation, stops resolving from then on. The
generation of an id has 32 bits, while the count of a slot goes on. Vacated slots are used again,
the one vacated last first.
-/

namespace TupleLang

/-- A place for one tuple. -/
structure Slot where
  /-- How often the slot was vacated. -/
  vacated : Nat := 0
  tuple : Option Tuple := none

/-- Generation of the current or the next occupant. -/
def Slot.generation (slot : Slot) : UInt32 := UInt32.ofNat slot.vacated

/-- Tuples by id. -/
structure Arena where
  slots : Array Slot := #[]
  /-- Slots to use again, in this order. -/
  free : List Nat := []

namespace Arena

/-- The live tuple with the given id. -/
def get? (a : Arena) (id : TupleId) : Option Tuple :=
  match a.slots[id.index]? with
  | some slot => if slot.generation = id.generation then slot.tuple else none
  | none => none

/-- Whether an id stands for a live tuple. -/
def contains (a : Arena) (id : TupleId) : Bool := (a.get? id).isSome

/-- Replace the tuple with the given id, if it is live. -/
def put (a : Arena) (id : TupleId) (tuple : Tuple) : Arena :=
  if a.contains id then
    { a with slots := a.slots.modify id.index ({ · with tuple := some tuple }) }
  else a

/-- Move a tuple in. -/
def alloc (a : Arena) (tuple : Tuple) : TupleId × Arena :=
  match a.free with
  | index :: free =>
    -- the slot is in the generation that began when it was vacated
    let generation := (a.slots[index]?.map (·.generation)).getD 0
    ({ index, generation },
      { slots := a.slots.modify index ({ · with tuple := some tuple }), free })
  | [] =>
    ({ index := a.slots.size, generation := 0 },
      { a with slots := a.slots.push { tuple := some tuple } })

/-- Empty a slot, move on to its next generation and offer it for use again. -/
def vacate (a : Arena) (index : Nat) : Arena where
  slots := a.slots.modify index fun slot => { vacated := slot.vacated + 1, tuple := none }
  free := index :: a.free

/-- The live tuples in the order of their slots. -/
def tuples (a : Arena) : List Tuple := a.slots.toList.filterMap (·.tuple)

/-- Number of live tuples. -/
def liveCount (a : Arena) : Nat := a.tuples.length

/-- Number of attributes of all live tuples. -/
def entryCount (a : Arena) : Nat := (a.tuples.flatMap Tuple.entries).length

/-! ## What an id stands for -/

/-- A live id stands for the tuple that it was given last. -/
theorem get?_put_self {a : Arena} {id : TupleId} (tuple : Tuple) (hlive : a.contains id) :
    (a.put id tuple).get? id = some tuple := by
  simp only [put, hlive, if_true]
  simp only [contains, get?] at hlive ⊢
  cases hslot : a.slots[id.index]? with
  | none => simp [hslot] at hlive
  | some slot =>
    by_cases hgen : slot.generation = id.generation
    · rw [Slot.generation] at hgen
      simp [Array.getElem?_modify, hslot, Slot.generation, hgen]
    · simp [hslot, hgen] at hlive

/-- Replacing a tuple leaves what other ids stand for as it is, those of earlier and later
occupants of the slot included. -/
theorem get?_put_of_ne {a : Arena} {id other : TupleId} (tuple : Tuple) (hne : other ≠ id) :
    (a.put id tuple).get? other = a.get? other := by
  unfold put
  split
  · rename_i hlive
    simp only [contains, get?] at hlive ⊢
    by_cases hindex : id.index = other.index
    · have hgen : id.generation ≠ other.generation := fun hgen =>
        hne (by cases id; cases other; simp_all)
      cases hslot : a.slots[id.index]? with
      | none => simp [hslot] at hlive
      | some slot =>
        by_cases hlive' : slot.generation = id.generation
        · rw [hindex] at hslot
          rw [← hlive', Slot.generation] at hgen
          simp [Array.getElem?_modify, hindex, hslot, Slot.generation, hgen]
        · simp [hslot, hlive'] at hlive
    · simp [Array.getElem?_modify, hindex]
  · rfl

/-- After its slot was vacated an id stands for nothing. -/
theorem get?_vacate_self {a : Arena} {id : TupleId} : (a.vacate id.index).get? id = none := by
  simp only [vacate, get?, Array.getElem?_modify]
  cases a.slots[id.index]? with
  | none => simp
  | some slot => simp

/-- Vacating a slot leaves what the ids of other slots stand for as it is. -/
theorem get?_vacate_of_ne {a : Arena} {index : Nat} {id : TupleId} (hne : id.index ≠ index) :
    (a.vacate index).get? id = a.get? id := by
  simp [vacate, get?, Array.getElem?_modify, hne.symm]

end Arena

end TupleLang
