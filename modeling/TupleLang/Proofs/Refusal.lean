import TupleLang.Proofs.Flight
import TupleLang.Proofs.Freeing
import TupleLang.Proofs.Identity
import TupleLang.Store.Registry

/-!
# Refused operations

An operation that is refused leaves every tuple as it was (`refused_operations_change_nothing`).
Most of them check before they change anything. Three of them work in steps and have to take the
first ones back: appending a new tuple destroys it again, registering a tree type forgets it again
when its constructor cannot be registered, and building a tuple from cells gives up what it has
made.

Whoever builds a tuple hands its cells over for good. When the tuple is refused the cells are given
up, and the tuples that they own go with them: those that it holds already, which have been given
another parent by then, and those that were still to come.
-/

namespace TupleLang

namespace StoreM

variable {α β : Type} {m : StoreM α} {f : α → StoreM β} {s s' s'' : Store} {e : Error}
  {id : TupleId}

/-- Where the program fails, every tuple is as it was. -/
def FailsClean (m : StoreM α) (s : Store) : Prop := ∀ e s', m s = .error e s' → s.Unchanged s'

/-- A sequence of two programs fails when one of them does. -/
theorem bind_eq_error :
    (m >>= f) s = .error e s'' ↔
      m s = .error e s'' ∨ ∃ a s', m s = .ok a s' ∧ f a s' = .error e s'' := by
  change EStateM.bind m f s = .error e s'' ↔ _
  unfold EStateM.bind
  cases m s with
  | ok a s' => simp
  | error e s' => simp

/-- A program with a handler fails when the handler does, after the program did. -/
theorem tryCatch_eq_error {handler : Error → StoreM α} :
    tryCatch m handler s = .error e s'' ↔
      ∃ e' s', m s = .error e' s' ∧ handler e' s' = .error e s'' := by
  change EStateM.tryCatch m handler s = .error e s'' ↔ _
  unfold EStateM.tryCatch
  cases m s with
  | ok a s' => simp
  | error e' s' => exact ⟨fun h => ⟨e', s', rfl, h⟩, by rintro ⟨_, _, hrun, h⟩; cases hrun; exact h⟩

/-- A check does not change the store. -/
theorem eq_of_ofExcept_error {x : Except Error α} (h : ofExcept x s = .error e s') : s' = s := by
  cases x with
  | error e' =>
    cases h
    rfl
  | ok a => cases h

/-- A tuple that is not live is not found. -/
theorem eq_of_tuple_error (h : tuple id s = .error e s') : s' = s :=
  eq_of_ofExcept_error (x := s.tuple id) h

/-- A tuple that refuses a change is left as it is, and so is all else. -/
theorem eq_of_update_error {g : Tuple → Except Error (α × Tuple)}
    (h : update id g s = .error e s') : s' = s := by
  rw [update, bind_eq_error] at h
  rcases h with h | ⟨t, s₁, ht, h⟩
  · exact eq_of_tuple_error h
  · obtain ⟨-, rfl⟩ := tuple_eq_ok.mp ht
    rcases bind_eq_error.mp h with h | ⟨r, s₂, -, h⟩
    · exact eq_of_ofExcept_error h
    · cases h

/-- A heap that refuses a change is left as it is, and so is all else. -/
theorem eq_of_tryHeap_error {g : Heap → Except Error (α × Heap)}
    (h : tryHeap g s = .error e s') : s' = s := by
  rw [tryHeap, bind_eq_error] at h
  rcases h with h | ⟨w, s₁, hget, h⟩
  · cases h
  · cases hget
    rcases bind_eq_error.mp h with h | ⟨r, s₂, -, h⟩
    · exact eq_of_ofExcept_error h
    · cases h

/-- A cell that refuses a change is left as it is, and so is all else. -/
theorem eq_of_updateCell_error {key : Key} {g : Heap → Cell → Except Error (α × Cell × Heap)}
    (h : updateCell id key g s = .error e s') : s' = s := by
  rw [updateCell, bind_eq_error] at h
  rcases h with h | ⟨t, s₁, ht, h⟩
  · exact eq_of_tuple_error h
  · obtain ⟨-, rfl⟩ := tuple_eq_ok.mp ht
    rw [bind_eq_error] at h
    rcases h with h | ⟨⟨pos, cell⟩, s₂, hcell, h⟩
    · exact eq_of_ofExcept_error h
    · obtain ⟨-, rfl⟩ := ofExcept_eq_ok.mp hcell
      rw [bind_eq_error] at h
      rcases h with h | ⟨a, s₃, -, h⟩
      · exact eq_of_tryHeap_error h
      · cases h

/-- A program that leaves the store alone where it fails changes no tuple there. -/
theorem FailsClean.of_eq (h : ∀ e s', m s = .error e s' → s' = s) : m.FailsClean s := by
  intro e s' hrun
  rw [h e s' hrun]
  exact ⟨fun _ => rfl, .refl _, rfl, rfl, rfl⟩

end StoreM

namespace Store

open Relation

variable {base s s' : Store} {id x y : TupleId} {t t' : Tuple} {c : Cell} {e : Error}
  {done rest : List Cell}

/-! ## Operations on one tuple -/

/-- Appending an attribute checks first. -/
theorem failsClean_add (s : Store) (id : TupleId) (name : Option String) (cell : Cell) :
    (StoreM.add id name cell).FailsClean s := by
  refine .of_eq fun e s' hrun => ?_
  rcases add_cases s id name cell with ⟨e', herror⟩ | ⟨pos, t, t', -, -, hok⟩
  · rw [herror] at hrun
    cases hrun
    rfl
  · rw [hok] at hrun
    cases hrun

/-- Removing an attribute checks first, and giving its cell up cannot fail. -/
theorem failsClean_remove (s : Store) (id : TupleId) (key : Key) :
    (StoreM.remove id key).FailsClean s := by
  refine .of_eq fun e s' hrun => ?_
  rcases StoreM.bind_eq_error.mp hrun with hrun | ⟨cell, s₁, -, hrun⟩
  · exact StoreM.eq_of_update_error hrun
  · cases hrun

/-- Registering an action checks first. -/
theorem failsClean_registerAction (s : Store) (id : TupleId) (action : Action) :
    (StoreM.registerAction id action).FailsClean s := .of_eq fun _ _ => StoreM.eq_of_update_error

/-- Storing a value in an attribute checks first. -/
theorem failsClean_setAt (s : Store) (id : TupleId) (key : Key) (n : Native) (v : n.Carrier) :
    (StoreM.setAt id key n v).FailsClean s := .of_eq fun _ _ => StoreM.eq_of_updateCell_error

/-! ## Operations that take a first step back -/

/-- Forgetting the type that was registered last, under a name that was free. -/
theorem removeType_of_insertType {name : String} {type : TypeDesc}
    (h : t.insertType name type = .ok t') : t'.removeType name = t := by
  have hfree : t.localType? name = none := by
    simp only [Tuple.insertType, Tuple.require, bind, Except.bind, throw, throwThe,
      MonadExceptOf.throw, pure, Except.pure] at h
    split at h
    · cases h
    split at h
    · cases h
    · exact Option.not_isSome_iff_eq_none.mp ‹_›
  -- so the filter takes away the new entry and no other
  have hothers : t.types.filter (·.1 != name) = t.types := by
    refine List.filter_eq_self.mpr fun p hp => bne_iff_ne.mpr ?_
    rintro rfl
    exact absurd rfl (List.lookup_eq_none_iff.mp hfree p hp |> bne_iff_ne.mp)
  rw [Tuple.insertType_eq_ok h, Tuple.removeType]
  simp [hothers]

/-- A type whose constructor cannot be registered is forgotten again. -/
theorem failsClean_registerType (s : Store) (id : TupleId) (name : String) (type : TypeDesc) :
    (StoreM.registerType id name type).FailsClean s := by
  intro e s' hrun
  rw [StoreM.registerType, StoreM.bind_eq_error] at hrun
  rcases hrun with hrun | ⟨u, s₁, hregister, hrun⟩
  · exact StoreM.FailsClean.of_eq (fun _ _ => StoreM.eq_of_update_error) e s' hrun
  obtain ⟨t, t', ht, hinsert, rfl⟩ := StoreM.update_eq_ok.mp hregister
  -- the type itself has been registered
  replace hinsert : t.insertType name type = .ok t' := by
    cases hinsert' : t.insertType name type with
    | ok t'' =>
      rw [hinsert'] at hinsert
      cases hinsert
      rfl
    | error e =>
      rw [hinsert'] at hinsert
      cases hinsert
  split at hrun
  · cases hrun
  have hput := tuple?_putTuple ht t'
  have hlive : (s.putTuple id t').tuple? id = some t' := by rw [hput, if_pos rfl]
  change (if _ then pure () else tryCatch _ _ : StoreM Unit) (s.putTuple id t') =
    .error e s' at hrun
  split at hrun
  · cases hrun
  -- the constructor is refused, and the handler finds the tuple with its new type
  obtain ⟨e', s₂, hrefused, hrun⟩ := StoreM.tryCatch_eq_error.mp hrun
  obtain rfl := StoreM.eq_of_update_error hrefused
  rw [StoreM.bind_eq_error] at hrun
  rcases hrun with hrun | ⟨w, s₃, hget, hrun⟩
  · cases hrun
  · cases hget
    simp only [hlive] at hrun
    cases hrun
    refine ⟨fun x => ?_, .refl _, rfl, rfl, rfl⟩
    rw [tuple?_putTuple hlive, hput, removeType_of_insertType hinsert]
    by_cases hx : x = id
    · rw [if_pos hx, hx, ht]
    · rw [if_neg hx, if_neg hx]

/-- A new tuple that cannot be appended is destroyed again. -/
theorem failsClean_addTuple (hs : s.Sound) (id : TupleId) (name : Option String)
    (kind : TupleKind) : (StoreM.addTuple id name kind).FailsClean s := by
  intro e s' hrun
  obtain ⟨hnew, -, hroot, hcreate⟩ := trade_create hs kind (some id)
  -- the new tuple is live, so that its type can be asked for
  rw [addTuple_run] at hrun
  generalize s.create kind (some id) = created at *
  have htype : created.2.typeOf created.1 = .ok (Tuple.typeDesc
      { kind, permissions := kind.fixedPermissions?.getD {}, parent := some id }) := by
    rw [typeOf, tuple, hnew]
    rfl
  simp only [htype] at hrun
  generalize Tuple.typeDesc _ = type at hrun
  -- a place for the cell is added to the heap, which holds no tuple
  let made : Store :=
    { created.2 with heap := (Cell.make created.2.heap type (.tuple created.1)).2 }
  have hmade : created.2.Trade [created.1] made [created.1] :=
    { Trade.refl hcreate.sound [created.1] with
      sound := ⟨hcreate.sound.arena, hcreate.sound.root_live⟩
      heap := Cell.grows_make _ type _ }
  -- the new tuple is empty: destroying it takes no other tuple along
  have hdestroy : made.Trade [created.1] (made.destroy created.1) [] := by
    refine Owns.destroy (?_ : made.Owns _ []) hmade.sound hnew (by simp) ?_
    · exact .nil
    · rw [show made.root = created.2.root from rfl, hcreate.root]
      simpa using hroot.symm
  rcases add_cases made id name (Cell.make created.2.heap type (.tuple created.1)).1 with
    ⟨e', herror⟩ | ⟨pos, t, t', -, -, hok⟩
  · rw [herror] at hrun
    cases hrun
    exact ((hcreate.trans hmade).trans hdestroy).unchanged
  · rw [hok] at hrun
    cases hrun

/-! ## Building a tuple -/

/-- The store has come about from `base` by making the tuple `id` and filling it with the cells
`done`: the tuples that these own have been given another parent, and all else is as it was. -/
structure Filled (base : Store) (id : TupleId) (done : List Cell) (s : Store) : Prop where
  sound : s.Sound
  but : base.SameButArena s
  fresh : base.tuple? id = none
  live : ∃ t, s.tuple? id = some t ∧ t.cells = done
  others : ∀ x ≠ id, (s.tuple? x).map Tuple.orphan = (base.tuple? x).map Tuple.orphan
  untouched : ∀ x ≠ id, (∀ c ∈ done, c.ownedTuple? base.heap ≠ some x) → s.tuple? x = base.tuple? x

/-- A new tuple has no cells yet. -/
theorem filled_create (hs : s.Sound) (kind : TupleKind) (parent : Option TupleId) :
    s.Filled (s.create kind parent).1 [] (s.create kind parent).2 := by
  obtain ⟨hnew, hfresh, -, htrade⟩ := trade_create hs kind parent
  have hsame : ∀ x ≠ (s.create kind parent).1, (s.create kind parent).2.tuple? x = s.tuple? x :=
    fun x hx => htrade.same x (by simp) (by simpa using hx)
  exact ⟨htrade.sound, ⟨rfl, rfl, rfl, rfl⟩, hfresh, ⟨_, hnew, rfl⟩,
    fun x hx => by rw [hsame x hx], fun x hx _ => hsame x hx⟩

namespace Filled

/-- One more cell. -/
theorem insert (h : base.Filled id done s) {name : Option String} {pos : Nat}
    (ht : s.tuple? id = some t) (hinsert : t.insertInitial name c = .ok (pos, t')) :
    base.Filled id (done ++ [c]) ((s.putTuple id t').adoptOwned id (c.ownedTuple? s.heap)) := by
  have hput := tuple?_putTuple ht t'
  have hadopt := tuple?_adoptOwned (s.putTuple id t') id (c.ownedTuple? s.heap)
  obtain ⟨hsound, hbut⟩ := (h.sound.putTuple ht t').adoptOwned id (c.ownedTuple? s.heap)
  have hcells : t'.cells = done ++ [c] := by
    obtain ⟨u, hu, rfl⟩ := h.live
    rw [ht] at hu
    cases hu
    rw [Tuple.insertInitial_eq_ok hinsert]
    simp [Tuple.cells]
  refine ⟨hsound, h.but.trans ⟨hbut.heap, hbut.forms, hbut.root, hbut.settings⟩, h.fresh, ?_,
    fun x hx => ?_, fun x hx hdone => ?_⟩
  · -- the cell may own the very tuple that takes it, which then has itself as its parent
    have hid := (hadopt id).1
    rw [hput, if_pos rfl, Option.map_some, Option.map_eq_some_iff] at hid
    obtain ⟨u, hu, horphan⟩ := hid
    exact ⟨u, hu, (congrArg Tuple.cells horphan).trans hcells⟩
  · rw [(hadopt x).1, hput, if_neg hx, h.others x hx]
  · rw [(hadopt x).2 ?_, hput, if_neg hx, h.untouched x hx fun d hd => hdone d (by simp [hd])]
    rw [h.but.heap]
    exact hdone c (by simp)

/-- Filling a tuple lets it own what its cells do, and changes nothing else about ownership. -/
theorem owning_iff (h : base.Filled id done s) :
    s.Owning x y ↔ if x = id then base.OwnedBy done y else base.Owning x y := by
  unfold Owning OwnedBy
  rw [h.but.root, h.but.heap]
  split
  · rename_i hx
    subst hx
    obtain ⟨t, ht, rfl⟩ := h.live
    simp [ht, Tuple.cells]
  · rename_i hx
    -- another parent does not change what a tuple holds
    have hentries : (s.tuple? x).map Tuple.entries = (base.tuple? x).map Tuple.entries := by
      have hsame := congrArg (Option.map Tuple.entries) (h.others x hx)
      rwa [Option.map_map, Option.map_map] at hsame
    cases hnow : s.tuple? x with
    | none =>
      have hbase : base.tuple? x = none := by simpa [hnow] using hentries.symm
      simp [hbase]
    | some t =>
      rw [hnow, Option.map_some, eq_comm, Option.map_eq_some_iff] at hentries
      obtain ⟨u, hu, hentries⟩ := hentries
      simp [hu, hentries]

/-- What can be reached before the tuple is made can be reached when it has been filled. -/
theorem owning_le (h : base.Filled id done s) : base.Owning ≤ s.Owning := by
  intro x y hxy
  rw [h.owning_iff, if_neg]
  · exact hxy
  · rintro rfl
    obtain ⟨-, t, ht, -⟩ := hxy
    rw [h.fresh] at ht
    cases ht

/-- What can be reached from the tuple or from cells that are still to come is the tuple itself and
what could be reached from all the cells before. -/
theorem reached_iff (h : base.Filled id done s) :
    s.Reached rest x ∨ ReflTransGen s.Owning id x ↔ x = id ∨ base.Reached (done ++ rest) x := by
  have hownedBy : s.OwnedBy rest = base.OwnedBy rest := by
    funext y
    rw [OwnedBy, OwnedBy, h.but.root, h.but.heap]
  -- from the tuple one comes to what its cells own, from elsewhere to where one came before
  have hstep : ∀ x y, x = id ∨ base.Reached (done ++ rest) x → s.Owning x y →
      base.Reached (done ++ rest) y := by
    intro x y hx hxy
    rw [h.owning_iff] at hxy
    split at hxy
    · exact ⟨y, ownedBy_append.mpr (.inl hxy), .refl⟩
    · obtain ⟨z, hz, hzx⟩ := hx.resolve_left ‹_›
      exact ⟨z, hz, hzx.tail hxy⟩
  have hclosed : ∀ y x, y = id ∨ base.Reached (done ++ rest) y → ReflTransGen s.Owning y x →
      x = id ∨ base.Reached (done ++ rest) x := by
    intro y x hy hyx
    induction hyx with
    | refl => exact hy
    | tail _ hxy ih => exact .inr (hstep _ _ ih hxy)
  constructor
  · rintro (⟨y, hy, hyx⟩ | hx)
    · rw [hownedBy] at hy
      exact hclosed y x (.inr ⟨y, ownedBy_append.mpr (.inr hy), .refl⟩) hyx
    · exact hclosed id x (.inl rfl) hx
  · rintro (rfl | ⟨y, hy, hyx⟩)
    · exact .inr .refl
    · -- a way from a cell that the tuple holds is now a way from the tuple
      replace hyx := ReflTransGen.mono h.owning_le y x hyx
      rcases ownedBy_append.mp hy with hy | hy
      · exact .inr (.head (h.owning_iff.mpr (by rwa [if_pos rfl])) hyx)
      · exact .inl ⟨y, by rwa [hownedBy], hyx⟩

/-- After a refusal the cells that were still to come are given up, and then the tuple with those
that it holds. What could be reached from any of them is gone, and all else is as before the tuple
was made, provided that the tuple has not become the parent of the root scope. -/
theorem refused (h : base.Filled id done s) (hid : id ≠ base.root)
    (hroot : ∀ c ∈ done, c.ownedTuple? base.heap ≠ some base.root) (rest : List Cell) :
    base.Without (base.Reached (done ++ rest)) ((s.releaseAll rest).destroy id) := by
  have hrelease := without_releaseAll s rest
  have hdestroy : (s.releaseAll rest).Without (ReflTransGen (s.releaseAll rest).Owning id)
      ((s.releaseAll rest).destroy id) :=
    without_destroy (by rwa [hrelease.but.root, h.but.root])
  -- both steps together, in terms of what could be reached before the tuple was made
  have hboth : s.Without (fun x => x = id ∨ base.Reached (done ++ rest) x)
      ((s.releaseAll rest).destroy id) :=
    (hrelease.andThen (fun x y ⟨z, hz, hzx⟩ hxy => ⟨z, hz, hzx.tail hxy⟩) (· = id)
      (by simpa using hdestroy)).congr fun x _ => by simpa using h.reached_iff
  refine ⟨h.but.trans hboth.but, fun x hx => hboth.gone x (.inr hx), fun x hx => ?_⟩
  by_cases hxid : x = id
  · rw [hboth.gone x (.inl hxid), hxid, h.fresh]
  · rw [hboth.kept x fun hP => hP.elim hxid hx]
    -- a tuple that one of the cells owns could be reached, unless it is the root scope
    refine h.untouched x hxid fun c hc hown => hx ⟨x, ⟨?_, c, ?_, hown⟩, .refl⟩
    · rintro rfl
      exact hroot c hc hown
    · exact List.mem_append_left _ hc

/-- Filling a tuple further: where it is refused, what could be reached from any of the cells is
gone and all else is as before. -/
theorem fill_error (entries : List (Option String × Cell)) {s : Store} {done : List Cell}
    (h : base.Filled id done s) (hid : id ≠ base.root)
    (hroot : ∀ c ∈ done ++ entries.map (·.2), c.ownedTuple? base.heap ≠ some base.root)
    (hrun : StoreM.fill id entries s = .error e s') :
    base.Without (base.Reached (done ++ entries.map (·.2))) s' := by
  induction entries generalizing s done with
  | nil => cases hrun
  | cons entry rest ih =>
    -- one more cell is taken in, or this one is refused and ends the filling
    obtain ⟨name, cell⟩ := entry
    obtain ⟨t, ht, -⟩ := h.live
    rw [fill_cons ht] at hrun
    cases hinsert : t.insertInitial name cell with
    | ok r =>
      obtain ⟨pos, t'⟩ := r
      rw [hinsert] at hrun
      have hnext := ih (h.insert ht hinsert) (by simpa using hroot) hrun
      simpa using hnext
    | error e' =>
      rw [hinsert] at hrun
      cases hrun
      exact h.refused hid (fun c hc => hroot c (List.mem_append_left _ hc)) _

end Filled

/-- Building a tuple from cells: where it is refused, what could be reached from the cells is gone
and all else is as before. -/
theorem createFrom_error (hs : s.Sound) {kind : TupleKind} {parent : Option TupleId}
    {entries : List (Option String × Cell)}
    (hroot : ∀ c ∈ entries.map (·.2), c.ownedTuple? s.heap ≠ some s.root)
    (hrun : StoreM.createFrom kind parent entries s = .error e s') :
    s.Without (s.Reached (entries.map (·.2))) s' := by
  rw [StoreM.createFrom, StoreM.bind_eq_error] at hrun
  rcases hrun with hrun | ⟨id, s₁, hcreate, hrun⟩
  · cases hrun
  · cases hcreate
    rw [StoreM.bind_eq_error] at hrun
    rcases hrun with hrun | ⟨_, _, -, hrun⟩
    · exact (filled_create hs kind parent).fill_error entries (trade_create hs kind parent).2.2.1
        hroot hrun
    · cases hrun

/-! ## The whole -/

/-- Where an operation is refused, the live tuples are those that were live before, each with the
same kind, permissions, parent, attributes, name index, types and actions, and their cells hold what
they held. Where a tuple cannot be built from cells, this holds of all tuples that cannot be reached
from those that the cells own, and the others are gone. -/
theorem refused_operations_change_nothing (hs : s.Sound) :
    (∀ id name cell, (StoreM.add id name cell).FailsClean s) ∧
    (∀ id name kind, (StoreM.addTuple id name kind).FailsClean s) ∧
    (∀ id key, (StoreM.remove id key).FailsClean s) ∧
    (∀ id name type, (StoreM.registerType id name type).FailsClean s) ∧
    (∀ id action, (StoreM.registerAction id action).FailsClean s) ∧
    (∀ id key n v, (StoreM.setAt id key n v).FailsClean s) ∧
    ∀ kind parent entries e s', (∀ c ∈ entries.map (·.2), c.ownedTuple? s.heap ≠ some s.root) →
      StoreM.createFrom kind parent entries s = .error e s' →
      s.Without (s.Reached (entries.map (·.2))) s' :=
  ⟨failsClean_add s, failsClean_addTuple hs, failsClean_remove s, failsClean_registerType s,
    failsClean_registerAction s, failsClean_setAt s,
    fun _ _ _ _ _ hroot hrun => createFrom_error hs hroot hrun⟩

/-- In the ring, a tuple with two attributes of one name cannot be built. The first of its cells
owns the second tuple of the ring: both tuples of the ring are gone, the third one is as it was. An
attribute that is not there cannot be removed, and then nothing happens. -/
theorem refused_operations_change_nothing_ring :
    let s := ringStore
    let entries : List (Option String × Cell) :=
      [(some "x", ⟨.leaf "dynamic", 2, true, none⟩), (some "x", ⟨.leaf "dynamic", 1, false, none⟩)]
    s.Sound ∧ (∀ c ∈ entries.map (·.2), c.ownedTuple? s.heap ≠ some s.root) ∧
      (∃ s', StoreM.createFrom .plain none entries s = .error (.duplicateName "x") s' ∧
        s'.tuple? ⟨1, 0⟩ = none ∧ s'.tuple? ⟨3, 0⟩ = s.tuple? ⟨3, 0⟩) ∧
      ∃ e s', StoreM.remove ⟨1, 0⟩ (.name "x") s = .error e s' ∧ s.Unchanged s' := by
  intro s entries
  have hs : s.Sound := ⟨Arena.sound_of_full rfl rfl, _, rfl⟩
  have hroot : ∀ c ∈ entries.map (·.2), c.ownedTuple? s.heap ≠ some s.root := by decide
  obtain ⟨-, -, hremove, -, -, -, hbuild⟩ := refused_operations_change_nothing hs
  refine ⟨hs, hroot, ?_, ?_⟩
  · obtain ⟨s', hrun⟩ : ∃ s', StoreM.createFrom .plain none entries s =
        .error (.duplicateName "x") s' := ⟨_, rfl⟩
    have hwithout := hbuild _ _ _ _ _ hroot hrun
    -- the first cell owns the second tuple, which owns the first one
    have howned : s.OwnedBy (entries.map (·.2)) ⟨2, 0⟩ := ⟨by decide, _, List.mem_cons_self, rfl⟩
    have hback : s.Owning ⟨2, 0⟩ ⟨1, 0⟩ := ⟨by decide, _, rfl, _, List.mem_cons_self, rfl⟩
    refine ⟨s', hrun, hwithout.gone _ ⟨_, howned, .single hback⟩, hwithout.kept _ ?_⟩
    rintro ⟨y, ⟨-, c, hc, hown⟩, hreach⟩
    rcases hreach.cases_tail with rfl | ⟨x, -, hown⟩
    · exact absurd hown (by revert c; decide)
    · exact not_owning_ring x hown
  · obtain ⟨e, s', hrun⟩ : ∃ e s', StoreM.remove ⟨1, 0⟩ (.name "x") s = .error e s' := ⟨_, _, rfl⟩
    exact ⟨e, s', hrun, hremove _ _ e s' hrun⟩

end Store

end TupleLang
