import TupleLang.Proofs.Making

/-!
# Ids stand for one tuple

A host changes a store by a few operations. As long as none of them closes a circle of tuples that
own each other, and no slot has been vacated 2³² times, the arena stays sound, and an id stands for
nothing but the tuple that it was issued for (`ids_are_not_issued_again`). Nothing keeps a host from
appending a tuple to itself; when it is destroyed, its slot is offered twice
(`slot_of_self_owner_is_offered_twice`).
-/

namespace TupleLang

/-! ## Operations -/

/-- A change that a host makes to a store. Attributes are given by their types and values. -/
inductive Operation where
  | create (kind : TupleKind) (parent : Option TupleId)
  | createWith (kind : TupleKind) (permissions : Permissions) (parent : Option TupleId)
  | createFrom (kind : TupleKind) (parent : Option TupleId)
      (attributes : List (Option String × TypeDesc × Value))
  | add (id : TupleId) (name : Option String) (type : TypeDesc) (value : Value)
  | addTuple (id : TupleId) (name : Option String) (kind : TupleKind)
  | remove (id : TupleId) (key : Key)
  | clear (id : TupleId)
  | destroy (id : TupleId)
  | release (type : TypeDesc) (value : Value)
  | duplicate (type : TypeDesc) (value : Value)

namespace Operation

/-- Cells for new attributes. -/
def newCells : List (Option String × TypeDesc × Value) → StoreM (List (Option String × Cell))
  | [] => pure []
  | (name, type, value) :: rest => do
    let cell ← StoreM.newCell type value
    return (name, cell) :: (← newCells rest)

/-- Carry an operation out. -/
def perform : Operation → StoreM Unit
  | create kind parent => do let _ ← StoreM.change (·.create kind parent)
  | createWith kind permissions parent => do
    let _ ← StoreM.change (·.createWith kind permissions parent)
  | createFrom kind parent attributes => do
    let _ ← StoreM.createFrom kind parent (← newCells attributes)
  | add id name type value => do
    let _ ← StoreM.add id name (← StoreM.newCell type value)
  | addTuple id name kind => do let _ ← StoreM.addTuple id name kind
  | remove id key => StoreM.remove id key
  | clear id => StoreM.clear id
  | destroy id => modify (·.destroy id)
  | release type value => do
    let cell ← StoreM.newCell type value
    modify (·.release cell)
  | duplicate type value => do
    let _ ← StoreM.duplicate (← StoreM.newCell type value)

/-- Values of the attributes that an operation brings along. -/
def values : Operation → List Value
  | createFrom _ _ attributes => attributes.map (·.2.2)
  | add _ _ _ value | release _ value | duplicate _ value => [value]
  | _ => []

/-- Whether the operation appends to a tuple that is there already. -/
def appends : Operation → Bool
  | add .. | addTuple .. => true
  | _ => false

/-- The attributes hold tuples only by ids that have been issued. -/
def Admissible (op : Operation) (s : Store) : Prop :=
  ∀ value ∈ op.values, ∀ id, value.tupleId? = some id → s.arena.Issued id

end Operation

namespace Store

open Relation

variable {s s' : Store} {id : TupleId} {t t' : Tuple} {cell : Cell} {M : Set TupleId}

/-! ## Steps -/

/-- A host carries out an operation that closes no circle of tuples that own each other, and wears
out no slot. -/
def Step (s s' : Store) : Prop :=
  ∃ op : Operation, op.Admissible s ∧ s' = op.perform.after s ∧ (op.appends → s'.Acyclic) ∧
    s'.arena.Young

/-- The second store has come from the first, and is orderly if its containment is acyclic and its
slots are young. -/
structure Settles (s s' : Store) : Prop where
  ages : s.Ages s'
  orderly : s'.Acyclic → s'.arena.Young → s'.Orderly

/-- Programs that build tuples leave an orderly store behind. -/
theorem orderly_of_leads {α : Type} {m : StoreM α} {Q : Store → α → Prop} {E : Error → Prop}
    (h : (making M).Leads s s m Q E) :
    s.Ages (m.after s) ∧ ((m.after s).arena.Young → (m.after s).Orderly) := by
  unfold Regime.Leads at h
  unfold StoreM.after
  split
  · rename_i hrun
    simp only [hrun] at h
    obtain ⟨v, hages, ⟨rfl, horderly⟩, -⟩ := h
    exact ⟨hages, fun hyoung => (horderly hyoung).1⟩
  · rename_i hrun
    simp only [hrun] at h
    obtain ⟨-, v, hages, ⟨rfl, horderly⟩⟩ := h
    exact ⟨hages, fun hyoung => (horderly hyoung).1⟩

/-- Taking attributes away from a tuple keeps a store orderly. -/
theorem keeps_update_subset {α : Type} {f : Tuple → Except Error (α × Tuple)}
    (hf : ∀ t a t', f t = .ok (a, t') → t'.entries ⊆ t.entries) (id : TupleId) (w : Store) :
    (making M).Keeps w (StoreM.update id f) (fun _ _ => True) fun _ => True := by
  intro v hv s hs
  refine .update hs (fun t a t' ht hrun => ?_) trivial fun _ _ _ => trivial
  obtain ⟨rfl, hs⟩ := hs
  have hages := Ages.putTuple v id t'
  have hloses := loses_putTuple ht (hf t a t' hrun)
  refine ⟨_, hages, holds_making_of hages ⟨rfl, hs⟩ fun horderly hM _ => ?_, trivial⟩
  exact ⟨horderly.of_loses (horderly.sound.putTuple ht t') hloses hages,
    fun z hz x hx => (hM z hz).2 x (hloses.owning x z hx)⟩

/-- New attributes are firm if their tuples have been issued. -/
theorem keeps_newCells (attributes : List (Option String × TypeDesc × Value)) (w : Store)
    (hissued : ∀ value ∈ attributes.map (·.2.2), ∀ y, value.tupleId? = some y → w.arena.Issued y) :
    (making ∅).Keeps w (Operation.newCells attributes) (fun v cells => ∀ p ∈ cells, Fits ∅ v p.2)
      fun _ => True := by
  induction attributes generalizing w with
  | nil => exact .pure fun _ _ p hp => by simp at hp
  | cons entry rest ih =>
    obtain ⟨name, type, value⟩ := entry
    unfold Operation.newCells
    have hcell := keeps_newCell type (M := ∅) (w := w) (hissued value (by simp)) (by simp)
    refine .bind hcell fun cell v hv hcell => .bind (ih v ?_) fun cells u hu hcells => .pure ?_
    · exact fun value hvalue y hy => hv.arena.issued (hissued value (by simp_all) y hy)
    · intro u' hu' p hp
      rcases List.mem_cons.mp hp with rfl | hp
      · exact hcell.ages (hu.trans hu')
      · exact (hcells p hp).ages hu'

/-- Appending an attribute to a tuple changes nothing, or appends it. -/
theorem add_cases (s : Store) (id : TupleId) (name : Option String) (cell : Cell) :
    (∃ e, StoreM.add id name cell s = .error e s) ∨
      ∃ pos t t', s.tuple? id = some t ∧ t'.entries = t.entries ++ [⟨name, cell⟩] ∧
        StoreM.add id name cell s =
          .ok pos ((s.putTuple id t').adoptOwned id (cell.ownedTuple? s.heap)) := by
  simp only [StoreM.add, StoreM.update, StoreM.tuple, tuple, bind, EStateM.bind, get, getThe,
    MonadStateOf.get, EStateM.get]
  cases ht : s.tuple? id with
  | none => exact .inl ⟨_, rfl⟩
  | some t =>
    simp only [StoreM.ofExcept, pure, EStateM.pure]
    cases hinsert : t.insert name cell with
    | error e => exact .inl ⟨e, rfl⟩
    | ok r =>
      obtain ⟨pos, t'⟩ := r
      refine .inr ⟨pos, t, t', rfl, ?_, rfl⟩
      simp only [Tuple.insert, Tuple.require] at hinsert
      split at hinsert
      · rw [Tuple.insertInitial_eq_ok hinsert]
      · cases hinsert

/-- Appending a firm cell to a tuple leaves an orderly store behind, unless it closes a circle. -/
theorem settles_add (h : (making M).Holds s s) (hcell : Firm s cell) (id : TupleId)
    (name : Option String) :
    (∃ e, StoreM.add id name cell s = .error e s) ∨
      ∃ pos s', StoreM.add id name cell s = .ok pos s' ∧ s.Settles s' := by
  rcases add_cases s id name cell with herror | ⟨pos, t, t', ht, hentries, hrun⟩
  · exact .inl herror
  · refine .inr ⟨pos, _, hrun, ?_⟩
    have hput := Ages.putTuple s id t'
    have hadopt := Ages.adoptOwned (s.putTuple id t') id (cell.ownedTuple? s.heap)
    refine ⟨hput.trans hadopt, fun hacyclic hyoung => ?_⟩
    have hyoung' := (hput.trans hadopt).arena.young hyoung
    obtain ⟨horderly, -⟩ := h.2 hyoung'
    have hsound := horderly.sound.putTuple ht t'
    -- the tuple that moves in gets a new scope and keeps its attributes
    have hloses := loses_adoptOwned (s.putTuple id t') id (cell.ownedTuple? s.heap) hsound
    refine ⟨(hsound.adoptOwned id _).1, hacyclic, fun x u hu e he => hadopt.grounded ?_⟩
    obtain ⟨u', hu', hsub⟩ := hloses.tuples x u hu
    exact horderly.grounded_append ht hentries (hcell hyoung') x u' hu' e (hsub he)

/-- Appending a new tuple: it is created and then appended, or else destroyed again. -/
theorem addTuple_run (s : Store) (id : TupleId) (name : Option String) (kind : TupleKind) :
    let created := s.create kind (some id)
    StoreM.addTuple id name kind s =
      match created.2.typeOf created.1 with
      | .error e => .error e created.2
      | .ok type =>
        let made := Cell.make created.2.heap type (.tuple created.1)
        match StoreM.add id name made.1 { created.2 with heap := made.2 } with
        | .ok _ s' => .ok created.1 s'
        | .error e s' => .error e (s'.destroy created.1) := by
  intro created
  simp only [StoreM.addTuple, bind, EStateM.bind, StoreM.change, get, getThe, MonadStateOf.get,
    EStateM.get]
  rw [show s.create kind (some id) = created from rfl]
  clear_value created
  cases created.2.typeOf created.1 with
  | error e => rfl
  | ok type =>
    simp only [StoreM.ofExcept, pure, EStateM.pure, StoreM.newCell, StoreM.onHeap, StoreM.change,
      tryCatch, tryCatchThe, MonadExceptOf.tryCatch, EStateM.tryCatch, EStateM.bind]
    cases StoreM.add id name (Cell.make created.2.heap type (.tuple created.1)).1
      { created.2 with heap := (Cell.make created.2.heap type (.tuple created.1)).2 } with
    | ok pos s' => rfl
    | error e s' => rfl

/-- Appending a new tuple leaves an orderly store behind, unless it closes a circle. -/
theorem settles_addTuple (h : (making M).Holds s s) (id : TupleId) (name : Option String)
    (kind : TupleKind) : s.Settles ((StoreM.addTuple id name kind).after s) := by
  let new : Tuple := { kind, permissions := kind.fixedPermissions?.getD {}, parent := some id }
  obtain ⟨hmade, hissued⟩ := holds_alloc h (show new.entries = [] from rfl)
  have hages : s.Ages (s.create kind (some id)).2 := Ages.createWith s kind {} (some id)
  replace hmade : (making M).Holds (s.create kind (some id)).2 (s.create kind (some id)).2 :=
    ⟨rfl, fun hyoung => ⟨(hmade.2 hyoung).1, fun z hz => (hmade.2 hyoung).2 z (.inr hz)⟩⟩
  replace hissued : s.arena.Young → (s.create kind (some id)).2.arena.Issued
    (s.create kind (some id)).1 := fun hyoung => (hissued hyoung).2
  rw [StoreM.after, addTuple_run]
  generalize s.create kind (some id) = created at *
  cases created.2.typeOf created.1 with
  | error e => exact ⟨hages, fun _ hyoung => (hmade.2 hyoung).1⟩
  | ok type =>
    have hnew := holds_make hmade type (.tuple created.1)
    have hmake := hages.trans (.make created.2 type (.tuple created.1))
    have hcell := firm_make (s := created.2) type (v := .tuple created.1) fun hyoung y hy => by
      cases hy
      exact hissued (hages.arena.young hyoung)
    dsimp only
    rcases settles_add hnew hcell id name with ⟨e, hrun⟩ | ⟨pos, s', hrun, hsettles⟩
    · rw [hrun]
      -- where the attribute is refused the new tuple is destroyed again
      obtain ⟨v, hlater, rfl, horderly⟩ := moves_destroy created.1 _ _ (.refl _) _ hnew
      exact ⟨hmake.trans hlater, fun _ hyoung => (horderly hyoung).1⟩
    · rw [hrun]
      exact ⟨hmake.trans hsettles.ages, hsettles.orderly⟩

/-- Every operation leaves an orderly store behind, unless it closes a circle. -/
theorem Orderly.perform (h : s.Orderly) {op : Operation} (hop : op.Admissible s)
    (hacyclic : op.appends → (op.perform.after s).Acyclic) :
    s.Ages (op.perform.after s) ∧
      ((op.perform.after s).arena.Young → (op.perform.after s).Orderly) := by
  have hs : (making ∅).Holds s s := ⟨rfl, fun _ => ⟨h, by simp⟩⟩
  -- operations that only build and give up are programs of the regime of making
  have hbuild : (making ∅).Keeps s op.perform (fun _ _ => True) (fun _ => True) →
      s.Ages (op.perform.after s) ∧
        ((op.perform.after s).arena.Young → (op.perform.after s).Orderly) :=
    fun hkeeps => orderly_of_leads (hkeeps s (.refl s) s hs)
  -- those that put an attribute into a tuple may close a circle, which `hacyclic` excludes
  have hsettle : op.appends → s.Settles (op.perform.after s) → s.Ages (op.perform.after s) ∧
      ((op.perform.after s).arena.Young → (op.perform.after s).Orderly) :=
    fun happends hsettles => ⟨hsettles.ages, hsettles.orderly (hacyclic happends)⟩
  cases op with
  | create kind parent =>
    exact hbuild (keeps_createWith fun _ _ _ _ _ _ => .pure fun _ _ => trivial)
  | createWith kind permissions parent =>
    exact hbuild (keeps_createWith fun _ _ _ _ _ _ => .pure fun _ _ => trivial)
  | createFrom kind parent attributes =>
    refine hbuild (.bind (keeps_newCells attributes s hop) fun cells v _ hcells => ?_)
    exact .andThen (keeps_createFrom kind parent cells v hcells) fun _ _ _ =>
      .pure fun _ _ => trivial
  | add id name type value =>
    refine hsettle rfl ?_
    clear hsettle hbuild hacyclic
    have hcell : Firm _ (Cell.make s.heap type value).1 :=
      firm_make type fun _ => hop value (by simp [Operation.values])
    have hnew : StoreM.newCell type value s = .ok (Cell.make s.heap type value).1
      { s with heap := (Cell.make s.heap type value).2 } := rfl
    rw [Operation.perform, StoreM.after_bind_ok hnew]
    rcases settles_add (holds_make hs type value) hcell id name with ⟨e, hrun⟩ |
      ⟨pos, s', hrun, hsettles⟩
    · rw [StoreM.after_bind_error hrun]
      exact ⟨.make s type value, fun _ hyoung => ((holds_make hs type value).2 hyoung).1⟩
    · rw [StoreM.after_bind_ok hrun]
      exact ⟨(Ages.make s type value).trans hsettles.ages, hsettles.orderly⟩
  | addTuple id name kind =>
    refine hsettle rfl ?_
    clear hsettle hbuild hacyclic
    have hsettles := settles_addTuple hs id name kind
    rw [Operation.perform]
    cases hrun : StoreM.addTuple id name kind s with
    | ok k s' =>
      rw [StoreM.after, hrun] at hsettles
      rw [StoreM.after_bind_ok hrun]
      exact hsettles
    | error e s' =>
      rw [StoreM.after, hrun] at hsettles
      rw [StoreM.after_bind_error hrun]
      exact hsettles
  | remove id key =>
    refine hbuild (.andThen (keeps_update_subset (fun t a t' h => ?_) id s) fun cell v _ =>
      .modify (moves_release cell v))
    obtain ⟨pos, htake⟩ := Tuple.take_eq_ok h
    rw [htake]
    exact List.eraseIdx_subset
  | clear id =>
    refine hbuild (.andThen (keeps_update_subset ?_ id s) fun cells v _ =>
      .modify (moves_releaseAll cells v))
    rintro t a t' hdrain
    cases hdrain
    simp
  | destroy id => exact hbuild (.modify (moves_destroy id s))
  | release type value =>
    refine hbuild (.bind (keeps_newCell type (hop value (by simp [Operation.values])) (by simp))
      fun cell v _ _ => .modify (moves_release cell v))
  | duplicate type value =>
    refine hbuild (.bind (keeps_newCell type (hop value (by simp [Operation.values])) (by simp))
      fun cell v _ _ => .andThen (keeps_duplicate v) fun _ _ _ => .pure fun _ _ => trivial)

/-! ## Runs -/

/-- The only slot of a store with nothing but its root scope holds a tuple without attributes. -/
theorem slots_bare {settings : Settings} {i : Nat} {slot : Slot}
    (h : (bare settings).arena.slots[i]? = some slot) :
    slot.vacated = 0 ∧ ∀ t, slot.tuple = some t → t.entries = [] := by
  change #[_][i]? = some slot at h
  cases i with
  | zero =>
    cases h
    exact ⟨rfl, fun t ht => by cases ht; rfl⟩
  | succ i => simp at h

/-- A store with nothing but its root scope is orderly. -/
theorem orderly_bare (settings : Settings) : (bare settings).Orderly := by
  have hempty : ∀ x t, (bare settings).tuple? x = some t → t.entries = [] := by
    intro x t ht
    obtain ⟨n, hslot, -⟩ := Arena.get?_eq_some_iff.mp ht
    exact (slots_bare hslot).2 t rfl
  refine ⟨sound_bare settings, fun x hx => ?_, fun x t ht e he => ?_⟩
  · obtain ⟨y, ⟨-, t, ht, e, he, -⟩, -⟩ := TransGen.head'_iff.mp hx
    simp [hempty x t ht] at he
  · simp [hempty x t ht] at he

/-- Runs keep a store orderly, and its slots move on. -/
theorem Orderly.run (h : s.Orderly) (hrun : ReflTransGen Step s s') : s'.Orderly ∧ s.Ages s' := by
  induction hrun with
  | refl => exact ⟨h, .refl s⟩
  | tail _ hstep ih =>
    obtain ⟨op, hop, rfl, hacyclic, hyoung⟩ := hstep
    obtain ⟨hages, horderly⟩ := ih.1.perform hop hacyclic
    exact ⟨horderly hyoung, ih.2.trans hages⟩

/-- No slot is worn out in a store that a run leads to. -/
theorem young_of_run {settings : Settings} (hrun : ReflTransGen Step (bare settings) s) :
    s.arena.Young := by
  rcases ReflTransGen.cases_tail hrun with rfl | ⟨s₀, -, op, -, -, -, hyoung⟩
  · intro i slot hslot
    rw [(slots_bare hslot).1]
    decide
  · exact hyoung

/-- As long as no operation closes a circle of tuples that own each other, and no slot is vacated
2³² times, the free list holds every vacant slot once and no other. The next id is then neither live
nor was it ever issued, moving a tuple in under it leaves all live tuples as they are, and an issued
id that stands for nothing never stands for anything again. -/
theorem ids_are_not_issued_again {settings : Settings} {s s' : Store}
    (hrun : ReflTransGen Step (bare settings) s) (hlater : ReflTransGen Step s s') :
    s.arena.Sound ∧
      (∀ t, s.tuple? (s.alloc t).1 = none ∧ ¬s.arena.Issued (s.alloc t).1 ∧
        ∀ x u, s.tuple? x = some u → (s.alloc t).2.tuple? x = some u) ∧
      (∀ x u, s.tuple? x = some u → s'.arena.Issued x) ∧
      ∀ x, s.arena.Issued x → s.tuple? x = none → s'.tuple? x = none := by
  obtain ⟨horderly, -⟩ := (orderly_bare settings).run hrun
  obtain ⟨-, hages⟩ := horderly.run hlater
  have hsound := horderly.sound.arena
  refine ⟨hsound, fun t => ?_, fun x u hu => ?_, fun x hx hdead => ?_⟩
  · have hfresh := Arena.not_issued_alloc hsound (young_of_run hrun) t
    obtain ⟨hnone, hget⟩ := Arena.get?_alloc hsound t
    refine ⟨hnone, hfresh, fun x u hu => (hget x).trans (Eq.trans (if_neg ?_) hu)⟩
    rintro rfl
    exact hfresh (Arena.issued_of_live hu)
  · exact hages.arena.issued (Arena.issued_of_live hu)
  · exact hages.arena.get?_eq_none (young_of_run (hrun.trans hlater)) hx hdead

/-- A tuple that owns another is destroyed: both ids stand for nothing from then on. -/
theorem ids_are_not_issued_again_nested :
    let s := (Operation.createFrom .dynamic none [(none, .tree [], .tuple ⟨1, 0⟩)]).perform.after
      ((Operation.create .plain none).perform.after (bare {}))
    let s' := (Operation.destroy ⟨2, 0⟩).perform.after s
    ReflTransGen Step (bare {}) s ∧ ReflTransGen Step s s' ∧
      (s.contains ⟨1, 0⟩ ∧ ¬s'.contains ⟨1, 0⟩ ∧ ¬s'.contains ⟨2, 0⟩) ∧ s'.arena.Sound ∧
        ¬s'.arena.Issued (s'.alloc { kind := .plain, permissions := {}, parent := none }).1 := by
  intro s s'
  -- no slot has been vacated so often that its count wraps around
  have hyoung : ∀ a : Arena, (∀ slot ∈ a.slots.toList, slot.vacated < 2 ^ 32) → a.Young := by
    intro a ha i slot hslot
    exact ha slot (Array.mem_toList_iff.mpr (Array.mem_of_getElem? hslot))
  have hfirst : Step (bare {}) ((Operation.create .plain none).perform.after (bare {})) := by
    refine ⟨.create .plain none, by simp [Operation.Admissible, Operation.values], rfl,
      by simp [Operation.appends], ?_⟩
    exact hyoung _ (by decide +kernel)
  have hsecond : Step ((Operation.create .plain none).perform.after (bare {})) s := by
    refine ⟨.createFrom .dynamic none _, ?_, rfl, by simp [Operation.appends],
      hyoung _ (by decide +kernel)⟩
    rintro value hvalue y hy
    simp only [Operation.values, List.map_cons, List.map_nil, List.mem_singleton] at hvalue
    subst hvalue
    cases hy
    exact ⟨_, 0, rfl, rfl, .inr ⟨rfl, rfl⟩⟩
  have hthird : Step s s' := by
    refine ⟨.destroy ⟨2, 0⟩, by simp [Operation.Admissible, Operation.values], rfl,
      by simp [Operation.appends], ?_⟩
    exact hyoung _ (by decide +kernel)
  have hrun : ReflTransGen Step (bare {}) s := .tail (.single hfirst) hsecond
  have hafter := ids_are_not_issued_again (hrun.tail hthird) .refl
  exact ⟨hrun, .single hthird, by decide +kernel, hafter.1, (hafter.2.1 _).2.1⟩

/-- A tuple that owns itself is given up twice when it is destroyed: its slot is offered twice, and
the next two tuples get the same id. -/
theorem slot_of_self_owner_is_offered_twice :
    let t : TupleId := ⟨1, 0⟩
    let s := (Operation.destroy t).perform.after
      ((Operation.add t none (.leaf "dynamic") (.tuple t)).perform.after
        ((Operation.create .dynamic none).perform.after (bare {})))
    let first := s.create .plain none
    let second := first.2.create .plain none
    s.arena.free = [1, 1] ∧ ¬s.arena.Sound ∧ first.1 = second.1 := by
  intro t s first second
  have hfree : s.arena.free = [1, 1] := by decide +kernel
  refine ⟨hfree, fun hsound => ?_, by decide +kernel⟩
  have hnodup := hsound.nodup
  rw [hfree] at hnodup
  simp at hnodup

end Store

end TupleLang
