import TupleLang.Proofs.DirectReader
import TupleLang.Proofs.Linear
import TupleLang.Store.Copy

/-!
# Building tuples

A tuple is built by moving an empty one in and filling it with cells. `Tuple.insertAll` is what
filling does to the tuple alone. `Store.tuple?_fill` says that filling succeeds exactly when that
does, and that it then changes nothing else but the parents of the tuples that the cells own; after
a refusal the tuple and all the cells are gone.
-/

namespace TupleLang

namespace Tuple

/-- Append attributes while the tuple is built. -/
def insertAll (t : Tuple) : List (Option String × Cell) → Except Error Tuple
  | [] => .ok t
  | (name, cell) :: rest => do
    let (_, t) ← t.insertInitial name cell
    t.insertAll rest

/-- The cells of a tuple. -/
def cells (t : Tuple) : List Cell := t.entries.map (·.cell)

/-- A tuple without its place among the scopes. -/
def orphan (t : Tuple) : Tuple := { t with parent := none }

variable {t t' : Tuple} {name : Option String} {cell : Cell} {pos : Nat}

/-- What is appended is the last attribute, and nothing else but the name index changes. -/
theorem insertInitial_eq_ok (h : t.insertInitial name cell = .ok (pos, t')) :
    t' = { t with entries := t.entries ++ [⟨name, cell⟩], index := t'.index } := by
  unfold insertInitial at h
  cases name with
  | none =>
    dsimp only at h
    split at h
    · cases h
    · cases h
      rfl
  | some n =>
    dsimp only at h
    split at h
    · cases h
    · split at h
      · cases h
      · cases h
        rfl

/-- What is detached is one of the attributes, all others stay in their order, and nothing else but
the name index changes. -/
theorem take_eq_ok {key : Key} (h : t.take key = .ok (cell, t')) :
    ∃ pos, t' = { t with entries := t.entries.eraseIdx pos, index := t'.index } := by
  simp only [take, bind, Except.bind] at h
  split at h
  · cases h
  · rename_i pos hpos
    split at h
    · cases h
    · split at h
      · cases h
        exact ⟨pos, rfl⟩
      · cases h

/-- A type is registered behind the others, and nothing else changes. -/
theorem insertType_eq_ok {name : String} {type : TypeDesc} (h : t.insertType name type = .ok t') :
    t' = { t with types := t.types ++ [(name, type)] } := by
  simp only [insertType, require, bind, Except.bind, throw, throwThe, MonadExceptOf.throw, pure,
    Except.pure] at h
  split at h
  · cases h
  split at h
  · cases h
  cases h
  rfl

/-- An action is registered behind the others if its key is free, and nothing else changes but the
keys of its name. -/
theorem insertAction_eq_ok {action : Action} (h : t.insertAction action = .ok t') :
    t.actions.lookup action.signature.key = none ∧
      t' = { t with
        actions := t.actions ++ [(action.signature.key, action)]
        byName := pushKey t.byName action.name action.signature.key } := by
  simp only [insertAction, require, bind, Except.bind, throw, throwThe, MonadExceptOf.throw, pure,
    Except.pure] at h
  split at h
  · cases h
  split at h
  · cases h
  rename_i hnew
  cases h
  exact ⟨Option.not_isSome_iff_eq_none.mp hnew, rfl⟩

end Tuple

namespace Store

/-! ## Tuples within tuples -/

variable {s s' : Store} {cells : List Cell} {ids inner : List TupleId} {id : TupleId} {t : Tuple}

/-- Ownership depends on the attributes of the owned tuples and the values in the heap only. -/
theorem Owns.congr_orphan (h : s.Owns cells ids)
    (hsame : ∀ x ∈ ids, (s'.tuple? x).map Tuple.orphan = (s.tuple? x).map Tuple.orphan)
    (hheap : s.heap.Grows s'.heap) : s'.Owns cells ids := by
  induction h with
  | nil => exact .nil
  | loose hc _ ih => exact .loose (hc.grows hheap) (ih hsame)
  | @tuple c cells id t inner ids hown hv ht _ _ ih₁ ih₂ =>
    have hid := hsame id (by simp)
    rw [ht, Option.map_some, Option.map_eq_some_iff] at hid
    obtain ⟨t', ht', heq⟩ := hid
    have hentries : t'.entries = t.entries :=
      show t'.orphan.entries = t.orphan.entries by rw [heq]
    refine .tuple hown (hv.grows hheap) ht' (hentries ▸ ih₁ fun x hx => hsame x ?_)
      (ih₂ fun x hx => hsame x ?_)
    · simp [hx]
    · simp [hx]

/-- A tuple in a cell is owned by it. -/
theorem Owns.mem_of_ownedTuple? (h : s.Owns cells ids) {c : Cell} (hc : c ∈ cells)
    (hid : c.ownedTuple? s.heap = some id) : id ∈ ids := by
  induction h with
  | nil => simp at hc
  | loose hloose _ ih =>
    rcases List.mem_cons.mp hc with rfl | hc
    · simp [hloose.ownedTuple?] at hid
    · exact ih hc
  | tuple hown hv _ _ _ _ ih =>
    rcases List.mem_cons.mp hc with rfl | hc
    · simp only [Cell.ownedTuple?, hown, Cell.tupleId?, hv.value_eq, Value.tupleId?, if_true,
        Option.some.injEq] at hid
      simp [hid]
    · simp [ih hc]

/-- Destroying a tuple trades it and what its cells own for nothing. -/
theorem Owns.destroy (h : s.Owns t.cells inner) (hs : s.Sound) (ht : s.tuple? id = some t)
    (hnodup : (id :: inner).Nodup) (hroot : s.root ∉ id :: inner) :
    s.Trade (id :: inner) (s.destroy id) [] := by
  rw [List.nodup_cons] at hnodup
  -- draining takes the entries out first, so the releases do not meet the tuple again
  have hput := tuple?_putTuple ht t.drain.2
  have hown : (s.putTuple id t.drain.2).Owns t.drain.1 inner := by
    refine h.congr (fun x hx => ?_) (.refl _)
    -- it owns no part of itself
    have hx' : x ≠ id := fun hxid => hnodup.1 (hxid ▸ hx)
    rw [hput, if_neg hx']
  have hcells := hown.tuple?_releaseAll (hs.putTuple ht _) hnodup.2
    (fun hr => hroot (List.mem_cons_of_mem _ hr))
  obtain ⟨hsound, hget⟩ := tuple?_destroy hs hroot ht hnodup.1 hcells
  have hbut := sameButArena_destroyWithin (s.arena.entryCount + 1) s id
  exact
    { sound := hsound
      same := fun x hx _ => by rw [hget, if_neg hx]
      gone := fun x hx _ => by rw [hget, if_pos hx]
      fresh := fun x hx => absurd hx (by simp)
      heap := by
        rw [show (s.destroy id).heap = s.heap from hbut.heap]
        exact .refl _
      root := hbut.root
      forms := hbut.forms
      settings := hbut.settings }

/-! ## Filling -/

/-- Making a tuple the scope around another one changes the parent of that one only. -/
theorem tuple?_adoptOwned (s : Store) (parent : TupleId) (child : Option TupleId) (x : TupleId) :
    ((s.adoptOwned parent child).tuple? x).map Tuple.orphan = (s.tuple? x).map Tuple.orphan ∧
      (child ≠ some x → (s.adoptOwned parent child).tuple? x = s.tuple? x) := by
  cases child with
  | none => exact ⟨rfl, fun _ => rfl⟩
  | some child =>
    simp only [adoptOwned, adopt]
    cases ht : s.tuple? child with
    | none => exact ⟨rfl, fun _ => rfl⟩
    | some t =>
      dsimp only
      rw [tuple?_putTuple ht]
      by_cases hx : x = child
      · subst hx
        simp [ht, Tuple.orphan]
      · simp [hx]

/-- Making a tuple the scope around another one changes the arena only and keeps it sound. -/
theorem Sound.adoptOwned (hs : s.Sound) (parent : TupleId) (child : Option TupleId) :
    (s.adoptOwned parent child).Sound ∧ s.SameButArena (s.adoptOwned parent child) := by
  cases child with
  | none => exact ⟨hs, .refl s⟩
  | some child =>
    simp only [Store.adoptOwned, adopt]
    cases ht : s.tuple? child with
    | none => exact ⟨hs, .refl s⟩
    | some t => exact ⟨hs.putTuple ht _, rfl, rfl, rfl, rfl⟩

/-- One step of filling: append the attribute, or give up everything. -/
theorem fill_cons (ht : s.tuple? id = some t) (name : Option String) (cell : Cell)
    (rest : List (Option String × Cell)) :
    StoreM.fill id ((name, cell) :: rest) s =
      match t.insertInitial name cell with
      | .ok (_, t') =>
        StoreM.fill id rest ((s.putTuple id t').adoptOwned id (cell.ownedTuple? s.heap))
      | .error e => .error e ((s.releaseAll (cell :: rest.map (·.2))).destroy id) := by
  have hupdate : StoreM.update id (·.insertInitial name cell) s =
      match t.insertInitial name cell with
      | .ok (pos, t') => .ok pos (s.putTuple id t')
      | .error e => .error e s := by
    simp only [StoreM.update, StoreM.tuple, tuple, bind, EStateM.bind, get, getThe,
      MonadStateOf.get, EStateM.get, ht, StoreM.ofExcept, pure, EStateM.pure]
    cases t.insertInitial name cell with
    | ok r => rfl
    | error e => rfl
  simp only [StoreM.fill, bind, EStateM.bind, get, getThe, MonadStateOf.get, EStateM.get,
    tryCatch, tryCatchThe, MonadExceptOf.tryCatch, EStateM.tryCatch, hupdate]
  cases t.insertInitial name cell with
  | ok r => rfl
  | error e => rfl

/-- Appending an attribute to a tuple that is being built keeps the rest of the store, but for the
parent of the tuple that the cell owns. -/
theorem holds_insertInitial {name : Option String} {cell : Cell} {pos : Nat} {t' : Tuple}
    {extra : Multiset Cell} (hs : s.Sound) (ht : s.tuple? id = some t) (hid : id ∉ ids)
    (hheld : s.Holds (t.cells + (cell ::ₘ extra)) ids)
    (hinsert : t.insertInitial name cell = .ok (pos, t')) :
    let s' := (s.putTuple id t').adoptOwned id (cell.ownedTuple? s.heap)
    s'.Holds (t'.cells + extra) ids ∧ s'.tuple? id = some t' ∧
      s.Trade (id :: ids) s' (id :: ids) ∧
        ∀ x ≠ id, (s'.tuple? x).map Tuple.orphan = (s.tuple? x).map Tuple.orphan := by
  intro s'
  have hput := tuple?_putTuple ht t'
  have hadopt := tuple?_adoptOwned (s.putTuple id t') id (cell.ownedTuple? s.heap)
  obtain ⟨hs', hbut⟩ := (hs.putTuple ht t').adoptOwned id (cell.ownedTuple? s.heap)
  -- the tuple that the cell owns is among those that are held
  have hchild : ∀ x, cell.ownedTuple? s.heap = some x → x ∈ ids := by
    intro x hx
    obtain ⟨l, hl⟩ := Quotient.exists_rep extra
    obtain ⟨ids', hperm, hown⟩ := hheld.owns_list (l := t.cells ++ cell :: l) (by
      rw [← hl]
      rfl)
    exact hperm.mem_iff.mpr (hown.mem_of_ownedTuple? (by simp) hx)
  have horphan : ∀ x ≠ id, (s'.tuple? x).map Tuple.orphan = (s.tuple? x).map Tuple.orphan := by
    intro x hx
    rw [(hadopt x).1, hput, if_neg hx]
  refine ⟨⟨?_, hheld.nodup, ?_⟩, ?_, ?_, horphan⟩
  · obtain ⟨l, hl, hown⟩ := hheld.owns
    have hsame : ∀ x ∈ ids, (s'.tuple? x).map Tuple.orphan = (s.tuple? x).map Tuple.orphan :=
      fun x hx => horphan x fun hxid => hid (hxid ▸ hx)
    refine ⟨l, ?_, hown.congr_orphan hsame ?_⟩
    · -- the cell goes over from the hand into the tuple
      have hcells : t'.cells = t.cells ++ [cell] := by
        rw [Tuple.insertInitial_eq_ok hinsert]
        simp [Tuple.cells]
      rw [hl, hcells, ← Multiset.coe_add, Multiset.coe_singleton, ← Multiset.singleton_add,
        add_assoc]
    · rw [show s'.heap = s.heap from hbut.heap]
      exact .refl _
  · rw [show s'.root = s.root from hbut.root]
    exact hheld.root
  · rw [(hadopt id).2 fun h => hid (hchild id h), hput, if_pos rfl]
  · exact
      { sound := hs'
        same := fun x hx _ => by
          rw [List.mem_cons, not_or] at hx
          rw [(hadopt x).2 fun h => hx.2 (hchild x h), hput, if_neg hx.1]
        gone := fun x hx hx' => absurd hx hx'
        fresh := fun x hx hx' => absurd hx hx'
        heap := by
          rw [show s'.heap = s.heap from hbut.heap]
          exact .refl _
        root := hbut.root
        forms := hbut.forms
        settings := hbut.settings }

/-- Giving up cells and then a tuple that is being built leaves nothing of either. -/
theorem Holds.releaseAll_destroy {l : List Cell} (hheld : s.Holds (t.cells + l) ids) (hs : s.Sound)
    (ht : s.tuple? id = some t) (hid : id ∉ ids) (hroot : id ≠ s.root) :
    s.Trade (id :: ids) ((s.releaseAll l).destroy id) [] := by
  obtain ⟨j, i, hperm, hj, hi⟩ := hheld.split
  have hdisj := (List.nodup_append.mp (hperm.nodup_iff.mp hheld.nodup)).2.2
  have hout : ∀ x ∈ j ++ i, x ≠ id := fun x hx hxid => hid (hxid ▸ hperm.mem_iff.mpr hx)
  have hrelease := hi.releaseAll hs rfl
  -- the cells of the tuple itself are still held, and the tuple is as it was
  have hj' := hj.keeps hrelease fun x hx hx' => hdisj x hx x hx' rfl
  obtain ⟨j', hjj', hown⟩ := hj'.owns_list rfl
  have hlive : (s.releaseAll l).tuple? id = some t := by
    rw [hrelease.same id (fun h => hout id (List.mem_append_right _ h) rfl) (by simp), ht]
  have hnodup : (id :: j').Nodup := by
    refine List.nodup_cons.mpr ⟨fun h => ?_, hjj'.nodup_iff.mp hj'.nodup⟩
    exact hout id (List.mem_append_left _ (hjj'.mem_iff.mpr h)) rfl
  have hroot' : (s.releaseAll l).root ∉ id :: j' := by
    rw [List.mem_cons, not_or, hrelease.root]
    exact ⟨hroot.symm, fun h => hj.root (hjj'.mem_iff.mpr h)⟩
  have hdestroy : (s.releaseAll l).Trade (id :: j ++ []) ((s.releaseAll l).destroy id) [] :=
    (hown.destroy hrelease.sound hlive hnodup hroot').congr (fun x => by simp [hjj'.mem_iff])
      (fun x => Iff.rfl)
  refine ((hrelease.frame (id :: j)).trans hdestroy).congr (fun x => ?_) (fun x => Iff.rfl)
  simp [hperm.mem_iff]

/-- Filling succeeds exactly when the tuple takes all attributes, and then changes nothing else but
the parents of the tuples that the cells own. After a refusal the tuple and the cells are gone. -/
theorem tuple?_fill (entries : List (Option String × Cell)) (hs : s.Sound)
    (ht : s.tuple? id = some t) (hid : id ∉ ids) (hroot : id ≠ s.root)
    (hheld : s.Holds (t.cells + (entries.map (·.2) : List Cell)) ids) :
    match StoreM.fill id entries s with
    | .ok _ s' => ∃ t', t.insertAll entries = .ok t' ∧ s'.tuple? id = some t' ∧
        s'.Holds t'.cells ids ∧ s.Trade (id :: ids) s' (id :: ids) ∧
          ∀ x ≠ id, (s'.tuple? x).map Tuple.orphan = (s.tuple? x).map Tuple.orphan
    | .error e s' => t.insertAll entries = .error e ∧ s.Trade (id :: ids) s' [] := by
  induction entries generalizing s t with
  | nil => exact ⟨t, rfl, ht, by simpa using hheld, .refl hs _, fun _ _ => rfl⟩
  | cons entry rest ih =>
    obtain ⟨name, cell⟩ := entry
    rw [fill_cons ht, Tuple.insertAll]
    cases hinsert : t.insertInitial name cell with
    | ok r =>
      obtain ⟨pos, t'⟩ := r
      have hcons : s.Holds (t.cells + (cell ::ₘ (rest.map (·.2) : List Cell))) ids := hheld
      obtain ⟨hheld', ht', htrade, horphan⟩ := holds_insertInitial hs ht hid hcons hinsert
      dsimp only [bind, Except.bind]
      -- the rest is filled into the store with the first entry in place
      generalize (s.putTuple id t').adoptOwned id (cell.ownedTuple? s.heap) = s₁ at *
      have hrest := ih htrade.sound ht' (by rw [htrade.root]; exact hroot) hheld'
      cases hfill : StoreM.fill id rest s₁ with
      | ok u s₂ =>
        rw [hfill] at hrest
        obtain ⟨t'', hall, ht'', hheld'', htrade', horphan'⟩ := hrest
        exact ⟨t'', hall, ht'', hheld'', htrade.trans htrade',
          fun x hx => (horphan' x hx).trans (horphan x hx)⟩
      | error e s₂ =>
        rw [hfill] at hrest
        exact ⟨hrest.1, htrade.trans hrest.2⟩
    | error e =>
      -- a refused entry takes down the tuple and everything held
      exact ⟨rfl, hheld.releaseAll_destroy hs ht hid hroot⟩

/-- A new tuple is live and nobody's, and all other tuples are as they were. -/
theorem trade_create (hs : s.Sound) (kind : TupleKind) (parent : Option TupleId) :
    let created := s.create kind parent
    created.2.tuple? created.1 =
        some { kind, permissions := kind.fixedPermissions?.getD {}, parent } ∧
      s.tuple? created.1 = none ∧ created.1 ≠ s.root ∧ s.Trade [] created.2 [created.1] := by
  intro created
  obtain ⟨hfresh, hget⟩ :=
    Arena.get?_alloc hs.arena { kind, permissions := kind.fixedPermissions?.getD {}, parent }
  obtain ⟨r, hr⟩ := hs.root_live
  -- the root was live before the slot was taken
  have hroot : created.1 ≠ s.root := by
    intro h
    have hnone : s.tuple? s.root = none := h ▸ hfresh
    simp [hnone] at hr
  refine ⟨(hget created.1).trans (if_pos rfl), hfresh, hroot, ?_⟩
  exact
    { sound := ⟨hs.arena.alloc _, r, (hget s.root).trans ((if_neg hroot.symm).trans hr)⟩
      same := fun x _ hx => (hget x).trans (if_neg (List.mem_singleton.not.mp hx))
      gone := fun x hx => absurd hx (by simp)
      fresh := fun x hx _ => by
        rw [List.mem_singleton.mp hx]
        exact hfresh
      heap := .refl _
      root := rfl
      forms := rfl
      settings := rfl }

/-- Creating a tuple from cells succeeds exactly when an empty tuple takes them as attributes. What
the cells held is then held by the tuple, and after a refusal nothing is left of them. -/
theorem tuple?_createFrom (hs : s.Sound) (kind : TupleKind) (parent : Option TupleId)
    (entries : List (Option String × Cell)) (hheld : s.Holds (entries.map (·.2) : List Cell) ids) :
    let empty : Tuple := { kind, permissions := kind.fixedPermissions?.getD {}, parent }
    match StoreM.createFrom kind parent entries s with
    | .ok id s' => ∃ t, empty.insertAll entries = .ok t ∧ s'.tuple? id = some t ∧
        id ∉ ids ∧ id ≠ s'.root ∧ s'.Holds t.cells ids ∧ s.Trade ids s' (id :: ids) ∧
          ∀ x ≠ id, (s'.tuple? x).map Tuple.orphan = (s.tuple? x).map Tuple.orphan
    | .error e s' => empty.insertAll entries = .error e ∧ s.Trade ids s' [] := by
  intro empty
  obtain ⟨hempty, hfresh, hroot, hcreate⟩ := trade_create hs kind parent
  have hrun : StoreM.createFrom kind parent entries s =
      match StoreM.fill (s.create kind parent).1 entries (s.create kind parent).2 with
      | .ok _ s' => .ok (s.create kind parent).1 s'
      | .error e s' => .error e s' := by
    simp only [StoreM.createFrom, StoreM.change, bind, EStateM.bind]
    cases StoreM.fill (s.create kind parent).1 entries (s.create kind parent).2 with
    | ok u s' => rfl
    | error e s' => rfl
  rw [hrun]
  generalize s.create kind parent = created at *
  obtain ⟨id, s₁⟩ := created
  dsimp only at *
  -- the new tuple is none of those in the hand
  have hid : id ∉ ids := by
    intro h
    obtain ⟨t, ht⟩ := hheld.live id h
    simp [hfresh] at ht
  have hheld₁ := hheld.keeps hcreate (by simp)
  have htrade : s.Trade ids s₁ (id :: ids) :=
    (hcreate.frame ids).congr (fun x => by simp) (fun x => by simp [or_comm])
  have hfill := tuple?_fill entries hcreate.sound hempty hid (by rw [hcreate.root]; exact hroot)
    (by simpa [Tuple.cells] using hheld₁)
  -- only the new tuple is filled
  have hother : ∀ x ≠ id, s₁.tuple? x = s.tuple? x :=
    fun x hx => hcreate.same x (by simp) (by simpa using hx)
  cases hres : StoreM.fill id entries s₁ with
  | ok u s' =>
    rw [hres] at hfill
    obtain ⟨t, hall, ht, hheld', htrade', horphan⟩ := hfill
    refine ⟨t, hall, ht, hid, ?_, hheld', htrade.trans htrade', fun x hx => ?_⟩
    · rw [htrade'.root, hcreate.root]
      exact hroot
    · rw [horphan x hx, hother x hx]
  | error e s' =>
    rw [hres] at hfill
    exact ⟨hfill.1, htrade.trans hfill.2⟩

end Store

namespace StoreM

variable {copyTuple : TupleId → StoreM TupleId} {cell : Cell} {s : Store}

/-- A cell without a tuple in it is copied as it is. -/
theorem duplicateBy_of_none (h : cell.tupleId? s.heap = none) :
    duplicateBy copyTuple cell s = onHeap (Cell.duplicate · cell) s := by
  simp only [duplicateBy, bind, EStateM.bind, get, getThe, MonadStateOf.get, EStateM.get, h]

/-- A cell with a tuple in it is copied with that tuple. -/
theorem duplicateBy_of_some {id : TupleId} (h : cell.tupleId? s.heap = some id) :
    duplicateBy copyTuple cell s =
      (do newCell cell.type (.tuple (← copyTuple id)) : StoreM Cell) s := by
  simp only [duplicateBy, bind, EStateM.bind, get, getThe, MonadStateOf.get, EStateM.get, h]

end StoreM

namespace ValueReader

open ParseM

/-- Building a tuple from cells succeeds exactly when an empty tuple takes them as attributes. The
new cell then holds what the cells held, and after a refusal nothing is left of them. -/
theorem build_run {s : ParseState} {ids : List TupleId} (hs : s.store.Sound) (scope : TupleId)
    (kind : TupleKind) (entries : List (Option String × Cell))
    (hheld : s.store.Holds (entries.map (·.2) : List Cell) ids) :
    let empty : Tuple :=
      { kind, permissions := kind.fixedPermissions?.getD {}, parent := some scope }
    match build scope kind entries s with
    | .ok c s' => s'.cursor = s.cursor ∧ ∃ id t, empty.insertAll entries = .ok t ∧
        s'.store.tuple? id = some t ∧ c.owned = true ∧ c.type = t.typeDesc ∧
          c.Stores s'.store.heap (.tuple id) ∧ s.store.Reaches ids s'.store {c} ∧
            id ∉ ids ∧ id ≠ s'.store.root ∧ s.store.Trade ids s'.store (id :: ids) ∧
              ∀ x ≠ id, (s'.store.tuple? x).map Tuple.orphan = (s.store.tuple? x).map Tuple.orphan
    | .error _ s' => s'.cursor = s.cursor ∧ (∃ e, empty.insertAll entries = .error e) ∧
        s.store.Trade ids s'.store [] := by
  intro empty
  have hcreate := Store.tuple?_createFrom hs kind (some scope) entries hheld
  simp only [build, onStore, bind, EStateM.bind]
  cases hres : StoreM.createFrom kind (some scope) entries s.store with
  | error e s₁ =>
    rw [hres] at hcreate
    exact ⟨rfl, ⟨e, hcreate.1⟩, hcreate.2⟩
  | ok id s₁ =>
    rw [hres] at hcreate
    obtain ⟨t, hall, ht, hid, hroot, hheld', htrade, horphan⟩ := hcreate
    have htype : s₁.typeOf id = .ok t.typeDesc := by
      simp [Store.typeOf, Store.tuple, ht, bind, Except.bind, pure, Except.pure]
    simp only [get, getThe, MonadStateOf.get, EStateM.get, htype, StoreM.ofExcept, pure,
      EStateM.pure, StoreM.newCell, StoreM.onHeap, StoreM.change]
    have hgrows := Cell.grows_make s₁.heap t.typeDesc (.tuple id)
    have hstores := Cell.stores_make s₁.heap t.typeDesc (.tuple id)
    -- a cell for the tuple takes one more place and changes nothing else
    have htrade' : s.store.Trade ids
        { s₁ with heap := (Cell.make s₁.heap t.typeDesc (.tuple id)).2 } (id :: ids) :=
      { htrade with
        sound := ⟨htrade.sound.arena, htrade.sound.root_live⟩
        heap := htrade.heap.trans hgrows }
    refine ⟨trivial, id, t, hall, ht, rfl, rfl, hstores, ?_, hid, hroot, htrade', horphan⟩
    -- what the hand had is what the cells of the new tuple own
    obtain ⟨ids', hperm, howns⟩ := hheld'.owns_list rfl
    have hin : ({ s₁ with heap := (Cell.make s₁.heap t.typeDesc (.tuple id)).2 } : Store).Owns
        t.cells ids' := howns.congr (fun _ _ => rfl) hgrows.retains
    refine ⟨id :: (ids' ++ []), ⟨⟨[_], rfl, .tuple rfl hstores ht hin .nil⟩, ?_, ?_⟩, ?_⟩
    · rw [List.append_nil, List.nodup_cons, ← hperm.mem_iff, ← hperm.nodup_iff]
      exact ⟨hid, hheld'.nodup⟩
    · rw [List.append_nil, List.mem_cons, not_or, ← hperm.mem_iff]
      exact ⟨hroot.symm, hheld'.root⟩
    · exact htrade'.congr (fun x => Iff.rfl) fun x => by simp [hperm.mem_iff]

/-- Building a tuple takes the cells of its entries for the cell of the tuple. -/
theorem linear_build (scope : TupleId) (kind : TupleKind)
    (entries : List (Option String × Cell)) :
    Linear (entries.map (·.2) : List Cell) (build scope kind entries) fun c => {c} := by
  intro s ids hs hheld
  have hbuild := build_run hs scope kind entries hheld
  cases hres : build scope kind entries s with
  | ok c s' =>
    rw [hres] at hbuild
    obtain ⟨-, id, t, -, -, -, -, -, hreach, -⟩ := hbuild
    exact hreach
  | error e s' =>
    rw [hres] at hbuild
    exact ⟨[], .zero _, hbuild.2.2⟩

end ValueReader

end TupleLang
