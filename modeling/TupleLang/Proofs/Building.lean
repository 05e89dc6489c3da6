import TupleLang.Proofs.DirectReader
import TupleLang.Proofs.Build
import TupleLang.Proofs.Regime
import TupleLang.Store.Copy

/-!
# What building and copying keep

Tuples are built in the same few steps everywhere: an empty tuple is moved in, cells are appended to
it, the tuples that these own get it as their scope, and everything is given up when a cell is
refused. `Building R` says what the steps keep, in the words of a regime: which cells may be put
into a tuple, and which tuples are *open*, that is may be changed. Then whole tuples are built under
the regime (`Building.createFrom`).

Copies are built from the cells of other tuples. `Copying R` adds what may be copied, and
`Copying.duplicate` is the result.
-/

namespace TupleLang

/-- What can go wrong while a tuple is built or copied. -/
def Error.OfBuilding : Error → Prop
  | .accessDenied .. | .duplicateName _ | .notFound (.tuple _) | .depthExceeded .. => True
  | _ => False

/-- An attribute is refused because of its name or its type. -/
theorem Tuple.ofBuilding_of_insertInitial {t : Tuple} {name : Option String}
    {cell : Cell} {e : Error}
    (h : t.insertInitial name cell = .error e) : e.OfBuilding := by
  unfold insertInitial at h
  cases name with
  | none =>
    simp only [bind, Except.bind, pure, Except.pure] at h
    split at h
    · cases h
      trivial
    · cases h
  | some n =>
    by_cases hn : t.contains n = true
    · simp only [hn, if_true, bind, Except.bind, throw, throwThe, MonadExceptOf.throw] at h
      cases h
      trivial
    · simp only [hn, Bool.false_eq_true, if_false, bind, Except.bind, pure, Except.pure] at h
      split at h
      · cases h
        trivial
      · cases h

/-- What a regime has to offer for tuples to be built under it. -/
structure Building (R : Regime Store) where
  /-- The cells that may be put into a tuple. -/
  CellOk : R.World → Cell → Prop
  /-- The tuples that may be changed and given up. -/
  Open : R.World → TupleId → Prop
  cell_lasts : ∀ {v w c}, R.Later v w → CellOk v c → CellOk w c
  open_lasts : ∀ {v w id}, R.Later v w → Open v id → Open w id
  owned : ∀ {w s c id}, R.Holds w s → CellOk w c → c.ownedTuple? s.heap = some id → Open w id
  insert : ∀ {w s id t t' name cell pos}, R.Holds w s → Open w id → CellOk w cell →
    s.tuple? id = some t → t.insertInitial name cell = .ok (pos, t') →
    ∃ v, R.Later w v ∧ R.Holds v (s.putTuple id t')
  adopt : ∀ w {parent child}, Open w parent → Open w child → R.Moves w (·.adopt parent child)
  destroy : ∀ w {id}, Open w id → R.Moves w (·.destroy id)

namespace Building

variable {R : Regime Store} (B : Building R) {w : R.World} {id : TupleId} {cell : Cell}

/-! ## Giving up and taking in -/

/-- Releasing a cell keeps what holds. -/
theorem release (hcell : B.CellOk w cell) : R.Moves w (·.release cell) := by
  intro v hv s hs
  change ∃ v', R.Later v v' ∧ R.Holds v' (s.release cell)
  unfold Store.release
  split
  · rename_i child hchild
    have hopen := B.owned hs (B.cell_lasts hv hcell) hchild
    exact B.destroy v hopen v (R.refl v) s hs
  · exact ⟨v, R.refl v, hs⟩

/-- Releasing cells keeps what holds. -/
theorem releaseAll {cells : List Cell} (hcells : ∀ c ∈ cells, B.CellOk w c) :
    R.Moves w (·.releaseAll cells) := by
  induction cells with
  | nil => exact fun v _ s hs => ⟨v, R.refl v, hs⟩
  | cons c cells ih =>
    have hrest := ih fun d hd => hcells d (List.mem_cons_of_mem _ hd)
    exact (B.release (hcells c List.mem_cons_self)).comp hrest

/-- Append a cell; the tuple that it owns is then within this one. -/
theorem insertInitial (hid : B.Open w id) (hcell : B.CellOk w cell) (name : Option String) :
    R.Keeps w (StoreM.update id (·.insertInitial name cell))
    (fun _ _ => True) Error.OfBuilding := by
  intro v hv s hs
  refine .update hs (fun t pos t' ht hinsert => ?_) trivial fun t e he => ?_
  · obtain ⟨u, hu, hs'⟩ := B.insert hs (B.open_lasts hv hid) (B.cell_lasts hv hcell) ht hinsert
    exact ⟨u, hu, hs', trivial⟩
  · exact Tuple.ofBuilding_of_insertInitial he

/-- The tuple of a cell that was taken in gets its new scope. -/
theorem adoptOwned {child : Option TupleId} (hid : B.Open w id)
    (hchild : ∀ x, child = some x → B.Open w x) : R.Moves w (·.adoptOwned id child) := by
  cases child with
  | none => exact fun v _ s hs => ⟨v, R.refl v, hs⟩
  | some x => exact B.adopt w hid (hchild x rfl)

/-! ## Building -/

/-- Filling an open tuple keeps what holds. -/
theorem fill (hid : B.Open w id) {entries : List (Option String × Cell)}
    (hentries : ∀ p ∈ entries, B.CellOk w p.2) :
    R.Keeps w (StoreM.fill id entries) (fun _ _ => True) Error.OfBuilding := by
  induction entries generalizing w with
  | nil => exact .pure fun _ _ => trivial
  | cons entry rest ih =>
    obtain ⟨name, cell⟩ := entry
    have hcell := hentries _ List.mem_cons_self
    have hrest : ∀ p ∈ rest, B.CellOk w p.2 := fun p hp => hentries p (List.mem_cons_of_mem _ hp)
    unfold StoreM.fill
    refine .get_bind fun v hv s hs => ?_
    -- what is cleaned up where a cell is refused
    have hgiveUp : R.Moves v fun s =>
      ((s.release cell).releaseAll (rest.map (·.2))).destroy id := by
      refine ((B.release hcell).comp (B.releaseAll ?_)).comp (B.destroy w hid) |>.of_later hv
      intro c hc
      obtain ⟨p, hp, rfl⟩ := List.mem_map.mp hc
      exact hrest p hp
    refine .andThen (.cleanup ?_ hgiveUp) fun _ u hu => ?_
    · exact .andThen (B.insertInitial (B.open_lasts hv hid) (B.cell_lasts hv hcell) name)
        fun _ _ _ => .pure fun _ _ => trivial
    · have hlater := R.trans hv hu
      refine .andThen (.modify (B.adoptOwned (B.open_lasts hlater hid) fun x hx => ?_))
        fun _ x hx => ?_
      · exact B.open_lasts hu (B.owned hs (B.cell_lasts hv hcell) hx)
      · exact ih (B.open_lasts (R.trans hlater hx) hid) fun p hp =>
          B.cell_lasts (R.trans hlater hx) (hrest p hp)

/-- Making a tuple from cells keeps what holds, and the tuple is open. -/
theorem createFrom {kind : TupleKind} {parent : Option TupleId}
    {entries : List (Option String × Cell)}
    (hcreate : R.Keeps w (StoreM.change (·.create kind parent)) B.Open Error.OfBuilding)
    (hentries : ∀ p ∈ entries, B.CellOk w p.2) :
    R.Keeps w (StoreM.createFrom kind parent entries) B.Open Error.OfBuilding := by
  refine .bind hcreate fun id v hv hid => .andThen (B.fill hid fun p hp => ?_) fun _ u hu => ?_
  · exact B.cell_lasts hv (hentries p hp)
  · exact .pure fun u' hu' => B.open_lasts (R.trans hu hu') hid

end Building

/-- A copy has the type of the cell and owns its value. -/
theorem made_duplicateBy {copyTuple : TupleId → StoreM TupleId} {cell c : Cell} {s s' : Store}
    (h : StoreM.duplicateBy copyTuple cell s = .ok c s') : c.type = cell.type ∧ c.owned = true := by
  cases hid : cell.tupleId? s.heap with
  | none =>
    rw [StoreM.duplicateBy_of_none hid] at h
    cases h
    exact ⟨rfl, rfl⟩
  | some id =>
    simp only [StoreM.duplicateBy_of_some hid, bind, EStateM.bind] at h
    split at h
    · cases h
      exact ⟨rfl, rfl⟩
    · cases h

/-- What a regime has to offer for tuples to be copied under it. -/
structure Copying (R : Regime Store) extends Building R where
  /-- The cells that may be copied. -/
  SourceOk : R.World → Cell → Prop
  source_lasts : ∀ {v w c}, R.Later v w → SourceOk v c → SourceOk w c
  entries : ∀ {w s id t}, R.Holds w s → s.tuple? id = some t → ∀ e ∈ t.entries, SourceOk w e.cell
  create : ∀ w kind permissions parent,
    R.Keeps w (StoreM.change (·.createWith kind permissions parent)) Open Error.OfBuilding
  reborrow : ∀ {w c}, SourceOk w c →
    R.Keeps w (StoreM.onHeap (Cell.reborrow · c)) SourceOk Error.OfBuilding
  shared : ∀ {w c}, SourceOk w c → c.owned = false → CellOk w c
  scalar : ∀ {w s c}, R.Holds w s → SourceOk w c → c.tupleId? s.heap = none →
    R.Leads w s (StoreM.onHeap (Cell.duplicate · c)) CellOk Error.OfBuilding
  tuple : ∀ {v w s c id k}, R.Holds v s → SourceOk v c → c.tupleId? s.heap = some id →
    R.Later v w → Open w k → R.Keeps w (StoreM.newCell c.type (.tuple k)) CellOk Error.OfBuilding

namespace Copying

variable {R : Regime Store} (C : Copying R) {w : R.World} {cell : Cell}

/-- Copying a cell keeps what holds if copying tuples does. -/
theorem duplicateBy {copyTuple : TupleId → StoreM TupleId}
    (hcopy : ∀ id w, R.Keeps w (copyTuple id) C.Open Error.OfBuilding) (hcell : C.SourceOk w cell) :
    R.Keeps w (StoreM.duplicateBy copyTuple cell) C.CellOk Error.OfBuilding := by
  intro v hv s hs
  replace hcell := C.source_lasts hv hcell
  cases hid : cell.tupleId? s.heap with
  | none => exact .congr (StoreM.duplicateBy_of_none hid) (C.scalar hs hcell hid)
  | some id =>
    refine .congr (StoreM.duplicateBy_of_some hid) ?_
    refine (hcopy id v v (R.refl v) s hs).bind fun k u hu hk s' hs' => ?_
    exact C.tuple hs hcell hid hu hk u (R.refl u) s' hs'

/-- Copying the cells of a tuple into an open one keeps what holds. -/
theorem copyCells {copyTuple : TupleId → StoreM TupleId}
    (hcopy : ∀ id w, R.Keeps w (copyTuple id) C.Open Error.OfBuilding) {copy : TupleId}
    {cells : List (Option String × Cell)} (hopen : C.Open w copy)
    (hcells : ∀ p ∈ cells, C.SourceOk w p.2) :
    R.Keeps w (StoreM.copyCells copyTuple copy cells) (fun _ _ => True) Error.OfBuilding := by
  induction cells generalizing w with
  | nil => exact .pure fun _ _ => trivial
  | cons entry rest ih =>
    obtain ⟨name, cell⟩ := entry
    unfold StoreM.copyCells
    have hcell := hcells _ List.mem_cons_self
    -- however the cell was come by, it is appended in the same way
    have happend : ∀ (cell' : Cell) v, R.Later w v → C.CellOk v cell' → R.Keeps v
        (do
          let child := cell'.ownedTuple? (← get).heap
          try
            let _ ← StoreM.update copy (·.insertInitial name cell')
          catch e =>
            modify (·.release cell')
            throw e
          modify (·.adoptOwned copy child)
          StoreM.copyCells copyTuple copy rest) (fun _ _ => True) Error.OfBuilding := by
      intro cell' v hv hcell'
      refine .get_bind fun u hu s hs => ?_
      have hopen' := C.open_lasts (R.trans hv hu) hopen
      refine .andThen (.cleanup ?_ ((C.release hcell').of_later hu)) fun _ x hx => ?_
      · exact .andThen (C.insertInitial hopen' (C.cell_lasts hu hcell') name)
          fun _ _ _ => .pure fun _ _ => trivial
      · refine .andThen (.modify (C.adoptOwned (C.open_lasts hx hopen') fun y hy => ?_))
          fun _ z hz => ?_
        · exact C.open_lasts hx (C.owned hs (C.cell_lasts hu hcell') hy)
        · refine ih (C.open_lasts (R.trans hx hz) hopen') fun p hp => ?_
          exact C.source_lasts (R.trans hv (R.trans hu (R.trans hx hz)))
            (hcells p (List.mem_cons_of_mem _ hp))
    dsimp only
    refine .ite (fun _ => .bind (C.duplicateBy hcopy hcell) happend) fun hborrowed => ?_
    have hshared : R.Keeps w (pure cell : StoreM Cell) C.CellOk Error.OfBuilding :=
      .pure fun v hv => C.cell_lasts hv (C.shared hcell (by simpa using hborrowed))
    exact .bind hshared happend

/-- Fresh handles on the attributes of a tuple are handles to copy from. -/
theorem reborrowAll {entries : List Attribute} (hentries : ∀ e ∈ entries, C.SourceOk w e.cell) :
    R.Keeps w (StoreM.reborrowAll entries) (fun v cells => ∀ p ∈ cells, C.SourceOk v p.2)
      Error.OfBuilding := by
  induction entries generalizing w with
  | nil => exact .pure fun _ _ p hp => by simp at hp
  | cons entry rest ih =>
    unfold StoreM.reborrowAll
    refine .bind (C.reborrow (hentries entry List.mem_cons_self)) fun cell v hv hcell => ?_
    refine .bind (ih fun e he => ?_) fun cells u hu hcells => .pure fun u' hu' p hp => ?_
    · exact C.source_lasts hv (hentries e (List.mem_cons_of_mem _ he))
    · rcases List.mem_cons.mp hp with rfl | hp
      · exact C.source_lasts (R.trans hu hu') hcell
      · exact C.source_lasts hu' (hcells p hp)

/-- Copying a tuple keeps what holds, and the copy is open. -/
theorem duplicateTupleWithin (fuel : Nat) (id : TupleId) (w : R.World) :
    R.Keeps w (StoreM.duplicateTupleWithin fuel id) C.Open Error.OfBuilding := by
  induction fuel generalizing id w with
  | zero => exact .get_bind fun _ _ _ _ => .get_bind fun _ _ _ _ => .throw trivial
  | succ fuel ih =>
    unfold StoreM.duplicateTupleWithin
    -- the cells that are copied come from a tuple of the store
    have htuple : R.Keeps w (StoreM.tuple id) (fun v t => ∀ e ∈ t.entries, C.SourceOk v e.cell)
        Error.OfBuilding := by
      refine .get_bind fun v hv s hs => .ofExcept (fun t ht u hu e he => ?_) fun e he => ?_
      · unfold Store.tuple at ht
        split at ht
        · cases ht
          exact C.source_lasts hu (C.entries hs ‹_› e he)
        · cases ht
      · unfold Store.tuple at he
        split at he
        · cases he
        · cases he
          trivial
    refine .bind htuple fun t v hv ht => .bind (C.reborrowAll ht) fun cells u hu hcells => ?_
    refine .bind (C.create u t.kind t.permissions t.parent) fun copy x hx hcopy => ?_
    refine .andThen (.cleanup ?_ (C.destroy x hcopy)) fun _ y hy => ?_
    · exact C.copyCells ih hcopy fun p hp => C.source_lasts hx (hcells p hp)
    · exact .pure fun z hz => C.open_lasts (R.trans hy hz) hcopy

/-- The copy of a cell has the type of the cell, owns its value and may be put into a tuple. -/
theorem duplicate (hcell : C.SourceOk w cell) :
    R.Keeps w (StoreM.duplicate cell)
      (fun v c => C.CellOk v c ∧ c.type = cell.type ∧ c.owned = true) Error.OfBuilding := by
  refine (C.duplicateBy (fun id w => ?_) hcell).also fun s c s' hrun => made_duplicateBy hrun
  exact .get_bind fun v _ s _ => C.duplicateTupleWithin _ id v

end Copying

end TupleLang
